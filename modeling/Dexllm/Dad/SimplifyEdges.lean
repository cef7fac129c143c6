import Dexllm.Dad.Simplify

/-!
What the removal of an empty block and the merge of two blocks do to the edges,
instructions and pointers of a graph.
-/

namespace Dexllm.Dad

open Adjacency BlockGraph

section Pointers

variable {I : Type}

/-- The branch, case and default pointers of a block. -/
def Block.pointers (b : Block I) : List Nat :=
  match b.cls with
  | .cond | .shortCircuit => b.trueBranch.toList ++ b.falseBranch.toList
  | .switch => b.cases ++ b.defaultCase.toList
  | _ => []

theorem Block.pointers_updateAttributeWith {num : Nat → Int} {m : NodeMap} {b : Block I} :
    (b.updateAttributeWith num m).pointers = b.pointers.map m.get := by
  have hoption (o : Option Nat) : (o.map m.get).toList = o.toList.map m.get := by
    cases o with
    | none => rfl
    | some v => rfl
  unfold Block.pointers Block.updateAttributeWith
  cases hcls : b.cls with
  | cond => simp [hoption]
  | shortCircuit => simp [hoption]
  | switch => simp [hoption]
  | statement => simp
  | ret => simp
  | throw => simp

theorem Block.ins_updateAttributeWith {num : Nat → Int} {m : NodeMap} {b : Block I} :
    (b.updateAttributeWith num m).ins = b.ins ∧ (b.updateAttributeWith num m).type = b.type := by
  unfold Block.updateAttributeWith
  cases b.cls with
  | cond => exact ⟨rfl, rfl⟩
  | shortCircuit => exact ⟨rfl, rfl⟩
  | switch => exact ⟨rfl, rfl⟩
  | statement => exact ⟨rfl, rfl⟩
  | ret => exact ⟨rfl, rfl⟩
  | throw => exact ⟨rfl, rfl⟩

theorem BlockGraph.code_addCatchEdge {g : BlockGraph I} {e1 e2 v : Nat} :
    ((g.addCatchEdge e1 e2).heap v).ins = (g.heap v).ins ∧
      ((g.addCatchEdge e1 e2).heap v).type = (g.heap v).type ∧
      ((g.addCatchEdge e1 e2).heap v).pointers = (g.heap v).pointers := by
  have htyped (g : BlockGraph I) (e : Nat) (active : String) (v : Nat) :
      ((g.modify e fun b => { b with catchType := active }).heap v).ins = (g.heap v).ins ∧
        ((g.modify e fun b => { b with catchType := active }).heap v).type = (g.heap v).type ∧
        ((g.modify e fun b => { b with catchType := active }).heap v).pointers =
          (g.heap v).pointers := by
    rw [heap_modify]
    split
    · rename_i heq
      rw [heq]
      exact ⟨rfl, rfl, rfl⟩
    · exact ⟨rfl, rfl, rfl⟩
  obtain ⟨hins1, htype1, hptr1⟩ := htyped g e1 (g.activeType e1 e2) v
  obtain ⟨hins2, htype2, hptr2⟩ := htyped
    (g.modify e1 fun b => { b with catchType := g.activeType e1 e2 }) e2 (g.activeType e1 e2) v
  exact ⟨hins2.trans hins1, htype2.trans htype1, hptr2.trans hptr1⟩

/-- The pointers of a block are normal successors of it. -/
def BlockGraph.PointersFollow (g : BlockGraph I) : Prop :=
  ∀ v ∈ g.nodes, ∀ t ∈ (g.heap v).pointers, g.Edge v t

/-- A statement block without a normal successor has no catch successor. -/
def BlockGraph.TailsUnhandled (g : BlockGraph I) : Prop :=
  ∀ v ∈ g.nodes, (g.heap v).type = .stmt → (∀ w, ¬ g.Edge v w) → ∀ w, ¬ g.CatchEdge v w

end Pointers

namespace Simplifying

variable {I : Type} {g : BlockGraph I} {m : NodeMap} {node suc v w t : Nat} {l : List Nat}

section Bypass

/-- The predecessors of a removed block, moved to its successor. -/
structure Moved (g g' : BlockGraph I) (node suc : Nat) (l : List Nat) : Prop where
  edge : ∀ v w, g'.Edge v w ↔ g.Edge v w ∨ (v ∈ l ∧ g.Edge v node ∧ w = suc)
  catchEdge : ∀ v w, g'.CatchEdge v w ↔ g.CatchEdge v w ∨ (v ∈ l ∧ ¬ g.Edge v node ∧ w = suc)
  ins : ∀ v, (g'.heap v).ins = (g.heap v).ins ∧ (g'.heap v).type = (g.heap v).type
  pointers : ∀ v ∈ g.nodes, ∀ t ∈ (g'.heap v).pointers,
    (t ∈ (g.heap v).pointers ∧ (t = node → v ∉ l)) ∨ (t = suc ∧ node ∈ (g.heap v).pointers)
  entry : g'.entry = g.entry

theorem moved_one (hget : ∀ t ∈ g.nodes, m.get t = if t = node then suc else t)
    (hlive : ∀ v ∈ g.nodes, ∀ t ∈ (g.heap v).pointers, t ∈ g.nodes) :
    Moved g (bypassPred m node suc g v) node suc [v] := by
  have hupdate (w : Nat) : ((g.updateAttributeWith m v).heap w).ins = (g.heap w).ins ∧
      ((g.updateAttributeWith m v).heap w).type = (g.heap w).type := by
    unfold BlockGraph.updateAttributeWith
    rw [heap_modify]
    split
    · rename_i heq
      rw [heq]
      exact Block.ins_updateAttributeWith
    · exact ⟨rfl, rfl⟩
  have hpointers (w : Nat) (hw : w ∈ g.nodes) (t : Nat)
      (ht : t ∈ ((g.updateAttributeWith m v).heap w).pointers) :
      (t ∈ (g.heap w).pointers ∧ (t = node → w ∉ [v])) ∨
        (t = suc ∧ node ∈ (g.heap w).pointers) := by
    unfold BlockGraph.updateAttributeWith at ht
    rw [heap_modify] at ht
    split at ht
    · rename_i heq
      subst heq
      rw [Block.pointers_updateAttributeWith] at ht
      obtain ⟨t', ht', rfl⟩ := List.mem_map.mp ht
      rw [hget t' (hlive w hw t' ht')]
      split
      · rename_i hnode
        exact Or.inr ⟨rfl, hnode ▸ ht'⟩
      · rename_i hnode
        exact Or.inl ⟨ht', fun heq => absurd heq hnode⟩
    · rename_i hne
      exact Or.inl ⟨ht, fun _ hmem => hne (List.mem_singleton.mp hmem)⟩
  have hsucs : (g.updateAttributeWith m v).sucs v = g.sucs v := rfl
  unfold bypassPred
  dsimp only
  rw [hsucs]
  split
  · rename_i hno
    have hno : ¬ g.Edge v node := hno
    constructor
    · intro a b
      refine ⟨Or.inl, ?_⟩
      rintro (h | ⟨ha, h, -⟩)
      · exact h
      · exact absurd (List.mem_singleton.mp ha ▸ h) hno
    · intro a b
      refine catchEdge_addCatchEdge.trans (or_congr Iff.rfl ?_)
      constructor
      · rintro ⟨rfl, rfl⟩
        exact ⟨List.mem_singleton_self _, hno, rfl⟩
      · exact fun ⟨ha, _, hb⟩ => ⟨List.mem_singleton.mp ha, hb⟩
    · intro w
      exact ⟨code_addCatchEdge.1.trans (hupdate w).1, code_addCatchEdge.2.1.trans (hupdate w).2⟩
    · intro w hw t ht
      rw [code_addCatchEdge.2.2] at ht
      exact hpointers w hw t ht
    · rfl
  · rename_i hyes
    have hyes : g.Edge v node := Decidable.not_not.mp hyes
    constructor
    · intro a b
      refine edge_addEdge.trans (or_congr Iff.rfl ?_)
      constructor
      · rintro ⟨rfl, rfl⟩
        exact ⟨List.mem_singleton_self _, hyes, rfl⟩
      · exact fun ⟨ha, _, hb⟩ => ⟨List.mem_singleton.mp ha, hb⟩
    · intro a b
      refine ⟨Or.inl, ?_⟩
      rintro (h | ⟨ha, h, -⟩)
      · exact h
      · exact absurd (List.mem_singleton.mp ha ▸ hyes) h
    · exact hupdate
    · exact hpointers
    · rfl

theorem moved_fold (hnode : node ≠ suc) (hsuc : suc ∈ g.nodes)
    (hget : ∀ t ∈ g.nodes, m.get t = if t = node then suc else t)
    (hlive : ∀ v ∈ g.nodes, ∀ t ∈ (g.heap v).pointers, t ∈ g.nodes) :
    Moved g (l.foldl (bypassPred m node suc) g) node suc l := by
  induction l generalizing g with
  | nil =>
    constructor
    · exact fun v w => ⟨Or.inl, fun h => h.resolve_right fun h => List.not_mem_nil h.1⟩
    · exact fun v w => ⟨Or.inl, fun h => h.resolve_right fun h => List.not_mem_nil h.1⟩
    · exact fun v => ⟨rfl, rfl⟩
    · exact fun v hv t ht => Or.inl ⟨ht, fun _ => List.not_mem_nil⟩
    · rfl
  | cons x l ih =>
    have hone := @moved_one I g m node suc x hget hlive
    have hnodes : (bypassPred m node suc g x).nodes = g.nodes := by
      unfold bypassPred
      dsimp only
      split
      · rfl
      · rfl
    have hrest := ih (hnodes.symm ▸ hsuc) (hnodes.symm ▸ hget) (by
      intro v hv t ht
      rw [hnodes] at hv ⊢
      rcases hone.pointers v hv t ht with ⟨ht, -⟩ | ⟨rfl, -⟩
      · exact hlive v hv t ht
      · exact hsuc)
    have hstill (v : Nat) : (bypassPred m node suc g x).Edge v node ↔ g.Edge v node := by
      rw [hone.edge]
      constructor
      · rintro (h | ⟨-, -, h⟩)
        · exact h
        · exact absurd h hnode
      · exact Or.inl
    rw [List.foldl_cons]
    constructor
    · intro v w
      rw [hrest.edge, hone.edge, hstill, List.mem_singleton, List.mem_cons]
      tauto
    · intro v w
      rw [hrest.catchEdge, hone.catchEdge, hstill, List.mem_singleton, List.mem_cons]
      tauto
    · exact fun v => ⟨(hrest.ins v).1.trans (hone.ins v).1, (hrest.ins v).2.trans (hone.ins v).2⟩
    · intro v hv t ht
      have hkept (hptr : node ∈ ((bypassPred m node suc g x).heap v).pointers) :
          node ∈ (g.heap v).pointers ∧ v ≠ x := by
        rcases hone.pointers v hv node hptr with ⟨hptr, hx⟩ | ⟨heq, -⟩
        · exact ⟨hptr, fun heq => hx rfl (List.mem_singleton.mpr heq)⟩
        · exact absurd heq hnode
      rcases hrest.pointers v (hnodes.symm ▸ hv) t ht with ⟨ht, hl⟩ | ⟨rfl, hptr⟩
      · rcases hone.pointers v hv t ht with ⟨ht', hx⟩ | ⟨rfl, hptr⟩
        · refine Or.inl ⟨ht', fun heq hmem => ?_⟩
          rcases List.mem_cons.mp hmem with hmem | hmem
          · exact hx heq (List.mem_singleton.mpr hmem)
          · exact hl heq hmem
        · exact Or.inr ⟨rfl, hptr⟩
      · exact Or.inr ⟨rfl, (hkept hptr).1⟩
    · exact hrest.entry.trans hone.entry

end Bypass

section Steps

variable [DecidableEq I] {st : Simplifying I}

omit [DecidableEq I] in
/-- An empty block goes, and what reached it reaches its successor. A catch edge
beside a normal edge is lost. -/
theorem bypass_edges (h : st.graph.Sound) (hne : node ≠ suc)
    (hget : ∀ t ∈ st.graph.nodes,
      NodeMap.get (st.nodeMap.insert node suc) t = if t = node then suc else t)
    (hlive : ∀ v ∈ st.graph.nodes, ∀ t ∈ (st.graph.heap v).pointers, t ∈ st.graph.nodes)
    (hsuc : suc ∈ st.graph.nodes) :
    (∀ v w, (st.bypass node suc).graph.Edge v w ↔
      v ≠ node ∧ w ≠ node ∧ (st.graph.Edge v w ∨ st.graph.Edge v node ∧ w = suc)) ∧
    (∀ v w, (st.bypass node suc).graph.CatchEdge v w ↔ v ≠ node ∧ w ≠ node ∧
      (st.graph.CatchEdge v w ∨ st.graph.CatchEdge v node ∧ ¬ st.graph.Edge v node ∧ w = suc)) ∧
    (∀ v, ((st.bypass node suc).graph.heap v).ins = (st.graph.heap v).ins ∧
      ((st.bypass node suc).graph.heap v).type = (st.graph.heap v).type) ∧
    (∀ v ∈ st.graph.nodes, ∀ t ∈ ((st.bypass node suc).graph.heap v).pointers,
      (t ∈ (st.graph.heap v).pointers ∧ (t = node → ¬ st.graph.Edge v node)) ∨
        (t = suc ∧ node ∈ (st.graph.heap v).pointers)) ∧
    (st.bypass node suc).graph.entry = st.graph.entry.map (Function.update id node suc) := by
  obtain ⟨hedge, hcatch, hins, hpointers, hentry⟩ :=
    @moved_fold I st.graph (st.nodeMap.insert node suc) node suc (st.graph.allPreds node)
      hne hsuc hget hlive
  let g := (st.graph.allPreds node).foldl (bypassPred (st.nodeMap.insert node suc) node suc)
    st.graph
  have hfolded : g.Sound ∧ g.nodes = st.graph.nodes := by
    refine Sound.foldl ?_ h rfl
    intro g' p hp hs hn
    obtain ⟨hs', hn'⟩ := @sound_bypassPred I g' (st.nodeMap.insert node suc) node suc p hs
      (hn ▸ h.allPreds_mem hp) (hn ▸ hsuc)
    exact ⟨hs', hn'.trans hn⟩
  have hreplaced : (g.replaceEntry node suc).Sound := hfolded.1.replaceEntry (hfolded.2 ▸ hsuc)
  have hpreds (v : Nat) : v ∈ st.graph.allPreds node ↔
      st.graph.Edge v node ∨ st.graph.CatchEdge v node := h.mem_allPreds
  refine ⟨fun v w => ?_, fun v w => ?_, ?_, ?_, ?_⟩
  · have hremoved : (st.bypass node suc).graph.Edge v w ↔ g.Edge v w ∧ v ≠ node ∧ w ≠ node :=
      hreplaced.edge_removeNode.trans (and_congr_left' edge_replaceEntry)
    rw [hremoved, hedge, hpreds]
    tauto
  · have hremoved : (st.bypass node suc).graph.CatchEdge v w ↔
        g.CatchEdge v w ∧ v ≠ node ∧ w ≠ node :=
      hreplaced.catchEdge_removeNode.trans (and_congr_left' catchEdge_replaceEntry)
    rw [hremoved, hcatch, hpreds]
    tauto
  · have hheap : (st.bypass node suc).graph.heap = g.heap := frame_replaceEntry.2.2.1
    rw [hheap]
    exact hins
  · have hheap : (st.bypass node suc).graph.heap = g.heap := frame_replaceEntry.2.2.1
    rw [hheap]
    intro v hv t ht
    refine (hpointers v hv t ht).imp_left fun ⟨ht, hnot⟩ => ⟨ht, fun heq hvn => ?_⟩
    exact hnot heq ((hpreds v).mpr (Or.inl hvn))
  · have hreplace : (st.bypass node suc).graph.entry = (g.replaceEntry node suc).entry := rfl
    rw [hreplace, entry_replaceEntry, hentry]
    congr 1
    funext e
    by_cases he : e = node
    · rw [if_pos he, he, Function.update_self]
    · rw [if_neg he, Function.update_of_ne he]
      rfl

/-- The tests of a merge. -/
structure Mergeable (g : BlockGraph I) (node suc : Nat) : Prop where
  stmt : (g.heap suc).type = .stmt
  onePred : (g.allPreds suc).length = 1
  noHandler : ∀ w, ¬ g.CatchEdge suc w
  noKey : g.catchSucs suc = []
  ne : node ≠ suc
  entry : g.entry ≠ some suc

omit [DecidableEq I] in
theorem mergeable (h : canMerge g node suc = true) : Mergeable g node suc := by
  unfold canMerge at h
  simp only [Bool.and_eq_true, decide_eq_true_eq, Option.isNone_iff_eq_none] at h
  obtain ⟨⟨⟨⟨hstmt, hpred⟩, hkey⟩, hne⟩, hentry⟩ := h
  have hnil : g.catchSucs suc = [] := by
    unfold catchSucs Table.listAt
    rw [hkey]
    rfl
  refine ⟨hstmt, hpred, fun w hw => ?_, hnil, hne, hentry⟩
  have hw : w ∈ g.catchSucs suc := hw
  rw [hnil] at hw
  exact List.not_mem_nil hw

/-- The one successor of a statement block moves into it, with the first of its
own normal successors. -/
theorem merge_edges (h : st.graph.Sound) (hm : Mergeable st.graph node suc) :
    (∀ v w, (st.merge node suc).graph.Edge v w ↔ v ≠ suc ∧ w ≠ suc ∧
      (st.graph.Edge v w ∨ v = node ∧ (st.graph.sucs suc).head? = some w)) ∧
    (∀ v w, (st.merge node suc).graph.CatchEdge v w ↔
      v ≠ suc ∧ w ≠ suc ∧ st.graph.CatchEdge v w) ∧
    (∀ v, ((st.merge node suc).graph.heap v).ins =
      if v = node then (st.graph.heap node).ins ++ (st.graph.heap suc).ins
      else (st.graph.heap v).ins) ∧
    (∀ v, ((st.merge node suc).graph.heap v).type = (st.graph.heap v).type ∧
      ((st.merge node suc).graph.heap v).pointers = (st.graph.heap v).pointers) ∧
    (st.merge node suc).graph.entry = st.graph.entry := by
  have habsorb (vars : List I) (b : Block I) :
      (vars.foldl Block.addVariableDeclaration b).ins = b.ins ∧
        (vars.foldl Block.addVariableDeclaration b).type = b.type ∧
        (vars.foldl Block.addVariableDeclaration b).pointers = b.pointers := by
    induction vars generalizing b with
    | nil => exact ⟨rfl, rfl, rfl⟩
    | cons x vars ih => exact ih (b.addVariableDeclaration x)
  let g := st.graph.modify node (absorb (st.graph.heap suc))
  obtain ⟨joined, hjoined⟩ : ∃ joined, joined = linked g node (g.sucs suc) := ⟨_, rfl⟩
  have hlinked : joined.Consistent ∧ joined.heap = g.heap ∧ joined.entry = st.graph.entry ∧
      (∀ v w, joined.Edge v w ↔ g.Edge v w ∨ v = node ∧ (st.graph.sucs suc).head? = some w) ∧
      ∀ v w, joined.CatchEdge v w ↔ st.graph.CatchEdge v w := by
    have hg : g.Consistent := h.toConsistent.modify
    have hsucs : st.graph.sucs suc = g.sucs suc := rfl
    rw [hsucs]
    cases hcase : g.sucs suc with
    | nil =>
      have heq : joined = g := by
        rw [hjoined, hcase]
        rfl
      rw [heq]
      exact ⟨hg, rfl, rfl, fun v w => by simp, fun v w => Iff.rfl⟩
    | cons new rest =>
      have heq : joined = g.addEdge node new := by
        rw [hjoined, hcase]
        rfl
      rw [heq]
      refine ⟨hg.addEdge, rfl, rfl, fun v w => ?_, fun v w => Iff.rfl⟩
      rw [edge_addEdge, List.head?_cons, Option.some.injEq, eq_comm (a := new)]
  have hresult : (st.merge node suc).graph = joined.removeNode suc := by
    have hcatchSucs : joined.catchSucs suc = [] := by
      apply List.eq_nil_iff_forall_not_mem.mpr
      exact fun w hw => hm.noHandler w ((hlinked.2.2.2.2 suc w).mp hw)
    rw [graph_merge hjoined, hcatchSucs]
    rfl
  obtain ⟨hconsistent, hheap, hentry, hedge, hcatch⟩ := hlinked
  rw [hresult]
  refine ⟨fun v w => ?_, fun v w => ?_, fun v => ?_, fun v => ?_, hentry⟩
  · rw [hconsistent.edge_removeNode, hedge]
    have hsame : g.Edge v w ↔ st.graph.Edge v w := Iff.rfl
    rw [hsame]
    tauto
  · rw [hconsistent.catchEdge_removeNode, hcatch]
    tauto
  · rw [heap_removeNode, hheap, heap_modify]
    split
    · exact (habsorb _ _).1
    · rfl
  · rw [heap_removeNode, hheap, heap_modify]
    split
    · rename_i heq
      rw [heq]
      exact ⟨(habsorb _ _).2.1, (habsorb _ _).2.2⟩
    · exact ⟨rfl, rfl⟩

end Steps

end Simplifying

end Dexllm.Dad
