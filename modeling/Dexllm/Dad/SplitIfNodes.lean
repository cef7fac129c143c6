import Dexllm.Dad.BlockGraph

/-!
The split of a condition with more than one instruction into the statements
before the test and the test.
-/

namespace Dexllm.Dad

open Adjacency

variable {I : Type} [DecidableEq I]

/-- What `SplitIfNodes` keeps between two nodes of its snapshot. -/
structure Splitting (I : Type) where
  graph : BlockGraph I
  nodeMap : NodeMap
  toUpdate : List Nat

namespace Splitting

/-- `cb && cb->type.is_cond()`. -/
def isCond (g : BlockGraph I) (node : Nat) : Bool :=
  (g.heap node).isCondBlock && (g.heap node).type = .cond

/-- The two new blocks, allocated in this order: the statements, then the test. -/
def allocate (g : BlockGraph I) (node : Nat) : BlockGraph I :=
  let cb := g.heap node
  let preBlock : Block I :=
    { cls := .statement, name := cb.name ++ "-pre", type := .stmt, ins := cb.ins.dropLast }
  let condBlock : Block I :=
    { cls := .cond, name := cb.name ++ "-cond", type := .cond, ins := cb.ins.getLast?.toList }
  let pre := g.fresh
  let cond := g.fresh + 1
  let g := (g.makeNode preBlock).makeNode condBlock
  let g := g.modify pre fun b => b.copyFrom cb
  let g := g.modify cond fun b => b.copyFrom cb
  let g := g.modify pre fun b => cb.varToDeclare.foldl Block.addVariableDeclaration b
  let g := g.modify pre fun b => { b with type := .stmt }
  g.modify cond fun b => { b with trueBranch := cb.trueBranch, falseBranch := cb.falseBranch }

/-- The branches of a predecessor that name the split node, written to the node
its edge is to start at. -/
def redirectBranches (node pre pred predNode : Nat) (g : BlockGraph I) : BlockGraph I :=
  let old := g.heap pred
  if isCond g pred ∧ (g.heap predNode).isCondBlock then
    g.modify predNode fun b =>
      { b with
        trueBranch := if old.trueBranch = some node then some pre else b.trueBranch
        falseBranch := if old.falseBranch = some node then some pre else b.falseBranch }
  else g

/-- One predecessor of the split node. -/
def redirectPred (nodeMap : NodeMap) (node pre cond : Nat) (g : BlockGraph I) (pred : Nat) :
    BlockGraph I :=
  let predNode := nodeMap.get pred
  if node ∉ g.sucs pred then g.addCatchEdge predNode pre
  else
    let predNode := if pred = node then cond else predNode
    (redirectBranches node pre pred predNode g).addEdge predNode pre

/-- The edges of the two new nodes. -/
def wire (nodeMap : NodeMap) (node pre cond : Nat) (g : BlockGraph I) : BlockGraph I :=
  let g := (g.allPreds node).foldl (redirectPred nodeMap node pre cond) g
  let g := (g.sucs node).foldl (fun g suc => g.addEdge cond (nodeMap.get suc)) g
  (g.catchSucs node).foldl (fun g suc => g.addCatchEdge pre (nodeMap.get suc)) g

/-- The last steps of the split of one node. -/
def finish (nodeMap : NodeMap) (node pre cond : Nat) (g : BlockGraph I) : BlockGraph I :=
  let g := g.replaceEntry node pre
  let g := g.addEdge pre cond
  let g := g.updateAttributeWith nodeMap pre
  let g := g.updateAttributeWith nodeMap cond
  g.removeNode node

/-- One node of the snapshot. -/
def splitNode (st : Splitting I) (node : Nat) : Splitting I :=
  if ¬ isCond st.graph node then { st with toUpdate := pushNew st.toUpdate node }
  else if (st.graph.heap node).ins.length ≤ 1 then st
  else
    let pre := st.graph.fresh
    let cond := st.graph.fresh + 1
    let nodeMap := ((st.nodeMap.insert node pre).insert pre pre).insert cond cond
    { st with
      graph := finish nodeMap node pre cond (wire nodeMap node pre cond (allocate st.graph node))
      nodeMap }

/-- The state before the first node: every node is mapped to itself. -/
def start (g : BlockGraph I) : Splitting I :=
  ⟨g, g.nodes.foldl (fun m n => m.insert n n) ∅, []⟩

/-- The state after the nodes of the snapshot. -/
def run (g : BlockGraph I) : Splitting I := g.nodes.foldl splitNode (start g)

end Splitting

/-- `SplitIfNodes`. -/
def splitIfNodes (g : BlockGraph I) : BlockGraph I :=
  let st := Splitting.run g
  st.toUpdate.foldl (fun g n => g.updateAttributeWith st.nodeMap n) st.graph

end Dexllm.Dad

/-!
What the split of one node does to the edges and to the blocks.
-/

namespace Dexllm.Dad

open Adjacency

/-- A block without what the edges of a split change in it. -/
def Block.core {I : Type} (b : Block I) : Block I :=
  { b with trueBranch := none, falseBranch := none, catchType := "" }

namespace BlockGraph

variable {I : Type} {g : BlockGraph I} {a v w x : Nat} {l : List Nat}
  {f : Nat → Nat}

theorem fold_addEdge : let g' := l.foldl (fun g s => g.addEdge a (f s)) g
    g'.nodes = g.nodes ∧ g'.entry = g.entry ∧ g'.fresh = g.fresh ∧ g'.heap = g.heap ∧
      (∀ v w, g'.Edge v w ↔ g.Edge v w ∨ ∃ s ∈ l, v = a ∧ w = f s) ∧
      ∀ v w, g'.CatchEdge v w ↔ g.CatchEdge v w := by
  induction l generalizing g with
  | nil => simp
  | cons s l ih =>
    obtain ⟨hnodes, hentry, hfresh, hheap, hedge, hcatch⟩ := @ih (g.addEdge a (f s))
    refine ⟨hnodes, hentry, hfresh, hheap, fun v w => ?_, hcatch⟩
    rw [List.foldl_cons, hedge, edge_addEdge]
    simp only [List.mem_cons, exists_eq_or_imp]
    tauto

theorem heap_addCatchEdge {e1 e2 : Nat} :
    ((g.addCatchEdge e1 e2).heap x).core = (g.heap x).core ∧
      ∀ side, ((g.addCatchEdge e1 e2).heap x).branch side = (g.heap x).branch side := by
  have hmodify (g : BlockGraph I) (e : Nat) (t : String) :
      ((g.modify e fun b => { b with catchType := t }).heap x).core = (g.heap x).core ∧
        ∀ side, ((g.modify e fun b => { b with catchType := t }).heap x).branch side =
          (g.heap x).branch side := by
    rw [heap_modify]
    split
    · subst x
      exact ⟨rfl, fun side => rfl⟩
    · exact ⟨rfl, fun side => rfl⟩
  have h1 := hmodify g e1 (g.activeType e1 e2)
  have h2 := hmodify (g.modify e1 fun b => { b with catchType := g.activeType e1 e2 }) e2
    (g.activeType e1 e2)
  exact ⟨h2.1.trans h1.1, fun side => (h2.2 side).trans (h1.2 side)⟩

theorem fold_addCatchEdge : let g' := l.foldl (fun g s => g.addCatchEdge a (f s)) g
    g'.nodes = g.nodes ∧ g'.entry = g.entry ∧ g'.fresh = g.fresh ∧
      (∀ v w, g'.Edge v w ↔ g.Edge v w) ∧
      (∀ v w, g'.CatchEdge v w ↔ g.CatchEdge v w ∨ ∃ s ∈ l, v = a ∧ w = f s) ∧
      ∀ x, (g'.heap x).core = (g.heap x).core ∧
        ∀ side, (g'.heap x).branch side = (g.heap x).branch side := by
  induction l generalizing g with
  | nil => simp
  | cons s l ih =>
    obtain ⟨hnodes, hentry, hfresh, hedge, hcatch, hheap⟩ := @ih (g.addCatchEdge a (f s))
    refine ⟨hnodes, hentry, hfresh, hedge, fun v w => ?_, fun x => ?_⟩
    · rw [List.foldl_cons, hcatch, catchEdge_addCatchEdge]
      simp only [List.mem_cons, exists_eq_or_imp]
      tauto
    · obtain ⟨hcore, hbranch⟩ := hheap x
      obtain ⟨hcore', hbranch'⟩ := @heap_addCatchEdge I g x a (f s)
      exact ⟨hcore.trans hcore', fun side => (hbranch side).trans (hbranch' side)⟩

end BlockGraph

namespace Splitting

open BlockGraph

variable {I : Type} {g : BlockGraph I} {m : NodeMap} {node pre cond p v w x : Nat}
  {l : List Nat}

theorem isCondBlock_congr {b b' : Block I} (h : b'.core = b.core) :
    b'.isCondBlock = b.isCondBlock := by
  have hcls : b'.core.cls = b.core.cls := by rw [h]
  change b'.cls = b.cls at hcls
  unfold Block.isCondBlock
  rw [hcls]

theorem isCond_congr {g' : BlockGraph I} {y : Nat} (h : (g'.heap x).core = (g.heap y).core) :
    isCond g' x = isCond g y := by
  have htype : (g'.heap x).core.type = (g.heap y).core.type := by rw [h]
  change (g'.heap x).type = (g.heap y).type at htype
  unfold isCond
  rw [isCondBlock_congr h, htype]

/-- The node that the edge from a predecessor starts at. -/
def source (m : NodeMap) (node cond p : Nat) : Nat := if p = node then cond else m.get p

/-- The branch of the redirected predecessor. -/
def newBranch (node pre : Nat) (old branch : Option Nat) : Option Nat :=
  if old = some node then some pre else branch

theorem edge_redirectBranches : (redirectBranches node pre p x g).Edge v w ↔ g.Edge v w := by
  unfold redirectBranches
  dsimp only
  split
  · exact edge_modify
  · exact Iff.rfl

theorem catchEdge_redirectBranches :
    (redirectBranches node pre p x g).CatchEdge v w ↔ g.CatchEdge v w := by
  unfold redirectBranches
  dsimp only
  split
  · exact catchEdge_modify
  · exact Iff.rfl

theorem frame_redirectBranches : (redirectBranches node pre p x g).nodes = g.nodes ∧
    (redirectBranches node pre p x g).entry = g.entry ∧
    (redirectBranches node pre p x g).fresh = g.fresh := by
  unfold redirectBranches
  dsimp only
  split
  · exact ⟨rfl, rfl, rfl⟩
  · exact ⟨rfl, rfl, rfl⟩

theorem redirect_edge : (redirectPred m node pre cond g p).Edge v w ↔
    g.Edge v w ∨ (g.Edge p node ∧ v = source m node cond p ∧ w = pre) := by
  unfold redirectPred source
  by_cases h : g.Edge p node
  · have hmem : ¬ node ∉ g.sucs p := fun hnot => hnot h
    simp only [if_neg hmem, edge_addEdge, edge_redirectBranches, h, true_and]
  · have hmem : node ∉ g.sucs p := h
    simp only [if_pos hmem, edge_addCatchEdge, h, false_and, or_false]

theorem redirect_catchEdge : (redirectPred m node pre cond g p).CatchEdge v w ↔
    g.CatchEdge v w ∨ (¬ g.Edge p node ∧ v = m.get p ∧ w = pre) := by
  unfold redirectPred
  by_cases h : g.Edge p node
  · have hmem : ¬ node ∉ g.sucs p := fun hnot => hnot h
    simp only [if_neg hmem, catchEdge_addEdge, catchEdge_redirectBranches, h,
      not_true_eq_false, false_and, or_false]
  · have hmem : node ∉ g.sucs p := h
    simp only [if_pos hmem, catchEdge_addCatchEdge, h, not_false_eq_true, true_and]

theorem redirect_frame : (redirectPred m node pre cond g p).nodes = g.nodes ∧
    (redirectPred m node pre cond g p).entry = g.entry ∧
    (redirectPred m node pre cond g p).fresh = g.fresh := by
  unfold redirectPred
  dsimp only
  split
  · exact ⟨rfl, rfl, rfl⟩
  · exact frame_redirectBranches

/-- A predecessor with an edge changes the branches of the node its edge is to
start at, and nothing else of a block. -/
theorem redirect_heap : ((redirectPred m node pre cond g p).heap x).core = (g.heap x).core ∧
    ∀ side, ((redirectPred m node pre cond g p).heap x).branch side =
      if g.Edge p node ∧ isCond g p ∧ (g.heap x).isCondBlock ∧ x = source m node cond p then
        newBranch node pre ((g.heap p).branch side) ((g.heap x).branch side)
      else (g.heap x).branch side := by
  by_cases h : g.Edge p node
  · have hrun : redirectPred m node pre cond g p =
        (redirectBranches node pre p (source m node cond p) g).addEdge
          (source m node cond p) pre := by
      have hmem : ¬ node ∉ g.sucs p := fun hnot => hnot h
      unfold redirectPred
      rw [if_neg hmem]
      rfl
    rw [hrun, heap_addEdge]
    unfold redirectBranches
    dsimp only
    by_cases hcond : isCond g p ∧ (g.heap (source m node cond p)).isCondBlock
    · rw [if_pos hcond, heap_modify]
      by_cases hx : x = source m node cond p
      · subst hx
        have hall : g.Edge p node ∧ isCond g p ∧
            (g.heap (source m node cond p)).isCondBlock ∧
            source m node cond p = source m node cond p := ⟨h, hcond.1, hcond.2, rfl⟩
        rw [if_pos rfl]
        refine ⟨rfl, fun side => ?_⟩
        rw [if_pos hall]
        cases side
        · rfl
        · rfl
      · rw [if_neg hx]
        refine ⟨rfl, fun side => ?_⟩
        rw [if_neg fun hall => hx hall.2.2.2]
    · have hnot : ¬ (g.Edge p node ∧ isCond g p ∧ (g.heap x).isCondBlock ∧
          x = source m node cond p) := by
        rintro ⟨-, hp, hx, rfl⟩
        exact hcond ⟨hp, hx⟩
      rw [if_neg hcond]
      refine ⟨rfl, fun side => ?_⟩
      rw [if_neg hnot]
  · have hrun : redirectPred m node pre cond g p = g.addCatchEdge (m.get p) pre := by
      have hmem : node ∉ g.sucs p := h
      unfold redirectPred
      rw [if_pos hmem]
    have hnot : ¬ (g.Edge p node ∧ isCond g p ∧ (g.heap x).isCondBlock ∧
        x = source m node cond p) := fun hall => h hall.1
    rw [hrun]
    refine ⟨heap_addCatchEdge.1, fun side => ?_⟩
    rw [if_neg hnot]
    exact heap_addCatchEdge.2 side

theorem redirect_edge_node (hpre : pre ≠ node) :
    (redirectPred m node pre cond g p).Edge v node ↔ g.Edge v node := by
  rw [redirect_edge]
  constructor
  · rintro (h | ⟨-, -, heq⟩)
    · exact h
    · exact absurd heq.symm hpre
  · exact Or.inl

/-- The run over the predecessors: each with an edge gets an edge to the new
node, each without one a catch edge. -/
theorem redirectAll_edges (hpre : pre ≠ node) :
    let g' := l.foldl (redirectPred m node pre cond) g
    g'.nodes = g.nodes ∧ g'.entry = g.entry ∧ g'.fresh = g.fresh ∧
      (∀ x, (g'.heap x).core = (g.heap x).core) ∧
      (∀ v w, g'.Edge v w ↔ g.Edge v w ∨
        ∃ p ∈ l, g.Edge p node ∧ v = source m node cond p ∧ w = pre) ∧
      ∀ v w, g'.CatchEdge v w ↔ g.CatchEdge v w ∨
        ∃ p ∈ l, ¬ g.Edge p node ∧ v = m.get p ∧ w = pre := by
  induction l generalizing g with
  | nil => simp
  | cons p l ih =>
    obtain ⟨hnodes, hentry, hfresh, hcore, hedge, hcatch⟩ := @ih (redirectPred m node pre cond g p)
    obtain ⟨hnodes', hentry', hfresh'⟩ := @redirect_frame I g m node pre cond p
    have hsame (q : Nat) : (redirectPred m node pre cond g p).Edge q node ↔ g.Edge q node :=
      redirect_edge_node hpre
    refine ⟨hnodes.trans hnodes', hentry.trans hentry', hfresh.trans hfresh',
      fun x => (hcore x).trans redirect_heap.1, fun v w => ?_, fun v w => ?_⟩
    · rw [List.foldl_cons, hedge, redirect_edge]
      simp only [hsame, List.mem_cons, exists_eq_or_imp]
      tauto
    · rw [List.foldl_cons, hcatch, redirect_catchEdge]
      simp only [hsame, List.mem_cons, exists_eq_or_imp]
      tauto

/-- The predecessor that decides over the branches of `x`. -/
def decider (node cond x : Nat) : Nat := if x = cond then node else x

/-- The branch of `x` is to name the new node instead of the split one. -/
def Renames (g : BlockGraph I) (node cond x : Nat) (side : Bool) : Prop :=
  x ≠ node ∧ g.Edge (decider node cond x) node ∧ isCond g (decider node cond x) = true ∧
    (g.heap x).isCondBlock = true ∧ (g.heap (decider node cond x)).branch side = some node

theorem source_iff (hcond : cond ≠ node) (hne : cond ≠ p) (hp : p ≠ node → m.get p = p) :
    x = source m node cond p ↔ decider node cond x = p ∧ x ≠ node := by
  unfold source decider
  split
  · subst p
    split
    · subst x
      exact ⟨fun _ => ⟨rfl, hcond⟩, fun _ => rfl⟩
    · rename_i hx
      exact ⟨fun h => absurd h hx, fun h => absurd h.1 h.2⟩
  · rename_i hpn
    rw [hp hpn]
    split
    · subst x
      exact ⟨fun h => absurd h hne, fun h => absurd h.1.symm hpn⟩
    · constructor
      · rintro rfl
        exact ⟨rfl, hpn⟩
      · exact fun h => h.1

/-- The run over the predecessors renames the branches of each of them, and the
test that replaces the node takes over its own. -/
theorem redirectAll_branch (hpre : pre ≠ node) (hcond : cond ≠ node) (hnew : cond ∉ l)
    (hlive : ∀ p ∈ l, p ≠ node → m.get p = p) (side : Bool) :
    (decider node cond x ∈ l ∧ Renames g node cond x side →
      ((l.foldl (redirectPred m node pre cond) g).heap x).branch side = some pre) ∧
    (¬ (decider node cond x ∈ l ∧ Renames g node cond x side) →
      ((l.foldl (redirectPred m node pre cond) g).heap x).branch side =
        (g.heap x).branch side) := by
  induction l generalizing g with
  | nil => simp
  | cons p l ih =>
    have hsource (y : Nat) := @source_iff m node cond p y hcond
      (fun h => hnew (h ▸ List.mem_cons_self)) (hlive p List.mem_cons_self)
    have hstep (y : Nat) := @redirect_heap I g m node pre cond p y
    obtain ⟨hin, hout⟩ := @ih (redirectPred m node pre cond g p)
      (fun h => hnew (List.mem_cons_of_mem p h))
      (fun q hq => hlive q (List.mem_cons_of_mem p hq))
    rw [List.foldl_cons]
    by_cases hnow : decider node cond x = p ∧ Renames g node cond x side
    · obtain ⟨rfl, hx, hedge, hc, hblock, hbranch⟩ := hnow
      have hset : ((redirectPred m node pre cond g (decider node cond x)).heap x).branch side =
          some pre := by
        rw [(hstep x).2, if_pos ⟨hedge, hc, hblock, (hsource x).mpr ⟨rfl, hx⟩⟩]
        unfold newBranch
        rw [if_pos hbranch]
      constructor
      · intro _
        by_cases hagain : decider node cond x ∈ l ∧
            Renames (redirectPred m node pre cond g (decider node cond x)) node cond x side
        · exact hin hagain
        · rw [hout hagain, hset]
      · exact fun hnot => absurd ⟨List.mem_cons_self, hx, hedge, hc, hblock, hbranch⟩ hnot
    · have hsame : ((redirectPred m node pre cond g p).heap x).branch side =
          (g.heap x).branch side := by
        rw [(hstep x).2]
        split
        · rename_i hall
          obtain ⟨hp, hx⟩ := (hsource x).mp hall.2.2.2
          unfold newBranch
          rw [if_neg]
          intro hbranch
          rw [← hp] at hall hbranch
          exact hnow ⟨hp, hx, hall.1, hall.2.1, hall.2.2.1, hbranch⟩
        · rfl
      have hnode : ((redirectPred m node pre cond g p).heap node).branch side =
          (g.heap node).branch side := by
        rw [(hstep node).2, if_neg]
        exact fun hall => ((hsource node).mp hall.2.2.2).2 rfl
      have hdecider : ((redirectPred m node pre cond g p).heap (decider node cond x)).branch side =
          (g.heap (decider node cond x)).branch side := by
        unfold decider
        split
        · exact hnode
        · exact hsame
      have hclass : ((redirectPred m node pre cond g p).heap x).isCondBlock =
          (g.heap x).isCondBlock := isCondBlock_congr (hstep x).1
      have hrenames : Renames (redirectPred m node pre cond g p) node cond x side ↔
          Renames g node cond x side := by
        unfold Renames
        rw [redirect_edge_node hpre, isCond_congr (hstep _).1, hclass, hdecider]
      rw [hrenames] at hin hout
      rw [hsame] at hout
      constructor
      · rintro ⟨hmem, hr⟩
        rcases List.mem_cons.mp hmem with heq | hmem
        · exact absurd ⟨heq, hr⟩ hnow
        · exact hin ⟨hmem, hr⟩
      · intro hnot
        exact hout fun h => hnot ⟨List.mem_cons_of_mem p h.1, h.2⟩

end Splitting

end Dexllm.Dad
