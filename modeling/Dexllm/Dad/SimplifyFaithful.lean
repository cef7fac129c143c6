import Dexllm.Dad.SimplifyEdges
import Dexllm.Lib.BlockTraces

/-!
`Simplify` keeps the instruction sequences and the handlers, as long as no visit
meets one of two shapes: a block that reaches a removed empty block by a normal
and by a catch edge, and a merged block with two normal successors.
-/

namespace Dexllm.Dad

open Adjacency BlockGraph BlockTraces

variable {I : Type}

namespace BlockGraph

/-- The normal edges and the instructions of a graph. -/
def flow (g : BlockGraph I) : BlockFlow Nat I := ⟨g.Edge, fun v => (g.heap v).ins⟩

/-- `h` handles the exceptions of the instruction `x`. -/
def Handles (g : BlockGraph I) (x : I) (h : Nat) : Prop :=
  ∃ v ∈ g.nodes, x ∈ (g.heap v).ins ∧ g.CatchEdge v h

/-- `g'` behaves as `g`, a removed empty block being renamed to the block that
stands for it. -/
structure Preserves (g g' : BlockGraph I) (rename : Nat → Nat) : Prop where
  nodes : ∀ v ∈ g'.nodes, v ∈ g.nodes ∧ rename v = v
  outside : ∀ v, v ∉ g.nodes → rename v = v
  entry : g'.entry = g.entry.map rename
  traces : ∀ v ∈ g.nodes, rename v ∈ g'.nodes → g.flow.traces v = g'.flow.traces (rename v)
  handlers : ∀ x h', g'.Handles x h' ↔ ∃ h, g.Handles x h ∧ h' = rename h

theorem Preserves.refl (g : BlockGraph I) : Preserves g g id where
  nodes := fun _ hv => ⟨hv, rfl⟩
  outside := fun _ _ => rfl
  entry := Option.map_id_apply.symm
  traces := fun _ _ _ => rfl
  handlers := fun _ _ => ⟨fun h => ⟨_, h, rfl⟩, fun ⟨_, h, heq⟩ => heq ▸ h⟩

theorem Preserves.trans {g g' g'' : BlockGraph I} {r r' : Nat → Nat} (h : Preserves g g' r)
    (h' : Preserves g' g'' r') : Preserves g g'' (r' ∘ r) where
  nodes := by
    intro v hv
    obtain ⟨hv', heq'⟩ := h'.nodes v hv
    obtain ⟨hv, heq⟩ := h.nodes v hv'
    exact ⟨hv, (congrArg r' heq).trans heq'⟩
  outside := by
    intro v hv
    have hv' : v ∉ g'.nodes := fun hmem => hv (h.nodes v hmem).1
    exact (congrArg r' (h.outside v hv)).trans (h'.outside v hv')
  entry := by
    rw [h'.entry, h.entry, Option.map_map]
  traces := by
    intro v hv hlive
    have hmid : r v ∈ g'.nodes := by
      by_contra hout
      have hfixed := h'.outside (r v) hout
      exact hout (h'.nodes (r v) (hfixed ▸ hlive)).1
    exact (h.traces v hv hmid).trans (h'.traces (r v) hmid hlive)
  handlers := by
    intro x h''
    rw [h'.handlers]
    constructor
    · rintro ⟨e', he', rfl⟩
      obtain ⟨e, he, rfl⟩ := (h.handlers x e').mp he'
      exact ⟨e, he, rfl⟩
    · rintro ⟨e, he, rfl⟩
      exact ⟨r e, (h.handlers x (r e)).mpr ⟨e, he, rfl⟩, rfl⟩

end BlockGraph

namespace Simplifying

variable [DecidableEq I] {g : BlockGraph I} {st : Simplifying I} {node suc fuel : Nat}
  {l : List Nat}

/-- What the visits keep. -/
structure Kept (st : Simplifying I) : Prop where
  sound : st.graph.Sound
  pointers : st.graph.PointersFollow
  tails : st.graph.TailsUnhandled
  plain : ∀ v ∈ st.graph.nodes, (st.graph.heap v).type = .stmt → (st.graph.heap v).pointers = []
  keys : ∀ k ∈ st.nodeMap, k ∉ st.graph.nodes

/-- An empty block of the graph that a visit takes out. -/
structure Bypassed (g : BlockGraph I) (node suc : Nat) : Prop where
  stmt : (g.heap node).type = .stmt
  mem : node ∈ g.nodes
  sucs : g.allSucs node = [suc]
  ins : (g.heap node).ins = []
  switch : ((g.allPreds node).any fun p => (g.heap p).type = .switch) = false
  ne : node ≠ suc

/-- A block of the graph that takes its only successor in. -/
structure Merged (g : BlockGraph I) (node suc : Nat) : Prop where
  stmt : (g.heap node).type = .stmt
  mem : node ∈ g.nodes
  sucs : g.allSucs node = [suc]
  ins : (g.heap node).ins ≠ []
  merge : canMerge g node suc = true

/-- The visit of `node` loses nothing: a block with instructions that reaches the
removed block by a normal and by a catch edge has the catch edge to its successor
too, and a merged block has at most one normal successor. -/
structure LosesNothing (g : BlockGraph I) (node : Nat) : Prop where
  bypass : ∀ suc, Bypassed g node suc → ∀ p, (g.heap p).ins ≠ [] → g.Edge p node →
    g.CatchEdge p node → g.CatchEdge p suc
  merge : ∀ suc, Merged g node suc → ∀ v w, g.Edge suc v → g.Edge suc w → v = w

section Bypass

omit [DecidableEq I] in
/-- The only arc of a statement block is a normal edge. -/
theorem edge_only (ht : g.TailsUnhandled) (hmem : node ∈ g.nodes)
    (hstmt : (g.heap node).type = .stmt) (hsucs : g.allSucs node = [suc]) :
    (∀ w, g.Edge node w ↔ w = suc) ∧ ∀ w, ¬ g.CatchEdge node w := by
  rcases List.append_eq_singleton_iff.mp hsucs with ⟨hnil, hone⟩ | ⟨hone, hnil⟩
  · have hno : ∀ w, ¬ g.Edge node w := List.eq_nil_iff_forall_not_mem.mp hnil
    have hcatch : g.CatchEdge node suc := mem_catchSucs.mp (hone ▸ List.mem_singleton_self suc)
    exact absurd hcatch (ht node hmem hstmt hno suc)
  · refine ⟨fun w => ?_, List.eq_nil_iff_forall_not_mem.mp hnil⟩
    rw [← mem_sucs, hone, List.mem_singleton]

omit [DecidableEq I] in
theorem get_insert (h : Kept st) {t : Nat} (ht : t ∈ st.graph.nodes) :
    NodeMap.get (st.nodeMap.insert node suc) t = if t = node then suc else t := by
  split
  · rename_i heq
    unfold NodeMap.get
    rw [heq, AList.lookup_insert]
    rfl
  · rename_i hne
    apply NodeMap.get_of_not_mem
    intro hkey
    rcases (AList.mem_insert _).mp hkey with heq | hkey
    · exact hne heq
    · exact h.keys t hkey ht

omit [DecidableEq I] in
theorem Kept.live (h : Kept st) : ∀ v ∈ st.graph.nodes, ∀ t ∈ (st.graph.heap v).pointers,
    t ∈ st.graph.nodes :=
  fun v hv t ht => (h.sound.edgeMem v t (h.pointers v hv t ht)).2

omit [DecidableEq I] in
theorem kept_bypass (h : Kept st) (hb : Bypassed st.graph node suc) :
    Kept (st.bypass node suc) := by
  have hsuc : suc ∈ st.graph.nodes := h.sound.allSucs_mem (hb.sucs ▸ List.mem_singleton_self suc)
  obtain ⟨hedge, hcatch, hins, hpointers, -⟩ :=
    bypass_edges h.sound hb.ne (fun t ht => get_insert h ht) h.live hsuc
  obtain ⟨hsound, hnodes⟩ := bypass_spec h.sound hsuc hb.ne
  have hmem (v : Nat) : v ∈ (st.bypass node suc).graph.nodes ↔ v ∈ st.graph.nodes ∧ v ≠ node := by
    rw [hnodes, h.sound.nodup.mem_erase_iff]
    exact And.comm
  refine ⟨hsound, ?_, ?_, ?_, ?_⟩
  · intro v hv t ht
    obtain ⟨hv, hne⟩ := (hmem v).mp hv
    rw [hedge]
    rcases hpointers v hv t ht with ⟨ht, hnot⟩ | ⟨heq, ht⟩
    · have hvt := h.pointers v hv t ht
      exact ⟨hne, fun heq => hnot heq (heq ▸ hvt), Or.inl hvt⟩
    · exact ⟨hne, heq ▸ hb.ne.symm, Or.inr ⟨h.pointers v hv node ht, heq⟩⟩
  · intro v hv hstmt hno w hw
    obtain ⟨hv, hne⟩ := (hmem v).mp hv
    have hold : ∃ u, st.graph.CatchEdge v u := by
      rcases ((hcatch v w).mp hw).2.2 with hw | ⟨hw, -⟩
      · exact ⟨w, hw⟩
      · exact ⟨node, hw⟩
    obtain ⟨u, hu⟩ := hold
    refine h.tails v hv ((hins v).2.symm.trans hstmt) (fun w hw => ?_) u hu
    by_cases heq : w = node
    · exact hno suc ((hedge v suc).mpr ⟨hne, hb.ne.symm, Or.inr ⟨heq ▸ hw, rfl⟩⟩)
    · exact hno w ((hedge v w).mpr ⟨hne, heq, Or.inl hw⟩)
  · intro v hv hstmt
    obtain ⟨hv, -⟩ := (hmem v).mp hv
    have hnil := h.plain v hv ((hins v).2.symm.trans hstmt)
    apply List.eq_nil_iff_forall_not_mem.mpr
    intro t ht
    rcases hpointers v hv t ht with ⟨ht, -⟩ | ⟨-, ht⟩
    · exact List.eq_nil_iff_forall_not_mem.mp hnil t ht
    · exact List.eq_nil_iff_forall_not_mem.mp hnil node ht
  · intro k hk hmem'
    obtain ⟨hmem', hne⟩ := (hmem k).mp hmem'
    rcases (AList.mem_insert _).mp hk with heq | hk
    · exact hne heq
    · exact h.keys k hk hmem'

omit [DecidableEq I] in
/-- The removal of an empty block hides it. -/
theorem hides_bypass (h : Kept st) (hb : Bypassed st.graph node suc) :
    Hides st.graph.flow (st.bypass node suc).graph.flow node := by
  have hsuc : suc ∈ st.graph.nodes := h.sound.allSucs_mem (hb.sucs ▸ List.mem_singleton_self suc)
  obtain ⟨hedge, -, hins, -, -⟩ :=
    bypass_edges h.sound hb.ne (fun t ht => get_insert h ht) h.live hsuc
  obtain ⟨honly, -⟩ := edge_only h.tails hb.mem hb.stmt hb.sucs
  have hout (v : Nat) : (st.bypass node suc).graph.flow.out v = st.graph.flow.out v := (hins v).1
  have hempty : st.graph.flow.out node = [] := hb.ins
  constructor
  · exact fun hloop => hb.ne ((honly node).mp hloop)
  · intro v w
    exact (hedge v w).trans (by rw [← honly w]; exact Iff.rfl)
  · intro v _ _
    rw [hout, hempty, List.append_nil]
  · exact fun v _ _ _ _ => hout v
  · exact fun v _ _ => hout v
  · exact fun hstop => absurd ((honly suc).mpr rfl) (hstop suc)

omit [DecidableEq I] in
theorem preserves_bypass (h : Kept st) (hb : Bypassed st.graph node suc)
    (hclean : LosesNothing st.graph node) :
    Preserves st.graph (st.bypass node suc).graph (Function.update id node suc) := by
  have hsuc : suc ∈ st.graph.nodes := h.sound.allSucs_mem (hb.sucs ▸ List.mem_singleton_self suc)
  obtain ⟨-, hcatch, hins, -, hentry⟩ :=
    bypass_edges h.sound hb.ne (fun t ht => get_insert h ht) h.live hsuc
  obtain ⟨-, hnodes⟩ := bypass_spec h.sound hsuc hb.ne
  have hmem (v : Nat) : v ∈ (st.bypass node suc).graph.nodes ↔ v ∈ st.graph.nodes ∧ v ≠ node := by
    rw [hnodes, h.sound.nodup.mem_erase_iff]
    exact And.comm
  obtain ⟨honly, -⟩ := edge_only h.tails hb.mem hb.stmt hb.sucs
  have hhides := hides_bypass h hb
  refine ⟨fun v hv => ?_, fun v hv => ?_, hentry, fun v hv _ => ?_, fun x h' => ?_⟩
  · obtain ⟨hv, hne⟩ := (hmem v).mp hv
    exact ⟨hv, Function.update_of_ne hne suc id⟩
  · have hne : v ≠ node := fun heq => hv (heq ▸ hb.mem)
    exact Function.update_of_ne hne suc id
  · by_cases heq : v = node
    · rw [heq, Function.update_self, ← hhides.traces_eq hb.ne.symm]
      exact BlockFlow.traces_silent honly hb.ins
    · rw [Function.update_of_ne heq]
      exact hhides.traces_eq heq
  · constructor
    · rintro ⟨v, hv, hx, hvh⟩
      obtain ⟨hv, -⟩ := (hmem v).mp hv
      have hx : x ∈ (st.graph.heap v).ins := (hins v).1 ▸ hx
      obtain ⟨-, hne, hvh | ⟨hvn, -, heq⟩⟩ := (hcatch v h').mp hvh
      · refine ⟨h', ⟨v, hv, hx, hvh⟩, ?_⟩
        rw [Function.update_of_ne hne]
        rfl
      · refine ⟨node, ⟨v, hv, hx, hvn⟩, ?_⟩
        rw [heq, Function.update_self]
    · rintro ⟨e, ⟨v, hv, hx, hve⟩, rfl⟩
      have hne : v ≠ node := by
        rintro rfl
        rw [hb.ins] at hx
        exact List.not_mem_nil hx
      refine ⟨v, (hmem v).mpr ⟨hv, hne⟩, (hins v).1.symm ▸ hx, ?_⟩
      rw [hcatch]
      by_cases heq : e = node
      · subst heq
        rw [Function.update_self]
        refine ⟨hne, hb.ne.symm, ?_⟩
        by_cases hedge : st.graph.Edge v e
        · exact Or.inl (hclean.bypass suc hb v (List.ne_nil_of_mem hx) hedge hve)
        · exact Or.inr ⟨hve, hedge, rfl⟩
      · rw [Function.update_of_ne heq]
        exact ⟨hne, heq, Or.inl hve⟩

end Bypass

section Merge

variable (h : Kept st) (hm : Merged st.graph node suc)
include h hm

omit [DecidableEq I] in
/-- The merged block has one arc to it, a normal edge from the block it goes to. -/
theorem only_pred : (∀ v, st.graph.Edge v suc ↔ v = node) ∧ ∀ v, ¬ st.graph.CatchEdge v suc := by
  obtain ⟨honly, hnone⟩ := edge_only h.tails hm.mem hm.stmt hm.sucs
  obtain ⟨p, hp⟩ := List.length_eq_one_iff.mp (mergeable hm.merge).onePred
  have hedge : st.graph.Edge node suc := (honly suc).mpr rfl
  have hsole {v : Nat} (hv : st.graph.Edge v suc ∨ st.graph.CatchEdge v suc) : v = node := by
    have hnode := h.sound.mem_allPreds.mpr (Or.inl hedge)
    have hv := h.sound.mem_allPreds.mpr hv
    rw [hp, List.mem_singleton] at hnode hv
    rw [hv, hnode]
  refine ⟨fun v => ⟨fun hv => hsole (Or.inl hv), ?_⟩, fun v hv => ?_⟩
  · rintro rfl
    exact hedge
  · exact hnone suc (hsole (Or.inr hv) ▸ hv)

theorem kept_merge : Kept (st.merge node suc) := by
  have hm' := mergeable hm.merge
  obtain ⟨hedge, hcatch, -, hblock, -⟩ := merge_edges h.sound hm'
  obtain ⟨hsound, hnodes⟩ := merge_spec h.sound hm.mem hm.merge
  obtain ⟨hpred, -⟩ := only_pred h hm
  obtain ⟨-, hnone⟩ := edge_only h.tails hm.mem hm.stmt hm.sucs
  have hmem (v : Nat) : v ∈ (st.merge node suc).graph.nodes ↔ v ∈ st.graph.nodes ∧ v ≠ suc := by
    rw [hnodes, h.sound.nodup.mem_erase_iff]
    exact And.comm
  refine ⟨hsound, ?_, ?_, ?_, ?_⟩
  · intro v hv t ht
    obtain ⟨hv, hne⟩ := (hmem v).mp hv
    rw [(hblock v).2] at ht
    have hvt := h.pointers v hv t ht
    refine (hedge v t).mpr ⟨hne, fun heq => ?_, Or.inl hvt⟩
    have hnode : v = node := (hpred v).mp (heq ▸ hvt)
    rw [hnode, h.plain node hm.mem hm.stmt] at ht
    exact List.not_mem_nil ht
  · intro v hv hstmt hno w hw
    obtain ⟨hv, hne⟩ := (hmem v).mp hv
    have hvw := ((hcatch v w).mp hw).2.2
    refine h.tails v hv ((hblock v).1.symm.trans hstmt) (fun u hu => ?_) w hvw
    refine hno u ((hedge v u).mpr ⟨hne, fun heq => ?_, Or.inl hu⟩)
    have hnode : v = node := (hpred v).mp (heq ▸ hu)
    exact hnone w (hnode ▸ hvw)
  · intro v hv hstmt
    rw [(hblock v).2]
    exact h.plain v ((hmem v).mp hv).1 ((hblock v).1.symm.trans hstmt)
  · exact fun k hk hmem' => h.keys k hk ((hmem k).mp hmem').1

/-- The merge hides the merged block. -/
theorem hides_merge (hclean : LosesNothing st.graph node) :
    Hides st.graph.flow (st.merge node suc).graph.flow suc := by
  have hm' := mergeable hm.merge
  obtain ⟨hedge, -, hins, -, -⟩ := merge_edges h.sound hm'
  obtain ⟨hpred, -⟩ := only_pred h hm
  obtain ⟨honly, -⟩ := edge_only h.tails hm.mem hm.stmt hm.sucs
  have hhead (w : Nat) : (st.graph.sucs suc).head? = some w ↔ st.graph.Edge suc w := by
    constructor
    · exact List.mem_of_head?
    · intro hw
      cases hsucs : st.graph.sucs suc with
      | nil => exact absurd (mem_sucs.mpr hw) (hsucs ▸ List.not_mem_nil)
      | cons u rest =>
        have hu : st.graph.Edge suc u := mem_sucs.mp (hsucs ▸ List.mem_cons_self)
        rw [List.head?_cons, hclean.merge suc hm u w hu hw]
  have hout {v : Nat} (hv : v ≠ node) :
      (st.merge node suc).graph.flow.out v = st.graph.flow.out v := (hins v).trans (if_neg hv)
  have hapart {v w : Nat} (hvw : st.graph.Edge v w) (hw : w ≠ suc) : v ≠ node := by
    rintro rfl
    exact hw ((honly w).mp hvw)
  constructor
  · exact fun hloop => hm'.ne ((hpred suc).mp hloop).symm
  · intro v w
    refine (hedge v w).trans ?_
    rw [hhead, ← hpred v]
    exact Iff.rfl
  · intro v _ hv
    have hnode : v = node := (hpred v).mp hv
    rw [hnode]
    exact (hins node).trans (if_pos rfl)
  · exact fun v w _ hw hvw => hout (hapart hvw hw)
  · intro v _ hstop
    apply hout
    rintro rfl
    exact hstop suc ((honly suc).mpr rfl)
  · intro _ v w hv hvw
    have hnode : v = node := (hpred v).mp hv
    exact (honly w).mp (hnode ▸ hvw)

theorem preserves_merge (hclean : LosesNothing st.graph node) :
    Preserves st.graph (st.merge node suc).graph id := by
  have hm' := mergeable hm.merge
  obtain ⟨-, hcatch, hins, -, hentry⟩ := merge_edges h.sound hm'
  obtain ⟨-, hnodes⟩ := merge_spec h.sound hm.mem hm.merge
  obtain ⟨-, hunhandled⟩ := only_pred h hm
  obtain ⟨-, hnone⟩ := edge_only h.tails hm.mem hm.stmt hm.sucs
  have hmem (v : Nat) : v ∈ (st.merge node suc).graph.nodes ↔ v ∈ st.graph.nodes ∧ v ≠ suc := by
    rw [hnodes, h.sound.nodup.mem_erase_iff]
    exact And.comm
  refine ⟨fun v hv => ⟨((hmem v).mp hv).1, rfl⟩, fun _ _ => rfl, ?_, fun v _ hv => ?_,
    fun x h' => ?_⟩
  · rw [hentry, Option.map_id_apply]
  · exact (hides_merge h hm hclean).traces_eq ((hmem v).mp hv).2
  · constructor
    · rintro ⟨v, hv, hx, hvh⟩
      have hvh := ((hcatch v h').mp hvh).2.2
      have hne : v ≠ node := fun heq => hnone h' (heq ▸ hvh)
      rw [hins, if_neg hne] at hx
      exact ⟨h', ⟨v, ((hmem v).mp hv).1, hx, hvh⟩, rfl⟩
    · rintro ⟨e, ⟨v, hv, hx, hve⟩, heq⟩
      have hne : v ≠ node := fun heq => hnone e (heq ▸ hve)
      have hnesuc : v ≠ suc := fun heq => hm'.noHandler e (heq ▸ hve)
      have hne' : e ≠ suc := fun heq => hunhandled v (heq ▸ hve)
      rw [heq]
      refine ⟨v, (hmem v).mpr ⟨hv, hnesuc⟩, ?_, (hcatch v e).mpr ⟨hnesuc, hne', hve⟩⟩
      rw [hins, if_neg hne]
      exact hx

end Merge

section Run

/-- Whether every visit of the nodes loses nothing. -/
def VisitsLoseNothing : Simplifying I → List Nat → Prop
  | _, [] => True
  | st, node :: l => LosesNothing st.graph node ∧ VisitsLoseNothing (simplifyNode st node) l

/-- Whether every visit of the rounds loses nothing. -/
def RoundsLoseNothing : (fuel : Nat) → BlockGraph I → Prop
  | 0, _ => True
  | fuel + 1, g => VisitsLoseNothing { graph := g } g.nodes ∧
    ((round g).redo = true → RoundsLoseNothing fuel (round g).graph)

/-- A visit keeps what the visits keep, and the behaviour if it loses nothing. -/
theorem visit_step (h : Kept st) : Kept (simplifyNode st node) ∧
    (LosesNothing st.graph node →
      ∃ rename, Preserves st.graph (simplifyNode st node).graph rename) := by
  have hsame : Kept st ∧ (LosesNothing st.graph node →
      ∃ rename, Preserves st.graph st.graph rename) := ⟨h, fun _ => ⟨id, .refl _⟩⟩
  unfold simplifyNode
  dsimp only
  split
  · rename_i hstmt
    split
    · rename_i suc hsucs
      split
      · rename_i hins
        split
        · exact hsame
        · rename_i hswitch
          split
          · exact hsame
          · rename_i hne
            have hb : Bypassed st.graph node suc :=
              ⟨hstmt.1, hstmt.2, hsucs, hins, Bool.eq_false_iff.mpr hswitch, hne⟩
            exact ⟨kept_bypass h hb, fun hclean => ⟨_, preserves_bypass h hb hclean⟩⟩
      · rename_i hins
        split
        · rename_i hmerge
          have hm : Merged st.graph node suc := ⟨hstmt.1, hstmt.2, hsucs, hins, hmerge⟩
          exact ⟨kept_merge h hm, fun hclean => ⟨_, preserves_merge h hm hclean⟩⟩
        · exact hsame
    · exact hsame
  · exact ⟨⟨h.sound, h.pointers, h.tails, h.plain, h.keys⟩, hsame.2⟩

theorem visits_run (h : Kept st) : Kept (l.foldl simplifyNode st) ∧
    (VisitsLoseNothing st l →
      ∃ rename, Preserves st.graph (l.foldl simplifyNode st).graph rename) := by
  induction l generalizing st with
  | nil => exact ⟨h, fun _ => ⟨id, .refl _⟩⟩
  | cons node l ih =>
    obtain ⟨hkept, hstep⟩ := @visit_step I _ st node h
    obtain ⟨hkept', hrest⟩ := ih hkept
    refine ⟨hkept', fun ⟨hclean, hcleanRest⟩ => ?_⟩
    obtain ⟨r, hr⟩ := hstep hclean
    obtain ⟨r', hr'⟩ := hrest hcleanRest
    exact ⟨r' ∘ r, hr.trans hr'⟩

omit [DecidableEq I] in
/-- No pointer of the graph is a key of the node map, so the updates at the end of
a round move none. -/
theorem update_step (h : Kept st) {n : Nat} :
    Kept { st with graph := st.graph.updateAttributeWith st.nodeMap n } ∧
      Preserves st.graph (st.graph.updateAttributeWith st.nodeMap n) id := by
  have hcode (v : Nat) (hv : v ∈ st.graph.nodes) :
      ((st.graph.updateAttributeWith st.nodeMap n).heap v).ins = (st.graph.heap v).ins ∧
      ((st.graph.updateAttributeWith st.nodeMap n).heap v).type = (st.graph.heap v).type ∧
      ((st.graph.updateAttributeWith st.nodeMap n).heap v).pointers =
        (st.graph.heap v).pointers := by
    unfold BlockGraph.updateAttributeWith
    rw [heap_modify]
    split
    · rename_i heq
      subst heq
      rw [Block.pointers_updateAttributeWith]
      refine ⟨Block.ins_updateAttributeWith.1, Block.ins_updateAttributeWith.2, ?_⟩
      refine (List.map_congr_left fun t ht => ?_).trans (List.map_id _)
      exact NodeMap.get_of_not_mem fun hkey => h.keys t hkey (h.live v hv t ht)
    · exact ⟨rfl, rfl, rfl⟩
  have hins (v : Nat) : ((st.graph.updateAttributeWith st.nodeMap n).heap v).ins =
      (st.graph.heap v).ins := by
    unfold BlockGraph.updateAttributeWith
    rw [heap_modify]
    split
    · rename_i heq
      rw [heq]
      exact Block.ins_updateAttributeWith.1
    · rfl
  have hflow : (st.graph.updateAttributeWith st.nodeMap n).flow = st.graph.flow := by
    unfold flow
    congr 1
    funext v
    exact hins v
  constructor
  · refine ⟨h.sound.modify, ?_, ?_, ?_, h.keys⟩
    · intro v hv t ht
      exact h.pointers v hv t ((hcode v hv).2.2 ▸ ht)
    · intro v hv hstmt
      exact h.tails v hv ((hcode v hv).2.1.symm.trans hstmt)
    · intro v hv hstmt
      exact (hcode v hv).2.2.trans (h.plain v hv ((hcode v hv).2.1.symm.trans hstmt))
  · refine ⟨fun v hv => ⟨hv, rfl⟩, fun _ _ => rfl, Option.map_id_apply.symm, fun v _ _ => ?_,
      fun x h' => ?_⟩
    · rw [hflow]
      rfl
    · constructor
      · rintro ⟨v, hv, hx, hvh⟩
        exact ⟨h', ⟨v, hv, hins v ▸ hx, hvh⟩, rfl⟩
      · rintro ⟨e, ⟨v, hv, hx, hve⟩, heq⟩
        exact ⟨v, hv, (hins v).symm ▸ hx, heq ▸ hve⟩

omit [DecidableEq I] in
theorem updates_run (h : Kept st) :
    Kept { st with graph := l.foldl (fun g n => g.updateAttributeWith st.nodeMap n) st.graph } ∧
      ∃ rename, Preserves st.graph
        (l.foldl (fun g n => g.updateAttributeWith st.nodeMap n) st.graph) rename := by
  induction l generalizing st with
  | nil => exact ⟨h, id, .refl _⟩
  | cons n l ih =>
    obtain ⟨hkept, hstep⟩ := @update_step I st h n
    obtain ⟨hkept', r, hr⟩ := ih hkept
    exact ⟨hkept', r ∘ id, hstep.trans hr⟩

theorem round_run (h : Kept ({ graph := g } : Simplifying I)) :
    Kept ({ graph := (round g).graph } : Simplifying I) ∧
      (VisitsLoseNothing { graph := g } g.nodes →
        ∃ rename, Preserves g (round g).graph rename) := by
  obtain ⟨hkept, hvisits⟩ := @visits_run I _ { graph := g } g.nodes h
  obtain ⟨hkept', r', hr'⟩ := @updates_run I _ (g.nodes.foldl simplifyNode { graph := g }).toUpdate
    hkept
  refine ⟨⟨hkept'.sound, hkept'.pointers, hkept'.tails, hkept'.plain,
    fun k hk => absurd hk (AList.notMem_empty k)⟩, fun hclean => ?_⟩
  obtain ⟨r, hr⟩ := hvisits hclean
  exact ⟨r' ∘ r, hr.trans hr'⟩

theorem rounds_run (h : Kept ({ graph := g } : Simplifying I)) (hfuel : g.nodes.length < fuel) :
    ∃ g', rounds fuel g = some g' ∧ Kept ({ graph := g' } : Simplifying I) ∧
      (RoundsLoseNothing fuel g → ∃ rename, Preserves g g' rename) := by
  induction fuel generalizing g with
  | zero => omega
  | succ fuel ih =>
    obtain ⟨hkept, hclean⟩ := round_run h
    obtain ⟨-, hredo⟩ := round_spec h.sound
    unfold rounds
    dsimp only
    split
    · rename_i hr
      have hlt : (round g).graph.nodes.length < g.nodes.length := hredo hr
      obtain ⟨g', hrounds, hkept', hrest⟩ := ih hkept (by omega)
      refine ⟨g', hrounds, hkept', fun hlose => ?_⟩
      obtain ⟨r, hr1⟩ := hclean hlose.1
      obtain ⟨r', hr2⟩ := hrest (hlose.2 hr)
      exact ⟨r' ∘ r, hr1.trans hr2⟩
    · exact ⟨_, rfl, hkept, fun hlose => hclean hlose.1⟩

/-- A test that is enough for a visit to lose nothing. -/
def safeVisit (g : BlockGraph I) (node : Nat) : Bool :=
  (g.nodes.all fun p => !(decide (g.Edge p node) && decide (g.CatchEdge p node))) &&
    (g.allSucs node).all fun suc => decide ((g.sucs suc).length ≤ 1)

/-- The tests of the visits of one round. -/
def safeVisits : Simplifying I → List Nat → Bool
  | _, [] => true
  | st, node :: l => safeVisit st.graph node && safeVisits (simplifyNode st node) l

/-- The tests of all rounds. -/
def safeRounds : (fuel : Nat) → BlockGraph I → Bool
  | 0, _ => true
  | fuel + 1, g => safeVisits { graph := g } g.nodes &&
    (!(round g).redo || safeRounds fuel (round g).graph)

omit [DecidableEq I] in
theorem losesNothing_of_safe (hg : g.Sound) (h : safeVisit g node = true) :
    LosesNothing g node := by
  unfold safeVisit at h
  simp only [Bool.and_eq_true, List.all_eq_true, decide_eq_true_eq, Bool.not_eq_true',
    Bool.and_eq_false_iff, decide_eq_false_iff_not] at h
  obtain ⟨hpreds, hsucs⟩ := h
  constructor
  · intro suc _ p _ hedge hcatch
    rcases hpreds p (hg.edgeMem p node hedge).1 with hno | hno
    · exact absurd hedge hno
    · exact absurd hcatch hno
  · intro suc hm v w hv hw
    have hlen := hsucs suc (hm.sucs ▸ List.mem_singleton_self suc)
    obtain ⟨u, hu⟩ : ∃ u, g.sucs suc = [u] := by
      apply List.length_eq_one_iff.mp
      have hpos := List.length_pos_of_mem (mem_sucs.mpr hv)
      omega
    rw [← mem_sucs, hu, List.mem_singleton] at hv hw
    rw [hv, hw]

theorem visitsLoseNothing_of_safe (h : Kept st) (hsafe : safeVisits st l = true) :
    VisitsLoseNothing st l := by
  induction l generalizing st with
  | nil => trivial
  | cons node l ih =>
    obtain ⟨hnode, hrest⟩ := (Bool.and_eq_true_iff).mp hsafe
    exact ⟨losesNothing_of_safe h.sound hnode, ih (visit_step h).1 hrest⟩

theorem roundsLoseNothing_of_safe (h : Kept ({ graph := g } : Simplifying I))
    (hsafe : safeRounds fuel g = true) : RoundsLoseNothing fuel g := by
  induction fuel generalizing g with
  | zero => trivial
  | succ fuel ih =>
    obtain ⟨hvisits, hrest⟩ := (Bool.and_eq_true_iff).mp hsafe
    refine ⟨visitsLoseNothing_of_safe h hvisits, fun hredo => ?_⟩
    rw [hredo] at hrest
    exact ih (round_run h).1 hrest

end Run

end Simplifying

open Simplifying

/-- The flag of a statement block is set on no other block. -/
def BlockGraph.FlagsAgree (g : BlockGraph I) : Prop :=
  ∀ v ∈ g.nodes, (g.heap v).type = .stmt → (g.heap v).cls = .statement

theorem kept_start {g : BlockGraph I} (hg : g.Sound) (hflags : g.FlagsAgree)
    (hpointers : g.PointersFollow) (htails : g.TailsUnhandled) :
    Simplifying.Kept ({ graph := g } : Simplifying I) := by
  refine ⟨hg, hpointers, htails, fun v hv hstmt => ?_, fun k hk => absurd hk (AList.notMem_empty k)⟩
  unfold Block.pointers
  rw [hflags v hv hstmt]

/-- `Simplify` ends, the pointers of the blocks that stay name blocks that stay,
and the instruction sequences and handlers are kept if no visit loses any. -/
theorem simplify_preserves [DecidableEq I] {g : BlockGraph I} (hg : g.Sound)
    (hflags : g.FlagsAgree) (hpointers : g.PointersFollow) (htails : g.TailsUnhandled) :
    ∃ g', simplify g = some g' ∧
      (∀ v ∈ g'.nodes, ∀ t ∈ (g'.heap v).pointers, t ∈ g'.nodes) ∧
      (∀ e, g'.entry = some e → e ∈ g'.nodes) ∧
      (∀ v h, g'.CatchEdge v h → h ∈ g'.nodes) ∧
      (RoundsLoseNothing (g.nodes.length + 1) g → ∃ rename, Preserves g g' rename) := by
  obtain ⟨g', hrounds, hkept', hlose⟩ :=
    rounds_run (kept_start hg hflags hpointers htails) (Nat.lt_succ_self g.nodes.length)
  exact ⟨g', hrounds, hkept'.live, hkept'.sound.entryMem,
    fun v h hvh => (hkept'.sound.catchMem v h hvh).2, hlose⟩

/-- A try block with its handler, an empty block after it and a return. -/
def skippedBlock : BlockGraph Nat :=
  let stmt : Block Nat := { cls := .statement, type := .stmt, ins := [1] }
  let empty : Block Nat := { cls := .statement, type := .stmt }
  let ret : Block Nat := { cls := .ret, type := .ret, ins := [2] }
  let g := (((({} : BlockGraph Nat).makeNode stmt).makeNode empty).makeNode ret).makeNode ret
  let g := (g.addEdge 0 1).addEdge 1 2
  { g.addCatchEdge 0 3 with entry := some 0 }

theorem skippedBlock_sound : skippedBlock.Sound := by
  apply Sound.setEntry
  · have hempty : ({} : BlockGraph Nat).Sound := sound_empty
    apply Sound.addCatchEdge _ (by decide) (by decide)
    apply Sound.addEdge _ (by decide) (by decide)
    apply Sound.addEdge _ (by decide) (by decide)
    exact hempty.makeNode.makeNode.makeNode.makeNode
  · decide

/-- A try block that falls through into its own handler, which is empty. -/
def emptyHandler : BlockGraph Nat :=
  let stmt : Block Nat := { cls := .statement, type := .stmt, ins := [1] }
  let empty : Block Nat := { cls := .statement, type := .stmt }
  let ret : Block Nat := { cls := .ret, type := .ret, ins := [2] }
  let g := ((({} : BlockGraph Nat).makeNode stmt).makeNode empty).makeNode ret
  let g := (g.addEdge 0 1).addEdge 1 2
  { g.addCatchEdge 0 1 with entry := some 0 }

theorem emptyHandler_sound : emptyHandler.Sound := by
  apply Sound.setEntry
  · have hempty : ({} : BlockGraph Nat).Sound := sound_empty
    apply Sound.addCatchEdge _ (by decide) (by decide)
    apply Sound.addEdge _ (by decide) (by decide)
    apply Sound.addEdge _ (by decide) (by decide)
    exact hempty.makeNode.makeNode.makeNode
  · decide

/-- A graph without pointers whose statement blocks go to 1 or to 2. -/
theorem wired_two {g : BlockGraph Nat}
    (hstmt : ∀ v ∈ g.nodes, (g.heap v).type = .stmt →
      (g.heap v).cls = .statement ∧ (g.Edge v 1 ∨ g.Edge v 2))
    (hnil : ∀ v ∈ g.nodes, (g.heap v).pointers = []) :
    g.FlagsAgree ∧ g.PointersFollow ∧ g.TailsUnhandled := by
  refine ⟨fun v hv ht => (hstmt v hv ht).1, fun v hv t ht => ?_, fun v hv ht hno => ?_⟩
  · rw [hnil v hv] at ht
    exact absurd ht List.not_mem_nil
  · rcases (hstmt v hv ht).2 with h | h
    · exact absurd h (hno 1)
    · exact absurd h (hno 2)

set_option maxRecDepth 20000 in
theorem simplify_preserves_skippedBlock :
    ∃ g', simplify skippedBlock = some g' ∧
      (∀ v ∈ g'.nodes, ∀ t ∈ (g'.heap v).pointers, t ∈ g'.nodes) ∧
      (∀ e, g'.entry = some e → e ∈ g'.nodes) ∧
      (∀ v h, g'.CatchEdge v h → h ∈ g'.nodes) ∧
      ∃ rename, Preserves skippedBlock g' rename := by
  obtain ⟨hflags, hpointers, htails⟩ := @wired_two skippedBlock (by decide) (by decide)
  have hlose : RoundsLoseNothing (skippedBlock.nodes.length + 1) skippedBlock :=
    roundsLoseNothing_of_safe (kept_start skippedBlock_sound hflags hpointers htails)
      (by decide)
  obtain ⟨g', hsome, hptr, hentry, hcatch, hpreserves⟩ :=
    simplify_preserves skippedBlock_sound hflags hpointers htails
  exact ⟨g', hsome, hptr, hentry, hcatch, hpreserves hlose⟩

set_option maxRecDepth 20000 in
/-- The handler of the try block is lost, under any renaming. -/
theorem emptyHandler_loses_handler : ¬∀ g : BlockGraph Nat, g.Sound → g.FlagsAgree →
    g.PointersFollow → g.TailsUnhandled →
      ∃ g' rename, simplify g = some g' ∧ Preserves g g' rename := by
  intro hall
  obtain ⟨hflags, hpointers, htails⟩ := @wired_two emptyHandler (by decide) (by decide)
  obtain ⟨g', rename, hsome, hpreserves⟩ :=
    hall emptyHandler emptyHandler_sound hflags hpointers htails
  have hnone : (simplify emptyHandler).map (fun g => g.nodes.flatMap g.catchSucs) = some [] := by
    decide
  rw [hsome] at hnone
  have hhandled : emptyHandler.Handles 1 1 := ⟨0, by decide, by decide, by decide⟩
  obtain ⟨v, hv, -, hcatch⟩ := (hpreserves.handlers 1 (rename 1)).mpr ⟨1, hhandled, rfl⟩
  have hmem : rename 1 ∈ g'.nodes.flatMap g'.catchSucs := List.mem_flatMap.mpr ⟨v, hv, hcatch⟩
  have hnil : g'.nodes.flatMap g'.catchSucs = [] := Option.some.inj hnone
  rw [hnil] at hmem
  exact List.not_mem_nil hmem

end Dexllm.Dad
