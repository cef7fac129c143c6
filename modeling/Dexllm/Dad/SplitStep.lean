import Dexllm.Dad.SplitIfNodes

/-!
The split of one node of a sound graph, as a whole.
-/

namespace Dexllm.Dad

open Adjacency BlockGraph

namespace Splitting

variable {I : Type} [DecidableEq I] {g : BlockGraph I} {m : NodeMap} {node a b v w x : Nat}

/-- The place of a node after the split of `node`: the new node `a` for it. -/
def moved (node a x : Nat) : Nat := if x = node then a else x

theorem frame_allocate : (allocate g node).nodes = g.nodes ++ [g.fresh] ++ [g.fresh + 1] ∧
    (allocate g node).entry = g.entry ∧ (allocate g node).fresh = g.fresh + 2 ∧
    (∀ v w, (allocate g node).Edge v w ↔ g.Edge v w) ∧
    ∀ v w, (allocate g node).CatchEdge v w ↔ g.CatchEdge v w :=
  ⟨rfl, rfl, rfl, fun _ _ => Iff.rfl, fun _ _ => Iff.rfl⟩

theorem sound_allocate (h : g.Sound) : (allocate g node).Sound := by
  unfold allocate
  exact h.makeNode.makeNode.modify.modify.modify.modify.modify

theorem heap_allocate_old (hpre : x ≠ g.fresh) (hcond : x ≠ g.fresh + 1) :
    (allocate g node).heap x = g.heap x := by
  have hmake (g : BlockGraph I) (block : Block I) (h : x ≠ g.fresh) :
      (g.makeNode block).heap x = g.heap x := Function.update_of_ne h _ _
  unfold allocate
  simp only [heap_modify, if_neg hpre, if_neg hcond]
  rw [hmake _ _ hcond, hmake _ _ hpre]

theorem keeps_declare (vars : List I) (b : Block I) :
    (vars.foldl Block.addVariableDeclaration b).ins = b.ins ∧
      (vars.foldl Block.addVariableDeclaration b).cls = b.cls := by
  induction vars generalizing b with
  | nil => exact ⟨rfl, rfl⟩
  | cons x vars ih => exact ih (b.addVariableDeclaration x)

theorem heap_allocate_pre : ((allocate g node).heap g.fresh).cls = .statement ∧
    ((allocate g node).heap g.fresh).type = .stmt ∧
    ((allocate g node).heap g.fresh).ins = (g.heap node).ins.dropLast := by
  have hne : g.fresh ≠ g.fresh + 1 := by omega
  unfold allocate
  simp only [heap_modify, if_neg hne, if_true]
  refine ⟨?_, trivial, ?_⟩
  · rw [(keeps_declare _ _).2]
    simp [Block.copyFrom, BlockGraph.makeNode, BlockGraph.addNode]
  · rw [(keeps_declare _ _).1]
    simp [Block.copyFrom, BlockGraph.makeNode, BlockGraph.addNode]

theorem heap_allocate_cond : ((allocate g node).heap (g.fresh + 1)).cls = .cond ∧
    ((allocate g node).heap (g.fresh + 1)).type = (g.heap node).type ∧
    ((allocate g node).heap (g.fresh + 1)).ins = (g.heap node).ins.getLast?.toList ∧
    ∀ side, ((allocate g node).heap (g.fresh + 1)).branch side = (g.heap node).branch side := by
  have hne : g.fresh + 1 ≠ g.fresh := by omega
  unfold allocate
  simp only [heap_modify, if_neg hne, if_true]
  refine ⟨?_, rfl, ?_, fun side => ?_⟩
  · simp [Block.copyFrom, BlockGraph.makeNode, BlockGraph.addNode]
  · simp [Block.copyFrom, BlockGraph.makeNode, BlockGraph.addNode]
  · cases side
    · rfl
    · rfl

section Wire

variable (hg : g.Sound) (hnode : node ∈ g.nodes)
  (hlive : ∀ p, p ∈ g.nodes ∨ p = g.fresh ∨ p = g.fresh + 1 → m.get p = moved node g.fresh p)

/-- The graph between the two loops over the successors and the last steps. -/
abbrev wired (m : NodeMap) (g : BlockGraph I) (node : Nat) : BlockGraph I :=
  wire m node g.fresh (g.fresh + 1) (allocate g node)

omit [DecidableEq I] in
include hg in
theorem ne_fresh (hx : x ∈ g.nodes) : x ≠ g.fresh ∧ x ≠ g.fresh + 1 := by
  have := hg.freshNodes x hx
  omega

include hg in
theorem mem_allPreds_allocate :
    v ∈ (allocate g node).allPreds node ↔ g.Edge v node ∨ g.CatchEdge v node :=
  (sound_allocate hg).mem_allPreds

omit [DecidableEq I] in
include hlive in
theorem source_of_edge (hx : v ∈ g.nodes) :
    source m node (g.fresh + 1) v = moved node (g.fresh + 1) v := by
  unfold source moved
  split
  · rfl
  · rename_i hne
    rw [hlive v (Or.inl hx)]
    exact if_neg hne

include hg hnode hlive in
/-- The edges, catch edges and blocks after the three loops. -/
theorem wired_spec :
    (wired m g node).nodes = g.nodes ++ [g.fresh] ++ [g.fresh + 1] ∧
    (wired m g node).entry = g.entry ∧ (wired m g node).fresh = g.fresh + 2 ∧
    (∀ v w, (wired m g node).Edge v w ↔ g.Edge v w ∨
      (∃ p, g.Edge p node ∧ v = moved node (g.fresh + 1) p ∧ w = g.fresh) ∨
      ∃ s, g.Edge node s ∧ v = g.fresh + 1 ∧ w = moved node g.fresh s) ∧
    (∀ v w, (wired m g node).CatchEdge v w ↔ g.CatchEdge v w ∨
      (∃ p, g.CatchEdge p node ∧ ¬ g.Edge p node ∧ v = moved node g.fresh p ∧ w = g.fresh) ∨
      ∃ s, g.CatchEdge node s ∧ v = g.fresh ∧ w = moved node g.fresh s) ∧
    (∀ x, ((wired m g node).heap x).core = ((allocate g node).heap x).core) ∧
    ∀ x side, ((wired m g node).heap x).branch side =
      (((((allocate g node).allPreds node).foldl
        (redirectPred m node g.fresh (g.fresh + 1)) (allocate g node)).heap x).branch side) := by
  obtain ⟨hpre, hcond⟩ := ne_fresh hg hnode
  obtain ⟨hnodes, hentry, hfresh, hedge, hcatch⟩ := @frame_allocate I _ g node
  obtain ⟨hnodes1, hentry1, hfresh1, hcore1, hedge1, hcatch1⟩ :=
    @redirectAll_edges I (allocate g node) m node g.fresh (g.fresh + 1)
      ((allocate g node).allPreds node) hpre.symm
  have hedge1' (v w : Nat) : (((allocate g node).allPreds node).foldl
      (redirectPred m node g.fresh (g.fresh + 1)) (allocate g node)).Edge v w ↔ g.Edge v w ∨
        ∃ p, g.Edge p node ∧ v = moved node (g.fresh + 1) p ∧ w = g.fresh := by
    rw [hedge1, hedge]
    apply or_congr_right
    constructor
    · rintro ⟨p, -, hp, rfl, rfl⟩
      exact ⟨p, (hedge p node).mp hp, source_of_edge hlive (hg.edgeMem p node hp).1, rfl⟩
    · rintro ⟨p, hp, rfl, rfl⟩
      exact ⟨p, (mem_allPreds_allocate hg).mpr (Or.inl hp), (hedge p node).mpr hp,
        (source_of_edge hlive (hg.edgeMem p node hp).1).symm, rfl⟩
  have hcatch1' (v w : Nat) : (((allocate g node).allPreds node).foldl
      (redirectPred m node g.fresh (g.fresh + 1)) (allocate g node)).CatchEdge v w ↔
        g.CatchEdge v w ∨
        ∃ p, g.CatchEdge p node ∧ ¬ g.Edge p node ∧ v = moved node g.fresh p ∧ w = g.fresh := by
    rw [hcatch1, hcatch]
    apply or_congr_right
    constructor
    · rintro ⟨p, hp, hnot, rfl, rfl⟩
      rcases (mem_allPreds_allocate hg).mp hp with hp | hp
      · exact absurd hp hnot
      · exact ⟨p, hp, hnot, hlive p (Or.inl (hg.catchMem p node hp).1), rfl⟩
    · rintro ⟨p, hp, hnot, rfl, rfl⟩
      exact ⟨p, (mem_allPreds_allocate hg).mpr (Or.inr hp), hnot,
        (hlive p (Or.inl (hg.catchMem p node hp).1)).symm, rfl⟩
  let g1 := ((allocate g node).allPreds node).foldl
    (redirectPred m node g.fresh (g.fresh + 1)) (allocate g node)
  let g2 := (g1.sucs node).foldl (fun h suc => h.addEdge (g.fresh + 1) (m.get suc)) g1
  have hmoved (c p : Nat) (hc : c ≠ node) : node ≠ moved node c p := by
    unfold moved
    split
    · exact hc.symm
    · rename_i hne
      exact fun h => hne h.symm
  have hsucs (s : Nat) : g1.Edge node s ↔ g.Edge node s := by
    apply (hedge1' node s).trans
    constructor
    · rintro (h | ⟨p, -, heq, -⟩)
      · exact h
      · exact absurd heq (hmoved _ p hcond.symm)
    · exact Or.inl
  obtain ⟨hnodes2, hentry2, hfresh2, hheap2, hedge2, hcatch2⟩ :=
    @fold_addEdge I g1 (g.fresh + 1) (g1.sucs node) m.get
  have hcatchSucs (s : Nat) : g2.CatchEdge node s ↔ g.CatchEdge node s := by
    apply ((hcatch2 node s).trans (hcatch1' node s)).trans
    constructor
    · rintro (h | ⟨p, -, -, heq, -⟩)
      · exact h
      · exact absurd heq (hmoved _ p hpre.symm)
    · exact Or.inl
  obtain ⟨hnodes3, hentry3, hfresh3, hedge3, hcatch3, hheap3⟩ :=
    @fold_addCatchEdge I g2 g.fresh (g2.catchSucs node) m.get
  refine ⟨hnodes3.trans (hnodes2.trans (hnodes1.trans hnodes)),
    hentry3.trans (hentry2.trans (hentry1.trans hentry)),
    hfresh3.trans (hfresh2.trans (hfresh1.trans hfresh)), fun v w => ?_, fun v w => ?_,
    fun x => ?_, fun x side => ?_⟩
  · apply ((hedge3 v w).trans ((hedge2 v w).trans (or_congr_left (hedge1' v w)))).trans
    rw [or_assoc]
    apply or_congr_right
    apply or_congr_right
    constructor
    · rintro ⟨s, hs, rfl, rfl⟩
      have hs := (hsucs s).mp hs
      exact ⟨s, hs, rfl, hlive s (Or.inl (hg.edgeMem node s hs).2)⟩
    · rintro ⟨s, hs, rfl, rfl⟩
      exact ⟨s, (hsucs s).mpr hs, rfl, (hlive s (Or.inl (hg.edgeMem node s hs).2)).symm⟩
  · apply ((hcatch3 v w).trans (or_congr_left ((hcatch2 v w).trans (hcatch1' v w)))).trans
    rw [or_assoc]
    apply or_congr_right
    apply or_congr_right
    constructor
    · rintro ⟨s, hs, rfl, rfl⟩
      have hs := (hcatchSucs s).mp hs
      exact ⟨s, hs, rfl, hlive s (Or.inl (hg.catchMem node s hs).2)⟩
    · rintro ⟨s, hs, rfl, rfl⟩
      exact ⟨s, (hcatchSucs s).mpr hs, rfl, (hlive s (Or.inl (hg.catchMem node s hs).2)).symm⟩
  · exact ((hheap3 x).1.trans (congrArg (fun h => (h x).core) hheap2)).trans (hcore1 x)
  · exact ((hheap3 x).2 side).trans (congrArg (fun h => (h x).branch side) hheap2)

omit [DecidableEq I] in
theorem sound_redirectBranches {h : BlockGraph I} {pre p : Nat} (hs : h.Sound) :
    (redirectBranches node pre p x h).Sound := by
  unfold redirectBranches
  dsimp only
  split
  · exact hs.modify
  · exact hs

omit [DecidableEq I] in
theorem sound_redirectPred {h : BlockGraph I} {pre cond p : Nat} (hs : h.Sound)
    (hp : m.get p ∈ h.nodes) (hpre : pre ∈ h.nodes) (hcond : cond ∈ h.nodes) :
    (redirectPred m node pre cond h p).Sound := by
  have hsource : (if p = node then cond else m.get p) ∈ h.nodes := by
    split
    · exact hcond
    · exact hp
  unfold redirectPred
  dsimp only
  split
  · exact hs.addCatchEdge hp hpre
  · have hnodes := (@frame_redirectBranches I h node pre p
      (if p = node then cond else m.get p)).1
    apply (sound_redirectBranches hs).addEdge
    · exact hnodes ▸ hsource
    · exact hnodes ▸ hpre

omit [DecidableEq I] in
include hlive in
theorem get_mem (hv : v ∈ g.nodes ++ [g.fresh] ++ [g.fresh + 1]) :
    m.get v ∈ g.nodes ++ [g.fresh] ++ [g.fresh + 1] := by
  have hcase : v ∈ g.nodes ∨ v = g.fresh ∨ v = g.fresh + 1 := by
    simpa [or_assoc] using hv
  rw [hlive v hcase]
  unfold moved
  split
  · simp
  · exact hv

include hg hlive in
theorem sound_wired : (wired m g node).Sound := by
  have hpre : g.fresh ∈ g.nodes ++ [g.fresh] ++ [g.fresh + 1] := by simp
  have hcond : g.fresh + 1 ∈ g.nodes ++ [g.fresh] ++ [g.fresh + 1] := by simp
  obtain ⟨hsound1, hnodes1⟩ := @Sound.foldl I (redirectPred m node g.fresh (g.fresh + 1))
    (g.nodes ++ [g.fresh] ++ [g.fresh + 1]) ((allocate g node).allPreds node)
    (by
      intro h p hp hs hn
      have hmem : p ∈ (allocate g node).nodes := by
        rcases (sound_allocate hg).mem_allPreds.mp hp with hedge | hedge
        · exact ((sound_allocate hg).edgeMem p node hedge).1
        · exact ((sound_allocate hg).catchMem p node hedge).1
      exact ⟨sound_redirectPred hs (hn ▸ get_mem hlive hmem) (hn ▸ hpre) (hn ▸ hcond),
        redirect_frame.1.trans hn⟩)
    (allocate g node) (sound_allocate hg) rfl
  obtain ⟨hsound2, hnodes2⟩ := @Sound.foldl I (fun h suc => h.addEdge (g.fresh + 1) (m.get suc))
    (g.nodes ++ [g.fresh] ++ [g.fresh + 1]) _
    (by
      intro h s hmem hs hn
      have hs' := (hsound1.edgeMem node s hmem).2
      rw [hnodes1] at hs'
      exact ⟨hs.addEdge (hn ▸ hcond) (hn ▸ get_mem hlive hs'), hn⟩) _ hsound1 hnodes1
  obtain ⟨hsound3, -⟩ := @Sound.foldl I (fun h suc => h.addCatchEdge g.fresh (m.get suc))
    (g.nodes ++ [g.fresh] ++ [g.fresh + 1]) _
    (by
      intro h s hmem hs hn
      have hs' := (hsound2.catchMem node s hmem).2
      rw [hnodes2] at hs'
      exact ⟨hs.addCatchEdge (hn ▸ hpre) (hn ▸ get_mem hlive hs'), hn⟩) _ hsound2 hnodes2
  exact hsound3

/-- The graph after the split of `node`. -/
abbrev split (m : NodeMap) (g : BlockGraph I) (node : Nat) : BlockGraph I :=
  finish m node g.fresh (g.fresh + 1) (wired m g node)

theorem moved_ne (ha : a ≠ node) : moved node a x ≠ node := by
  unfold moved
  split
  · exact ha
  · rename_i h
    exact h

theorem moved_of_ne (h : x ≠ node) : moved node a x = x := if_neg h

theorem moved_self : moved node a node = a := if_pos rfl

include hg hnode hlive in
/-- The graph the node is removed from: sound, with the entry moved. -/
theorem sound_unsplit : ∃ h : BlockGraph I, h.Sound ∧ split m g node = h.removeNode node ∧
    h.nodes = (wired m g node).nodes ∧ h.entry = g.entry.map (moved node g.fresh) ∧
    h.fresh = g.fresh + 2 ∧
    (∀ v w, h.Edge v w ↔ (wired m g node).Edge v w ∨ (v = g.fresh ∧ w = g.fresh + 1)) ∧
    (∀ v w, h.CatchEdge v w ↔ (wired m g node).CatchEdge v w) := by
  obtain ⟨hnodes, hentry, hfresh, -⟩ := wired_spec hg hnode hlive
  have hs := sound_wired hg hlive
  have hpre : g.fresh ∈ (wired m g node).nodes := by simp [hnodes]
  have hcond : g.fresh + 1 ∈ (wired m g node).nodes := by simp [hnodes]
  have hreplaced := @frame_replaceEntry I (wired m g node) node g.fresh
  have hentry' : ((wired m g node).replaceEntry node g.fresh).entry =
      g.entry.map (moved node g.fresh) := by
    rw [entry_replaceEntry, hentry]
    rfl
  refine ⟨_, ?_, rfl, hreplaced.1, hentry', hreplaced.2.1.trans hfresh, fun v w => ?_,
    fun v w => ?_⟩
  · have hsound : ((wired m g node).replaceEntry node g.fresh).Sound := hs.replaceEntry hpre
    apply Sound.modify
    apply Sound.modify
    exact hsound.addEdge (hreplaced.1 ▸ hpre) (hreplaced.1 ▸ hcond)
  · apply edge_addEdge.trans
    rw [edge_replaceEntry]
  · exact catchEdge_replaceEntry

include hg hnode hlive in
theorem split_frame :
    (split m g node).Sound ∧
    (∀ v, v ∈ (split m g node).nodes ↔
      (v ∈ g.nodes ∧ v ≠ node) ∨ v = g.fresh ∨ v = g.fresh + 1) ∧
    (split m g node).entry = g.entry.map (moved node g.fresh) ∧
    (split m g node).fresh = g.fresh + 2 := by
  obtain ⟨h, hs, heq, hnodes, hentry, hfresh, -⟩ := sound_unsplit hg hnode hlive
  obtain ⟨hpre, hcond⟩ := ne_fresh hg hnode
  rw [heq]
  have hgone : h.entry ≠ some node := by
    rw [hentry]
    cases g.entry with
    | none => simp
    | some e => simpa using moved_ne hpre.symm
  refine ⟨hs.removeNode hgone, fun v => ?_, hentry, hfresh⟩
  rw [hs.mem_removeNode, hnodes, (wired_spec hg hnode hlive).1]
  simp only [List.mem_append, List.mem_singleton]
  constructor
  · rintro ⟨(h | h) | h, hne⟩
    · exact Or.inl ⟨h, hne⟩
    · exact Or.inr (Or.inl h)
    · exact Or.inr (Or.inr h)
  · rintro (h | rfl | rfl)
    · exact ⟨Or.inl (Or.inl h.1), h.2⟩
    · exact ⟨Or.inl (Or.inr rfl), hpre.symm⟩
    · exact ⟨Or.inr rfl, hcond.symm⟩

include hg hnode hlive in
/-- The edges after the split: those there were, from the test and to the
statements, and the edge between the two. -/
theorem split_edge : (split m g node).Edge v w ↔
    (∃ p s, g.Edge p s ∧ v = moved node (g.fresh + 1) p ∧ w = moved node g.fresh s) ∨
      (v = g.fresh ∧ w = g.fresh + 1) := by
  obtain ⟨h, hs, heq, -, -, -, hedge, -⟩ := sound_unsplit hg hnode hlive
  obtain ⟨hpre, hcond⟩ := ne_fresh hg hnode
  rw [heq, hs.edge_removeNode, hedge, (wired_spec hg hnode hlive).2.2.2.1]
  constructor
  · rintro ⟨(h | ⟨p, hp, rfl, rfl⟩ | ⟨s, hs, rfl, rfl⟩) | h, hv, hw⟩
    · exact Or.inl ⟨v, w, h, (moved_of_ne hv).symm, (moved_of_ne hw).symm⟩
    · exact Or.inl ⟨p, node, hp, rfl, moved_self.symm⟩
    · exact Or.inl ⟨node, s, hs, moved_self.symm, rfl⟩
    · exact Or.inr h
  · rintro (⟨p, s, hps, rfl, rfl⟩ | ⟨rfl, rfl⟩)
    · refine ⟨Or.inl ?_, moved_ne hcond.symm, moved_ne hpre.symm⟩
      rcases eq_or_ne p node with rfl | hp
      · exact Or.inr (Or.inr ⟨s, hps, moved_self, rfl⟩)
      · rcases eq_or_ne s node with rfl | hs
        · exact Or.inr (Or.inl ⟨p, hps, rfl, moved_self⟩)
        · rw [moved_of_ne hp, moved_of_ne hs]
          exact Or.inl hps
    · exact ⟨Or.inr ⟨rfl, rfl⟩, hpre.symm, hcond.symm⟩

include hg hnode hlive in
/-- The catch edges after the split. One that the normal edge of the same
predecessor hides is lost, unless it is the node's own. -/
theorem split_catchEdge : (split m g node).CatchEdge v w ↔
    ∃ p s, g.CatchEdge p s ∧ ¬ (s = node ∧ p ≠ node ∧ g.Edge p node) ∧
      v = moved node g.fresh p ∧ w = moved node g.fresh s := by
  obtain ⟨h, hs, heq, -, -, -, -, hcatch⟩ := sound_unsplit hg hnode hlive
  obtain ⟨hpre, hcond⟩ := ne_fresh hg hnode
  rw [heq, hs.catchEdge_removeNode, hcatch, (wired_spec hg hnode hlive).2.2.2.2.1]
  constructor
  · rintro ⟨h | ⟨p, hp, hnot, rfl, rfl⟩ | ⟨s, hs, rfl, rfl⟩, hv, hw⟩
    · exact ⟨v, w, h, fun hall => hw hall.1, (moved_of_ne hv).symm, (moved_of_ne hw).symm⟩
    · exact ⟨p, node, hp, fun hall => hnot hall.2.2, rfl, moved_self.symm⟩
    · exact ⟨node, s, hs, fun hall => hall.2.1 rfl, moved_self.symm, rfl⟩
  · rintro ⟨p, s, hps, hkept, rfl, rfl⟩
    refine ⟨?_, moved_ne hpre.symm, moved_ne hpre.symm⟩
    rcases eq_or_ne p node with rfl | hp
    · exact Or.inr (Or.inr ⟨s, hps, moved_self, rfl⟩)
    · rcases eq_or_ne s node with rfl | hs
      · exact Or.inr (Or.inl ⟨p, hps, fun hedge => hkept ⟨rfl, hp, hedge⟩, rfl, moved_self⟩)
      · rw [moved_of_ne hp, moved_of_ne hs]
        exact Or.inl hps

theorem heap_split_old (hpre : x ≠ g.fresh) (hcond : x ≠ g.fresh + 1) :
    (split m g node).heap x = (wired m g node).heap x := by
  unfold split finish
  dsimp only
  rw [heap_removeNode]
  unfold BlockGraph.updateAttributeWith
  rw [heap_modify, if_neg hcond, heap_modify, if_neg hpre, heap_addEdge,
    frame_replaceEntry.2.2.1]

theorem heap_split_pre : ∃ num, (split m g node).heap g.fresh =
    ((wired m g node).heap g.fresh).updateAttributeWith num m := by
  have hne : g.fresh ≠ g.fresh + 1 := by omega
  unfold split finish
  dsimp only
  rw [heap_removeNode]
  unfold BlockGraph.updateAttributeWith
  rw [heap_modify, if_neg hne, heap_modify, if_pos rfl, heap_addEdge, frame_replaceEntry.2.2.1]
  exact ⟨_, rfl⟩

theorem heap_split_cond : ∃ num, (split m g node).heap (g.fresh + 1) =
    ((wired m g node).heap (g.fresh + 1)).updateAttributeWith num m := by
  have hne : g.fresh + 1 ≠ g.fresh := by omega
  unfold split finish
  dsimp only
  rw [heap_removeNode]
  unfold BlockGraph.updateAttributeWith
  rw [heap_modify, if_pos rfl, heap_modify, if_neg hne, heap_addEdge, frame_replaceEntry.2.2.1]
  exact ⟨_, rfl⟩

include hg hnode hlive in
/-- The blocks of the other nodes: a branch to the split node is moved in the
conditions that have an edge to it. -/
theorem split_old (hx : x ∈ g.nodes) (hne : x ≠ node)
    (hedge : ∀ side, isCond g x = true → (g.heap x).branch side = some node → g.Edge x node) :
    ((split m g node).heap x).core = (g.heap x).core ∧
      ∀ side, ((split m g node).heap x).branch side =
        if isCond g x then ((g.heap x).branch side).map (moved node g.fresh)
        else (g.heap x).branch side := by
  obtain ⟨hxpre, hxcond⟩ := ne_fresh hg hx
  obtain ⟨hpre, hcond⟩ := ne_fresh hg hnode
  obtain ⟨-, -, -, -, -, hcore, hbranch⟩ := wired_spec hg hnode hlive
  have hold : (allocate g node).heap x = g.heap x := heap_allocate_old hxpre hxcond
  rw [heap_split_old hxpre hxcond]
  refine ⟨(hcore x).trans (congrArg Block.core hold), fun side => ?_⟩
  have hdecider : decider node (g.fresh + 1) x = x := if_neg hxcond
  obtain ⟨hin, hout⟩ := @redirectAll_branch I (allocate g node) m node g.fresh (g.fresh + 1) x
    ((allocate g node).allPreds node) hpre.symm hcond.symm
    (fun hmem => by
      rcases (mem_allPreds_allocate hg).mp hmem with h | h
      · exact (ne_fresh hg (hg.edgeMem _ _ h).1).2 rfl
      · exact (ne_fresh hg (hg.catchMem _ _ h).1).2 rfl)
    (fun p hmem hp => by
      have hpmem : p ∈ g.nodes := by
        rcases (mem_allPreds_allocate hg).mp hmem with h | h
        · exact (hg.edgeMem _ _ h).1
        · exact (hg.catchMem _ _ h).1
      rw [hlive p (Or.inl hpmem), moved_of_ne hp]) side
  have hrenames : (decider node (g.fresh + 1) x ∈ (allocate g node).allPreds node ∧
      Renames (allocate g node) node (g.fresh + 1) x side) ↔
        isCond g x = true ∧ (g.heap x).branch side = some node := by
    rw [hdecider, mem_allPreds_allocate hg]
    unfold Renames
    rw [hdecider, hold]
    have hc : isCond (allocate g node) x = isCond g x := isCond_congr (congrArg Block.core hold)
    rw [hc]
    constructor
    · rintro ⟨-, -, -, h, -, h'⟩
      exact ⟨h, h'⟩
    · rintro ⟨h, h'⟩
      have hblock : (g.heap x).isCondBlock = true := by
        unfold isCond at h
        exact (Bool.and_eq_true_iff.mp h).1
      exact ⟨Or.inl (hedge side h h'), hne, hedge side h h', h, hblock, h'⟩
  rw [hbranch]
  by_cases hr : isCond g x = true ∧ (g.heap x).branch side = some node
  · rw [hin (hrenames.mpr hr), if_pos hr.1, hr.2, Option.map_some, moved_self]
  · rw [hout (fun h => hr (hrenames.mp h)), hold]
    split
    · rename_i hc
      cases hb : (g.heap x).branch side with
      | none => rfl
      | some t =>
        have ht : t ≠ node := fun heq => hr ⟨hc, heq ▸ hb⟩
        rw [Option.map_some, moved_of_ne ht]
    · rfl

omit [DecidableEq I] in
theorem keeps_update (num : Nat → Int) (b : Block I) :
    (b.updateAttributeWith num m).ins = b.ins ∧ (b.updateAttributeWith num m).cls = b.cls ∧
      (b.updateAttributeWith num m).type = b.type ∧
      (b.cls = .cond → ∀ side, (b.updateAttributeWith num m).branch side =
        (b.branch side).map m.get) := by
  unfold Block.updateAttributeWith
  cases hcls : b.cls with
  | cond =>
    refine ⟨rfl, rfl, rfl, fun _ side => ?_⟩
    cases side
    · rfl
    · rfl
  | statement | ret | throw | switch | shortCircuit =>
    refine ⟨rfl, rfl, rfl, fun h => ?_⟩
    cases h

include hg hnode hlive in
/-- The block of the statements. -/
theorem split_pre : ((split m g node).heap g.fresh).cls = .statement ∧
    ((split m g node).heap g.fresh).ins = (g.heap node).ins.dropLast := by
  obtain ⟨-, -, -, -, -, hcore, -⟩ := wired_spec hg hnode hlive
  obtain ⟨hcls, -, hins⟩ := @heap_allocate_pre I _ g node
  obtain ⟨num, heq⟩ := @heap_split_pre I _ g m node
  have hcls' : ((wired m g node).heap g.fresh).core.cls =
      ((allocate g node).heap g.fresh).core.cls := by rw [hcore]
  have hins' : ((wired m g node).heap g.fresh).core.ins =
      ((allocate g node).heap g.fresh).core.ins := by rw [hcore]
  rw [heq]
  exact ⟨(keeps_update num _).2.1.trans (hcls'.trans hcls),
    (keeps_update num _).1.trans (hins'.trans hins)⟩

include hg hnode hlive in
/-- The block of the test, with the branches of the node. -/
theorem split_cond (hcondNode : isCond g node = true)
    (hbranches : ∀ side t, (g.heap node).branch side = some t → g.Edge node t) :
    isCond (split m g node) (g.fresh + 1) = true ∧
      ((split m g node).heap (g.fresh + 1)).ins = (g.heap node).ins.getLast?.toList ∧
      ∀ side, ((split m g node).heap (g.fresh + 1)).branch side =
        ((g.heap node).branch side).map (moved node g.fresh) := by
  obtain ⟨hpre, hcond⟩ := ne_fresh hg hnode
  obtain ⟨-, -, -, -, -, hcore, hbranch⟩ := wired_spec hg hnode hlive
  obtain ⟨hcls, htype, hins, hinitial⟩ := @heap_allocate_cond I _ g node
  obtain ⟨num, heq⟩ := @heap_split_cond I _ g m node
  have hcls' : ((wired m g node).heap (g.fresh + 1)).core.cls =
      ((allocate g node).heap (g.fresh + 1)).core.cls := by rw [hcore]
  have htype' : ((wired m g node).heap (g.fresh + 1)).core.type =
      ((allocate g node).heap (g.fresh + 1)).core.type := by rw [hcore]
  have hins' : ((wired m g node).heap (g.fresh + 1)).core.ins =
      ((allocate g node).heap (g.fresh + 1)).core.ins := by rw [hcore]
  have hcls'' := hcls'.trans hcls
  have htype'' := htype'.trans htype
  obtain ⟨hkins, hkcls, hktype, hkbranch⟩ :=
    @keeps_update I m num ((wired m g node).heap (g.fresh + 1))
  have hnodeType : (g.heap node).type = .cond := by
    unfold isCond at hcondNode
    simpa using (Bool.and_eq_true_iff.mp hcondNode).2
  have hblock : ((allocate g node).heap (g.fresh + 1)).isCondBlock = true := by
    unfold Block.isCondBlock
    rw [hcls]
    rfl
  have hold : (allocate g node).heap node = g.heap node := heap_allocate_old hpre hcond
  have hdecider : decider node (g.fresh + 1) (g.fresh + 1) = node := if_pos rfl
  refine ⟨?_, ?_, fun side => ?_⟩
  · unfold isCond Block.isCondBlock
    rw [heq, hkcls, hktype]
    change ((wired m g node).heap (g.fresh + 1)).cls = _ at hcls''
    change ((wired m g node).heap (g.fresh + 1)).type = _ at htype''
    rw [hcls'', htype'', hnodeType]
    rfl
  · rw [heq, hkins]
    exact hins'.trans hins
  · obtain ⟨hin, hout⟩ := @redirectAll_branch I (allocate g node) m node g.fresh (g.fresh + 1)
      (g.fresh + 1) ((allocate g node).allPreds node) hpre.symm hcond.symm
      (fun hmem => by
        rcases (mem_allPreds_allocate hg).mp hmem with h | h
        · exact (ne_fresh hg (hg.edgeMem _ _ h).1).2 rfl
        · exact (ne_fresh hg (hg.catchMem _ _ h).1).2 rfl)
      (fun p hmem hp => by
        have hpmem : p ∈ g.nodes := by
          rcases (mem_allPreds_allocate hg).mp hmem with h | h
          · exact (hg.edgeMem _ _ h).1
          · exact (hg.catchMem _ _ h).1
        rw [hlive p (Or.inl hpmem), moved_of_ne hp]) side
    rw [heq, hkbranch hcls'' side, hbranch]
    by_cases hr : decider node (g.fresh + 1) (g.fresh + 1) ∈ (allocate g node).allPreds node ∧
        Renames (allocate g node) node (g.fresh + 1) (g.fresh + 1) side
    · have hself : (g.heap node).branch side = some node := by
        have h := hr.2.2.2.2.2
        rwa [hdecider, hold] at h
      rw [hin hr, hself, Option.map_some, Option.map_some, moved_self,
        hlive g.fresh (Or.inr (Or.inl rfl)), moved_of_ne hpre.symm]
    · rw [hout hr, hinitial]
      cases hb : (g.heap node).branch side with
      | none => rfl
      | some t =>
        rw [Option.map_some, Option.map_some,
          hlive t (Or.inl (hg.edgeMem node t (hbranches side t hb)).2)]

end Wire

end Splitting

end Dexllm.Dad
