import Dexllm.Dad.SplitRun

/-!
`SplitIfNodes` as a whole: the edges, catch edges, pointers and instructions of
its result in terms of the graph it is given.
-/

namespace Dexllm.Dad

open Adjacency BlockGraph

namespace Splitting

variable {I : Type} {g : BlockGraph I} {m : NodeMap} {v w x : Nat} {l : List Nat}

section Update

/-- The run that updates the nodes that are no conditions. -/
abbrev updateAll (m : NodeMap) (l : List Nat) (g : BlockGraph I) : BlockGraph I :=
  l.foldl (fun g n => g.updateAttributeWith m n) g

theorem sound_updateAll (h : g.Sound) : (updateAll m l g).Sound := by
  induction l generalizing g with
  | nil => exact h
  | cons n l ih => exact ih h.modify

theorem frame_updateAll : (updateAll m l g).nodes = g.nodes ∧
    (updateAll m l g).entry = g.entry ∧ (updateAll m l g).fresh = g.fresh ∧
    (∀ v w, (updateAll m l g).Edge v w ↔ g.Edge v w) ∧
    ∀ v w, (updateAll m l g).CatchEdge v w ↔ g.CatchEdge v w := by
  induction l generalizing g with
  | nil => exact ⟨rfl, rfl, rfl, fun _ _ => Iff.rfl, fun _ _ => Iff.rfl⟩
  | cons n l ih => exact @ih (g.updateAttributeWith m n)

theorem heap_updateAll_of_not_mem (hx : x ∉ l) : (updateAll m l g).heap x = g.heap x := by
  induction l generalizing g with
  | nil => rfl
  | cons n l ih =>
    rw [List.mem_cons, not_or] at hx
    apply (@ih (g.updateAttributeWith m n) hx.2).trans
    unfold BlockGraph.updateAttributeWith
    rw [heap_modify, if_neg hx.1]

theorem ins_updateAll : ((updateAll m l g).heap x).ins = (g.heap x).ins ∧
    ((updateAll m l g).heap x).cls = (g.heap x).cls := by
  induction l generalizing g with
  | nil => exact ⟨rfl, rfl⟩
  | cons n l ih =>
    obtain ⟨hins, hcls⟩ := @ih (g.updateAttributeWith m n)
    have hkeep : ((g.updateAttributeWith m n).heap x).ins = (g.heap x).ins ∧
        ((g.updateAttributeWith m n).heap x).cls = (g.heap x).cls := by
      unfold BlockGraph.updateAttributeWith
      rw [heap_modify]
      split
      · subst x
        exact ⟨(keeps_update _ _).1, (keeps_update _ _).2.1⟩
      · exact ⟨rfl, rfl⟩
    exact ⟨hins.trans hkeep.1, hcls.trans hkeep.2⟩

theorem switch_update {num : Nat → Int} {b : Block I} (h : b.cls = .switch) :
    (b.updateAttributeWith num m).cases = b.cases.map m.get ∧
      (b.updateAttributeWith num m).defaultCase = b.defaultCase.map m.get := by
  unfold Block.updateAttributeWith
  dsimp only
  rw [h]
  exact ⟨rfl, rfl⟩

/-- The targets of an updated switch, under a map that leaves its values where
they are. -/
theorem switch_updateAll (hm : ∀ v, m.get (m.get v) = m.get v) (hx : x ∈ l)
    (hcls : (g.heap x).cls = .switch) :
    ((updateAll m l g).heap x).cases = (g.heap x).cases.map m.get ∧
      ((updateAll m l g).heap x).defaultCase = (g.heap x).defaultCase.map m.get := by
  have hcomp : m.get ∘ m.get = m.get := funext hm
  induction l generalizing g with
  | nil => exact absurd hx List.not_mem_nil
  | cons n l ih =>
    have hstep : (g.updateAttributeWith m n).heap x = if x = n then
        (g.heap n).updateAttributeWith (fun w => (g.heap w).num) m else g.heap x := by
      unfold BlockGraph.updateAttributeWith
      rw [heap_modify]
    have hcls' : ((g.updateAttributeWith m n).heap x).cls = .switch :=
      (@ins_updateAll I g m x [n]).2.trans hcls
    by_cases hxl : x ∈ l
    · obtain ⟨hcases, hdefault⟩ := @ih (g.updateAttributeWith m n) hxl hcls'
      change ((updateAll m l (g.updateAttributeWith m n)).heap x).cases = _ ∧
        ((updateAll m l (g.updateAttributeWith m n)).heap x).defaultCase = _
      rw [hcases, hdefault, hstep]
      split
      · subst x
        obtain ⟨hcases', hdefault'⟩ := @switch_update I m (fun w => (g.heap w).num) _ hcls
        rw [hcases', hdefault', List.map_map, Option.map_map, hcomp]
        exact ⟨rfl, rfl⟩
      · exact ⟨rfl, rfl⟩
    · have hxn : x = n := (List.mem_cons.mp hx).resolve_right hxl
      have hrest := @heap_updateAll_of_not_mem I (g.updateAttributeWith m n) m x l hxl
      change ((updateAll m l (g.updateAttributeWith m n)).heap x).cases = _ ∧
        ((updateAll m l (g.updateAttributeWith m n)).heap x).defaultCase = _
      rw [hrest, hstep, if_pos hxn, ← hxn]
      exact switch_update hcls

end Update

variable [DecidableEq I]

/-- The node before the test of `n`, which is `n` where nothing is split. -/
def preOf (g : BlockGraph I) (n : Nat) : Nat := (run g).nodeMap.get n

/-- The node with the test of `n`. -/
def testOf (g : BlockGraph I) (n : Nat) : Nat := condOf (run g).nodeMap n

/-- The names after the split: two new nodes for each split condition, all
different, and the old name for every other node. -/
structure Names (g : BlockGraph I) (pre cond : Nat → Nat) : Prop where
  split : ∀ n ∈ g.nodes, Split g n → pre n ∉ g.nodes ∧ cond n ∉ g.nodes ∧ pre n ≠ cond n
  whole : ∀ n ∈ g.nodes, ¬ Split g n → pre n = n ∧ cond n = n
  inj : ∀ u ∈ g.nodes, ∀ v ∈ g.nodes, u ≠ v →
    pre u ≠ pre v ∧ cond u ≠ cond v ∧ pre u ≠ cond v

/-- What the claim asks of the result `g'`, the catch edges apart. -/
structure Faithful (g g' : BlockGraph I) (pre cond : Nat → Nat) : Prop where
  names : Names g pre cond
  nodes : ∀ v, v ∈ g'.nodes ↔ ∃ n ∈ g.nodes, v = pre n ∨ v = cond n
  edges : ∀ a b, g'.Edge a b ↔ (∃ n ∈ g.nodes, Split g n ∧ a = pre n ∧ b = cond n) ∨
    ∃ p s, g.Edge p s ∧ a = cond p ∧ b = pre s
  entry : g'.entry = g.entry.map pre
  branches : ∀ n ∈ g.nodes, isCond g n = true →
    ∀ side, (g'.heap (cond n)).branch side = ((g.heap n).branch side).map pre
  switches : ∀ n ∈ g.nodes, (g.heap n).cls = .switch →
    (g'.heap n).cases = (g.heap n).cases.map pre ∧
      (g'.heap n).defaultCase = (g.heap n).defaultCase.map pre
  ins : ∀ n ∈ g.nodes, (Split g n →
      (g'.heap (pre n)).ins ++ (g'.heap (cond n)).ins = (g.heap n).ins) ∧
    (¬ Split g n → (g'.heap n).ins = (g.heap n).ins)

section Result

variable (hg : g.Sound) (hfollow : BranchesFollow g)
include hg hfollow

theorem names_run : Names g (preOf g) (testOf g) := by
  have h := run_inv hg hfollow
  have hcases (v : Nat) (hv : v ∈ g.nodes) : (¬ Split g v ∧ preOf g v = v ∧ testOf g v = v) ∨
      (Split g v ∧ testOf g v = preOf g v + 1 ∧ g.fresh ≤ preOf g v) := by
    rcases h.condOf_cases hg hv with ⟨hnot, heq⟩ | ⟨hin, heq⟩
    · exact Or.inl ⟨fun hs => hnot ⟨hv, hs⟩, h.old v hnot, heq⟩
    · exact Or.inr ⟨hin.2, heq, (h.new v hin).1⟩
  constructor
  case split =>
    intro n hn hs
    obtain ⟨hnot, -⟩ | ⟨-, htest, hlow⟩ := hcases n hn
    · exact absurd hs hnot
    · refine ⟨fun hmem => ?_, fun hmem => ?_, by omega⟩
      · have := hg.freshNodes _ hmem
        omega
      · have := hg.freshNodes _ hmem
        omega
  case whole =>
    intro n hn hs
    obtain ⟨-, hpre, htest⟩ | ⟨hs', -⟩ := hcases n hn
    · exact ⟨hpre, htest⟩
    · exact absurd hs' hs
  case inj =>
    intro u hu v hv hne
    have hult := hg.freshNodes u hu
    have hvlt := hg.freshNodes v hv
    obtain ⟨-, hpu, htu⟩ | ⟨hsu, htu, hlu⟩ := hcases u hu
    · obtain ⟨-, hpv, htv⟩ | ⟨-, htv, hlv⟩ := hcases v hv
      · rw [hpu, htu, hpv, htv]
        exact ⟨hne, hne, hne⟩
      · omega
    · obtain ⟨-, hpv, htv⟩ | ⟨hsv, htv, hlv⟩ := hcases v hv
      · omega
      · have hapart : preOf g u + 1 < preOf g v ∨ preOf g v + 1 < preOf g u :=
          h.apart u v ⟨hu, hsu⟩ ⟨hv, hsv⟩ hne
        omega

theorem faithful_run : Faithful g (splitIfNodes g) (preOf g) (testOf g) := by
  have h := run_inv hg hfollow
  obtain ⟨hnodes, hentry, -, hedge, -⟩ :=
    @frame_updateAll I (run g).graph (run g).nodeMap (run g).toUpdate
  have hins (x : Nat) := (@ins_updateAll I (run g).graph (run g).nodeMap x (run g).toUpdate).1
  have hnames := names_run hg hfollow
  constructor
  case names => exact hnames
  case nodes =>
    intro v
    have hmem : v ∈ (splitIfNodes g).nodes ↔ v ∈ (run g).graph.nodes := by
      unfold splitIfNodes
      rw [hnodes]
    rw [hmem, h.mem]
    constructor
    · rintro (⟨hv, hnot⟩ | ⟨u, hu, heq⟩)
      · have hpre : preOf g v = v := h.old v hnot
        exact ⟨v, hv, Or.inl hpre.symm⟩
      · refine ⟨u, hu.1, ?_⟩
        rcases h.condOf_cases hg hu.1 with ⟨hnot, -⟩ | ⟨-, htest⟩
        · exact absurd hu hnot
        · exact heq.imp id fun heq => heq.trans htest.symm
    · rintro ⟨n, hn, heq⟩
      rcases h.condOf_cases hg hn with ⟨hnot, htest⟩ | ⟨hin, htest⟩
      · have hpre : preOf g n = n := h.old n hnot
        have hvn : v = n := by
          rcases heq with rfl | rfl
          · exact hpre
          · exact htest
        exact Or.inl ⟨hvn ▸ hn, hvn ▸ hnot⟩
      · exact Or.inr ⟨n, hin, heq.imp id fun heq => heq.trans htest⟩
  case edges =>
    intro a b
    have hab : (splitIfNodes g).Edge a b ↔ (run g).graph.Edge a b := hedge a b
    rw [hab, h.edge, or_comm]
    apply or_congr_left
    constructor
    · rintro ⟨u, hu, rfl, rfl⟩
      rcases h.condOf_cases hg hu.1 with ⟨hnot, -⟩ | ⟨-, htest⟩
      · exact absurd hu hnot
      · exact ⟨u, hu.1, hu.2, rfl, htest.symm⟩
    · rintro ⟨n, hn, hs, rfl, rfl⟩
      rcases h.condOf_cases hg hn with ⟨hnot, -⟩ | ⟨hin, htest⟩
      · exact absurd ⟨hn, hs⟩ hnot
      · exact ⟨n, hin, rfl, htest⟩
  case entry => exact hentry.trans h.entry
  case branches =>
    intro n hn hc side
    have hout : testOf g n ∉ (run g).toUpdate := by
      rw [h.toUpdate]
      rintro ⟨hmem, hfalse⟩
      rcases h.condOf_cases hg hn with ⟨-, htest⟩ | ⟨hin, htest⟩
      · have heq : testOf g n = n := htest
        rw [heq, hc] at hfalse
        exact Bool.noConfusion hfalse
      · exact (hnames.split n hn hin.2).2.1 hmem
    have hheap : (splitIfNodes g).heap (testOf g n) = (run g).graph.heap (testOf g n) :=
      heap_updateAll_of_not_mem hout
    rw [hheap]
    exact (h.conds n hn hc).2 side
  case switches =>
    intro n hn hcls
    have hc : isCond g n = false := by
      unfold isCond Block.isCondBlock
      rw [hcls]
      rfl
    have hnot : ¬ SplitIn g g.nodes n := fun hin => absurd (hin.2.1.symm.trans hc) Bool.noConfusion
    have hcore := (h.whole n hn hnot).1
    have hcls' : ((run g).graph.heap n).core.cls = (g.heap n).core.cls := by rw [hcore]
    have hcases' : ((run g).graph.heap n).core.cases = (g.heap n).core.cases := by rw [hcore]
    have hdefault' : ((run g).graph.heap n).core.defaultCase = (g.heap n).core.defaultCase := by
      rw [hcore]
    have hidem (v : Nat) : (run g).nodeMap.get ((run g).nodeMap.get v) = (run g).nodeMap.get v := by
      rcases h.get_cases v with ⟨-, heq⟩ | ⟨-, hlow, -⟩
      · rw [heq, heq]
      · apply h.old
        intro hin
        have := hg.freshNodes _ hin.1
        omega
    obtain ⟨hcases, hdefault⟩ := @switch_updateAll I (run g).graph (run g).nodeMap n
      (run g).toUpdate hidem ((h.toUpdate n).mpr ⟨hn, hc⟩) (hcls'.trans hcls)
    exact ⟨hcases.trans (congrArg (List.map _) hcases'),
      hdefault.trans (congrArg (Option.map _) hdefault')⟩
  case ins =>
    intro n hn
    constructor
    · intro hs
      obtain ⟨-, hpre, htest⟩ := h.parts n ⟨hn, hs⟩
      have hone : ((splitIfNodes g).heap (preOf g n)).ins = (g.heap n).ins.dropLast :=
        (hins _).trans hpre
      have htwo : ((splitIfNodes g).heap (testOf g n)).ins = (g.heap n).ins.getLast?.toList := by
        rcases h.condOf_cases hg hn with ⟨hnot, -⟩ | ⟨-, heq⟩
        · exact absurd ⟨hn, hs⟩ hnot
        · have heq : testOf g n = (run g).nodeMap.get n + 1 := heq
          rw [heq]
          exact (hins _).trans htest
      have hlen := hs.2
      rw [hone, htwo]
      have hne : (g.heap n).ins ≠ [] := by
        intro hnil
        rw [hnil] at hlen
        simp at hlen
      rw [List.getLast?_eq_some_getLast hne]
      exact List.dropLast_append_getLast hne
    · intro hs
      have hcore := (h.whole n hn fun hin => hs hin.2).1
      have hkeep : ((run g).graph.heap n).core.ins = (g.heap n).core.ins := by rw [hcore]
      exact (hins n).trans hkeep

/-- The catch edges of the result are those that are not lost. -/
theorem catchEdge_splitIfNodes {a b : Nat} : (splitIfNodes g).CatchEdge a b ↔
    ∃ p s, g.CatchEdge p s ∧ ¬ LostIn g g.nodes p s ∧ a = preOf g p ∧ b = preOf g s :=
  ((@frame_updateAll I (run g).graph (run g).nodeMap (run g).toUpdate).2.2.2.2 a b).trans
    ((run_inv hg hfollow).catchEdge a b)

theorem sound_splitIfNodes : (splitIfNodes g).Sound :=
  sound_updateAll (run_inv hg hfollow).sound

/-- `SplitIfNodes` on a graph built by distinct nodes and edges between them,
with every branch a normal successor: its edges, entry, pointers and instructions
are the split ones, and its catch edges are exactly when none is lost. -/
theorem split_if_nodes_faithful_iff :
    Faithful g (splitIfNodes g) (preOf g) (testOf g) ∧
      ((∀ a b, (splitIfNodes g).CatchEdge a b ↔
          ∃ p s, g.CatchEdge p s ∧ a = preOf g p ∧ b = preOf g s) ↔
        ∀ p s, g.CatchEdge p s → ¬ LostIn g g.nodes p s) := by
  have hnames := names_run hg hfollow
  have hinj {u v : Nat} (hu : u ∈ g.nodes) (hv : v ∈ g.nodes) (heq : preOf g u = preOf g v) :
      u = v := by
    by_contra hne
    exact (hnames.inj u hu v hv hne).1 heq
  refine ⟨faithful_run hg hfollow, ?_⟩
  constructor
  · intro hall p s hps hlost
    obtain ⟨p', s', hps', hkept, hp, hs⟩ :=
      (catchEdge_splitIfNodes hg hfollow).mp
        ((hall (preOf g p) (preOf g s)).mpr ⟨p, s, hps, rfl, rfl⟩)
    obtain ⟨hpmem, hsmem⟩ := hg.catchMem p s hps
    obtain ⟨hpmem', hsmem'⟩ := hg.catchMem p' s' hps'
    obtain rfl := hinj hpmem hpmem' hp
    obtain rfl := hinj hsmem hsmem' hs
    exact hkept hlost
  · intro hnone a b
    rw [catchEdge_splitIfNodes hg hfollow]
    constructor
    · rintro ⟨p, s, hps, -, ha, hb⟩
      exact ⟨p, s, hps, ha, hb⟩
    · rintro ⟨p, s, hps, ha, hb⟩
      exact ⟨p, s, hps, hnone p s hps, ha, hb⟩

end Result

/-- A statement that falls through into the condition that handles its
exceptions. -/
def handlerGraph : BlockGraph Nat :=
  let stmt : Block Nat := { cls := .statement, type := .stmt, ins := [1] }
  let test : Block Nat :=
    { cls := .cond, type := .cond, ins := [2, 3], trueBranch := some 0, falseBranch := some 2 }
  let ret : Block Nat := { cls := .ret, type := .ret, ins := [4] }
  let g := ((({} : BlockGraph Nat).makeNode stmt).makeNode test).makeNode ret
  let g := ((g.addEdge 0 1).addEdge 1 0).addEdge 1 2
  { g.addCatchEdge 0 1 with entry := some 0 }

theorem handlerGraph_sound : handlerGraph.Sound := by
  apply Sound.setEntry
  · have hempty : ({} : BlockGraph Nat).Sound := sound_empty
    apply Sound.addCatchEdge _ (by decide) (by decide)
    apply Sound.addEdge _ (by decide) (by decide)
    apply Sound.addEdge _ (by decide) (by decide)
    apply Sound.addEdge _ (by decide) (by decide)
    exact hempty.makeNode.makeNode.makeNode
  · decide

theorem handlerGraph_follow : BranchesFollow handlerGraph := by
  intro v hv hc side t hb
  have hv : v = 0 ∨ v = 1 ∨ v = 2 := by simpa [handlerGraph, addNode] using hv
  rcases hv with rfl | rfl | rfl
  · exact absurd hc (by decide)
  · cases side
    · have ht : t = 2 := (Option.some.inj hb).symm
      subst ht
      decide
    · have ht : t = 0 := (Option.some.inj hb).symm
      subst ht
      decide
  · exact absurd hc (by decide)

theorem split_if_nodes_faithful_iff_handlerGraph :
    Faithful handlerGraph (splitIfNodes handlerGraph) (preOf handlerGraph) (testOf handlerGraph) ∧
      ((∀ a b, (splitIfNodes handlerGraph).CatchEdge a b ↔ ∃ p s, handlerGraph.CatchEdge p s ∧
          a = preOf handlerGraph p ∧ b = preOf handlerGraph s) ↔
        ∀ p s, handlerGraph.CatchEdge p s → ¬ LostIn handlerGraph handlerGraph.nodes p s) :=
  split_if_nodes_faithful_iff handlerGraph_sound handlerGraph_follow

/-- The handler of the statement is lost, under any names for the new nodes. -/
theorem handlerGraph_loses_handler : ¬∀ g : BlockGraph Nat, g.Sound → BranchesFollow g →
    ∃ pre cond, Faithful g (splitIfNodes g) pre cond ∧
      ∀ a b, (splitIfNodes g).CatchEdge a b ↔
        ∃ p s, g.CatchEdge p s ∧ a = pre p ∧ b = pre s := by
  intro hall
  obtain ⟨pre, cond, -, hcatch⟩ := hall handlerGraph handlerGraph_sound handlerGraph_follow
  have hedge : handlerGraph.CatchEdge 0 1 := by decide
  have hkept := (hcatch (pre 0) (pre 1)).mpr ⟨0, 1, hedge, rfl, rfl⟩
  obtain ⟨p, s, hps, hnot, -⟩ :=
    (catchEdge_splitIfNodes handlerGraph_sound handlerGraph_follow).mp hkept
  obtain ⟨rfl, rfl⟩ : p = 0 ∧ s = 1 :=
    (catchEdge_addCatchEdge.mp hps).resolve_left fun h => absurd h List.not_mem_nil
  apply hnot
  exact ⟨[0], [2], rfl, by decide, by decide, by decide, fun hin => absurd hin.2.1 (by decide)⟩

end Splitting

end Dexllm.Dad
