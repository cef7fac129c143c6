import Dexllm.Dad.SplitStep

/-!
The split of all conditions of a sound graph.
-/

namespace Dexllm.Dad

open Adjacency BlockGraph

namespace Splitting

variable {I : Type} [DecidableEq I] {g : BlockGraph I} {st : Splitting I} {n p s v w x : Nat}
  {seen : List Nat}

/-- A condition with statements before its test. -/
def Split (g : BlockGraph I) (n : Nat) : Prop := isCond g n = true ∧ 2 ≤ (g.heap n).ins.length

instance (g : BlockGraph I) (n : Nat) : Decidable (Split g n) :=
  inferInstanceAs (Decidable (isCond g n = true ∧ 2 ≤ (g.heap n).ins.length))

/-- Split by the time the nodes `seen` are done. -/
def SplitIn (g : BlockGraph I) (seen : List Nat) (v : Nat) : Prop := v ∈ seen ∧ Split g v

/-- The catch edge from `p` to `s` is lost by the time the nodes `seen` are done:
`s` is split while `p` is whole and has a normal edge to it. -/
def LostIn (g : BlockGraph I) (seen : List Nat) (p s : Nat) : Prop :=
  ∃ l1 l2, seen = l1 ++ s :: l2 ∧ Split g s ∧ p ≠ s ∧ g.Edge p s ∧ ¬ SplitIn g l1 p

/-- The node that a node's edges start at. -/
def condOf (m : NodeMap) (v : Nat) : Nat := if m.get v = v then v else m.get v + 1

/-- Every branch of a condition is one of its normal successors. -/
def BranchesFollow (g : BlockGraph I) : Prop :=
  ∀ v ∈ g.nodes, isCond g v = true → ∀ side t, (g.heap v).branch side = some t → g.Edge v t

/-- What the loop over the snapshot keeps. -/
structure SplitInv (g : BlockGraph I) (seen : List Nat) (st : Splitting I) : Prop where
  sub : ∀ v ∈ seen, v ∈ g.nodes
  sound : st.graph.Sound
  fresh : g.fresh ≤ st.graph.fresh
  old : ∀ v, ¬ SplitIn g seen v → st.nodeMap.get v = v
  new : ∀ v, SplitIn g seen v → g.fresh ≤ st.nodeMap.get v ∧ st.nodeMap.get v + 1 < st.graph.fresh
  apart : ∀ u v, SplitIn g seen u → SplitIn g seen v → u ≠ v →
    st.nodeMap.get u + 1 < st.nodeMap.get v ∨ st.nodeMap.get v + 1 < st.nodeMap.get u
  mem : ∀ v, v ∈ st.graph.nodes ↔ (v ∈ g.nodes ∧ ¬ SplitIn g seen v) ∨
    ∃ u, SplitIn g seen u ∧ (v = st.nodeMap.get u ∨ v = st.nodeMap.get u + 1)
  entry : st.graph.entry = g.entry.map st.nodeMap.get
  edge : ∀ a b, st.graph.Edge a b ↔
    (∃ p s, g.Edge p s ∧ a = condOf st.nodeMap p ∧ b = st.nodeMap.get s) ∨
      ∃ u, SplitIn g seen u ∧ a = st.nodeMap.get u ∧ b = st.nodeMap.get u + 1
  catchEdge : ∀ a b, st.graph.CatchEdge a b ↔
    ∃ p s, g.CatchEdge p s ∧ ¬ LostIn g seen p s ∧ a = st.nodeMap.get p ∧ b = st.nodeMap.get s
  whole : ∀ v ∈ g.nodes, ¬ SplitIn g seen v → (st.graph.heap v).core = (g.heap v).core ∧
    (isCond g v = false → ∀ side, (st.graph.heap v).branch side = (g.heap v).branch side)
  conds : ∀ v ∈ g.nodes, isCond g v = true → isCond st.graph (condOf st.nodeMap v) = true ∧
    ∀ side, (st.graph.heap (condOf st.nodeMap v)).branch side =
      ((g.heap v).branch side).map st.nodeMap.get
  parts : ∀ v, SplitIn g seen v →
    (st.graph.heap (st.nodeMap.get v)).cls = .statement ∧
    (st.graph.heap (st.nodeMap.get v)).ins = (g.heap v).ins.dropLast ∧
    (st.graph.heap (st.nodeMap.get v + 1)).ins = (g.heap v).ins.getLast?.toList
  toUpdate : ∀ v, v ∈ st.toUpdate ↔ v ∈ seen ∧ isCond g v = false

theorem get_foldl_self {l : List Nat} {m : NodeMap} (hm : ∀ v, m.get v = v) (v : Nat) :
    NodeMap.get (l.foldl (fun m n => m.insert n n) m) v = v := by
  induction l generalizing m with
  | nil => exact hm v
  | cons n l ih =>
    apply ih
    intro x
    unfold NodeMap.get
    rcases eq_or_ne x n with rfl | hne
    · rw [AList.lookup_insert]
      rfl
    · rw [AList.lookup_insert_ne hne]
      exact hm x

omit [DecidableEq I] in
theorem inv_start (hg : g.Sound) : SplitInv g [] (start g) := by
  have hget (v : Nat) : (start g).nodeMap.get v = v := get_foldl_self (fun _ => rfl) v
  have hcondOf (v : Nat) : condOf (start g).nodeMap v = v := by
    unfold condOf
    rw [if_pos (hget v)]
  have hnone (v : Nat) : ¬ SplitIn g [] v := fun h => absurd h.1 List.not_mem_nil
  have hmap (o : Option Nat) : o.map (start g).nodeMap.get = o := by
    cases o with
    | none => rfl
    | some v => rw [Option.map_some, hget]
  constructor
  case sub => exact fun v hv => absurd hv List.not_mem_nil
  case sound => exact hg
  case fresh => exact Nat.le_refl _
  case old => exact fun v _ => hget v
  case new => exact fun v hv => absurd hv (hnone v)
  case apart => exact fun u v hu => absurd hu (hnone u)
  case mem =>
    intro v
    constructor
    · exact fun hv => Or.inl ⟨hv, hnone v⟩
    · rintro (h | ⟨u, hu, -⟩)
      · exact h.1
      · exact absurd hu (hnone u)
  case entry => exact (hmap _).symm
  case edge =>
    intro a b
    constructor
    · exact fun h => Or.inl ⟨a, b, h, (hcondOf a).symm, (hget b).symm⟩
    · rintro (⟨p, s, h, rfl, rfl⟩ | ⟨u, hu, -⟩)
      · rw [hcondOf, hget]
        exact h
      · exact absurd hu (hnone u)
  case catchEdge =>
    intro a b
    constructor
    · intro h
      refine ⟨a, b, h, ?_, (hget a).symm, (hget b).symm⟩
      rintro ⟨l1, l2, heq, -⟩
      simp at heq
    · rintro ⟨p, s, h, -, rfl, rfl⟩
      rw [hget, hget]
      exact h
  case whole => exact fun v _ _ => ⟨rfl, fun _ _ => rfl⟩
  case conds =>
    intro v hv hc
    rw [hcondOf]
    exact ⟨hc, fun side => (hmap _).symm⟩
  case parts => exact fun v hv => absurd hv (hnone v)
  case toUpdate =>
    intro v
    constructor
    · exact fun h => absurd h List.not_mem_nil
    · exact fun h => absurd h.1 List.not_mem_nil

omit [DecidableEq I] in
theorem splitIn_snoc : SplitIn g (seen ++ [n]) v ↔ SplitIn g seen v ∨ (v = n ∧ Split g n) := by
  unfold SplitIn
  rw [List.mem_append, List.mem_singleton]
  constructor
  · rintro ⟨h | rfl, hv⟩
    · exact Or.inl ⟨h, hv⟩
    · exact Or.inr ⟨rfl, hv⟩
  · rintro (h | ⟨rfl, hv⟩)
    · exact ⟨Or.inl h.1, h.2⟩
    · exact ⟨Or.inr rfl, hv⟩

omit [DecidableEq I] in
theorem lostIn_snoc : LostIn g (seen ++ [n]) p s ↔ LostIn g seen p s ∨
    (s = n ∧ Split g n ∧ p ≠ n ∧ g.Edge p n ∧ ¬ SplitIn g seen p) := by
  constructor
  · rintro ⟨l1, l2, heq, hs, hne, hedge, hp⟩
    rcases List.eq_nil_or_concat l2 with rfl | ⟨l, y, rfl⟩
    · obtain ⟨rfl, hlast⟩ := List.append_inj' heq rfl
      obtain rfl := List.singleton_inj.mp hlast
      exact Or.inr ⟨rfl, hs, hne, hedge, hp⟩
    · rw [List.concat_eq_append, ← List.cons_append, ← List.append_assoc] at heq
      exact Or.inl ⟨l1, l, (List.append_inj' heq rfl).1, hs, hne, hedge, hp⟩
  · rintro (⟨l1, l2, rfl, hs, hne, hedge, hp⟩ | ⟨rfl, hs, hne, hedge, hp⟩)
    · exact ⟨l1, l2 ++ [n], by simp, hs, hne, hedge, hp⟩
    · exact ⟨seen, [], rfl, hs, hne, hedge, hp⟩

omit [DecidableEq I] in
/-- A node that is not split changes no more than the list of nodes to update. -/
theorem SplitInv.keep {toUpdate : List Nat} (h : SplitInv g seen st) (hn : n ∈ g.nodes)
    (hnot : ¬ Split g n)
    (htoUpdate : ∀ v, v ∈ toUpdate ↔ v ∈ seen ++ [n] ∧ isCond g v = false) :
    SplitInv g (seen ++ [n]) { st with toUpdate } := by
  have hin : SplitIn g (seen ++ [n]) = SplitIn g seen := by
    funext v
    apply propext
    rw [splitIn_snoc]
    exact ⟨fun hv => hv.resolve_right fun hv => hnot hv.2, Or.inl⟩
  have hlost : LostIn g (seen ++ [n]) = LostIn g seen := by
    funext p s
    apply propext
    rw [lostIn_snoc]
    exact ⟨fun hp => hp.resolve_right fun hp => hnot hp.2.1, Or.inl⟩
  constructor
  case sub =>
    intro v hv
    rcases List.mem_append.mp hv with hv | hv
    · exact h.sub v hv
    · exact List.mem_singleton.mp hv ▸ hn
  case sound => exact h.sound
  case fresh => exact h.fresh
  case old => exact hin ▸ h.old
  case new => exact hin ▸ h.new
  case apart => exact hin ▸ h.apart
  case mem => exact hin ▸ h.mem
  case entry => exact h.entry
  case edge => exact hin ▸ h.edge
  case catchEdge => exact hlost ▸ h.catchEdge
  case whole => exact hin ▸ h.whole
  case conds => exact h.conds
  case parts => exact hin ▸ h.parts
  case toUpdate => exact htoUpdate

section Step

/-- The node map after the split of `n`. -/
abbrev extended (st : Splitting I) (n : Nat) : NodeMap :=
  ((st.nodeMap.insert n st.graph.fresh).insert st.graph.fresh st.graph.fresh).insert
    (st.graph.fresh + 1) (st.graph.fresh + 1)

omit [DecidableEq I] in
theorem get_extended : (extended st n).get x =
    if x = st.graph.fresh + 1 then st.graph.fresh + 1
    else if x = st.graph.fresh then st.graph.fresh
    else if x = n then st.graph.fresh else st.nodeMap.get x := by
  have hinsert (m : NodeMap) (k v : Nat) :
      NodeMap.get (m.insert k v) x = if x = k then v else m.get x := by
    unfold NodeMap.get
    split
    · subst x
      rw [AList.lookup_insert]
      rfl
    · rename_i hne
      rw [AList.lookup_insert_ne hne]
  unfold extended
  rw [hinsert, hinsert, hinsert]

variable (h : SplitInv g seen st) (hg : g.Sound) (hn : n ∈ g.nodes) (hnew : n ∉ seen)

omit [DecidableEq I] in
include h in
theorem SplitInv.get_cases (v : Nat) : (¬ SplitIn g seen v ∧ st.nodeMap.get v = v) ∨
    (SplitIn g seen v ∧ g.fresh ≤ st.nodeMap.get v ∧
      st.nodeMap.get v + 1 < st.graph.fresh) := by
  by_cases hv : SplitIn g seen v
  · exact Or.inr ⟨hv, h.new v hv⟩
  · exact Or.inl ⟨hv, h.old v hv⟩

omit [DecidableEq I] in
include h hg in
theorem SplitInv.condOf_cases (hv : v ∈ g.nodes) :
    (¬ SplitIn g seen v ∧ condOf st.nodeMap v = v) ∨
      (SplitIn g seen v ∧ condOf st.nodeMap v = st.nodeMap.get v + 1) := by
  have hlt := hg.freshNodes v hv
  unfold condOf
  rcases h.get_cases v with ⟨hnot, hget⟩ | ⟨hin, hget, -⟩
  · exact Or.inl ⟨hnot, if_pos hget⟩
  · exact Or.inr ⟨hin, if_neg (by omega)⟩

omit [DecidableEq I] in
include h hg in
/-- The nodes of the graph keep their names. -/
theorem SplitInv.get_live (hx : x ∈ st.graph.nodes) : st.nodeMap.get x = x := by
  apply h.old
  intro hin
  have hlt := hg.freshNodes x (h.sub x hin.1)
  rcases (h.mem x).mp hx with ⟨-, hnot⟩ | ⟨u, hu, hxu⟩
  · exact hnot hin
  · have := h.new u hu
    omega

omit [DecidableEq I] in
include h hg hn hnew in
theorem SplitInv.not_in : ¬ SplitIn g seen n ∧ st.nodeMap.get n = n ∧
    condOf st.nodeMap n = n ∧ n < g.fresh := by
  have hnot : ¬ SplitIn g seen n := fun hin => hnew hin.1
  have hget := h.old n hnot
  exact ⟨hnot, hget, if_pos hget, hg.freshNodes n hn⟩

omit [DecidableEq I] in
include h hg hn hnew in
/-- No other node of the source is mapped to `n`. -/
theorem SplitInv.get_eq_iff : st.nodeMap.get v = n ↔ v = n := by
  obtain ⟨-, hget, -, hlt⟩ := h.not_in hg hn hnew
  constructor
  · intro heq
    rcases h.get_cases v with ⟨-, hv⟩ | ⟨-, hv, -⟩
    · exact hv.symm.trans heq
    · omega
  · rintro rfl
    exact hget

omit [DecidableEq I] in
include h hg hn hnew in
theorem SplitInv.live : ∀ p, p ∈ st.graph.nodes ∨ p = st.graph.fresh ∨ p = st.graph.fresh + 1 →
    (extended st n).get p = moved n st.graph.fresh p := by
  have hlt := (h.not_in hg hn hnew).2.2.2
  have hfresh := h.fresh
  intro p hp
  rw [get_extended]
  unfold moved
  rcases hp with hp | rfl | rfl
  · have hpf := h.sound.freshNodes p hp
    rw [if_neg (by omega), if_neg (by omega), h.get_live hg hp]
  · rw [if_neg (by omega), if_pos rfl, if_neg (by omega)]
  · rw [if_pos rfl, if_neg (by omega)]

omit [DecidableEq I] in
include h hg hn hnew in
theorem SplitInv.get_moved (hv : v ∈ g.nodes) :
    (extended st n).get v = moved n st.graph.fresh (st.nodeMap.get v) := by
  have hlt := hg.freshNodes v hv
  have hfresh := h.fresh
  rw [get_extended, if_neg (by omega), if_neg (by omega)]
  unfold moved
  simp only [h.get_eq_iff hg hn hnew]

omit [DecidableEq I] in
include h hg hn hnew in
theorem SplitInv.condOf_moved (hv : v ∈ g.nodes) :
    condOf (extended st n) v = moved n (st.graph.fresh + 1) (condOf st.nodeMap v) := by
  obtain ⟨-, -, hcondn, hlt⟩ := h.not_in hg hn hnew
  have hvlt := hg.freshNodes v hv
  have hfresh := h.fresh
  have hget := h.get_moved hg hn hnew hv
  rcases eq_or_ne v n with rfl | hne
  · rw [hcondn, moved_self]
    rw [(h.not_in hg hn hnew).2.1, moved_self] at hget
    unfold condOf
    rw [hget, if_neg (by omega)]
  · have hother : st.nodeMap.get v ≠ n := fun heq => hne ((h.get_eq_iff hg hn hnew).mp heq)
    rw [moved_of_ne hother] at hget
    have hsame : condOf (extended st n) v = condOf st.nodeMap v := by
      unfold condOf
      rw [hget]
    have hcond : condOf st.nodeMap v ≠ n := by
      rcases h.condOf_cases hg hv with ⟨-, heq⟩ | ⟨hin, heq⟩
      · rw [heq]
        exact hne
      · have := h.new v hin
        omega
    rw [hsame, moved_of_ne hcond]

omit [DecidableEq I] in
include h hg hn hnew in
theorem SplitInv.get_in (hv : SplitIn g seen v) :
    (extended st n).get v = st.nodeMap.get v := by
  have hmem := h.sub v hv.1
  have hne : st.nodeMap.get v ≠ n := by
    rw [Ne, h.get_eq_iff hg hn hnew]
    rintro rfl
    exact hnew hv.1
  rw [h.get_moved hg hn hnew hmem, moved_of_ne hne]

omit [DecidableEq I] in
include h hg hn hnew in
theorem SplitInv.get_self : (extended st n).get n = st.graph.fresh := by
  rw [h.get_moved hg hn hnew hn, (h.not_in hg hn hnew).2.1, moved_self]

omit [DecidableEq I] in
include h hg hn hnew in
/-- The edges into `n`: from a whole predecessor its own, from a split one that
of its test. -/
theorem SplitInv.edge_node (hp : p ∈ g.nodes) :
    st.graph.Edge (st.nodeMap.get p) n ↔ g.Edge p n ∧ ¬ SplitIn g seen p := by
  obtain ⟨-, hgetn, -, hlt⟩ := h.not_in hg hn hnew
  have hplt := hg.freshNodes p hp
  rw [h.edge]
  constructor
  · rintro (⟨q, t, hqt, hq, ht⟩ | ⟨u, hu, -, heq⟩)
    · obtain rfl := (h.get_eq_iff hg hn hnew).mp ht.symm
      have hqlt := hg.freshNodes q (hg.edgeMem q _ hqt).1
      rcases h.get_cases p with ⟨hpin, hpget⟩ | ⟨hpin, hpget, -⟩
      · rcases h.condOf_cases hg (hg.edgeMem q _ hqt).1 with ⟨-, hcond⟩ | ⟨hqin, hcond⟩
        · obtain rfl : p = q := by omega
          exact ⟨hqt, hpin⟩
        · have := h.new q hqin
          omega
      · rcases h.condOf_cases hg (hg.edgeMem q _ hqt).1 with ⟨-, hcond⟩ | ⟨hqin, hcond⟩
        · omega
        · rcases eq_or_ne p q with rfl | hne
          · omega
          · have := h.apart p q hpin hqin hne
            omega
    · have := h.new u hu
      omega
  · rintro ⟨hpn, hnot⟩
    have hget := h.old p hnot
    exact Or.inl ⟨p, n, hpn, by rw [hget]; exact (if_pos hget).symm, hgetn.symm⟩

omit [DecidableEq I] in
include h in
/-- Branches are successors in every graph of the run. -/
theorem SplitInv.follows (hfollow : BranchesFollow g) {side : Bool} {t : Nat} (hv : v ∈ g.nodes)
    (hc : isCond g v = true)
    (hb : (st.graph.heap (condOf st.nodeMap v)).branch side = some t) :
    st.graph.Edge (condOf st.nodeMap v) t := by
  rw [(h.conds v hv hc).2, Option.map_eq_some_iff] at hb
  obtain ⟨t0, ht0, rfl⟩ := hb
  exact (h.edge _ _).mpr (Or.inl ⟨v, t0, hfollow v hv hc side t0 ht0, rfl, rfl⟩)

omit [DecidableEq I] in
include h hg in
theorem SplitInv.condOf_mem (hv : v ∈ g.nodes) : condOf st.nodeMap v ∈ st.graph.nodes := by
  apply (h.mem _).mpr
  rcases h.condOf_cases hg hv with ⟨hnot, heq⟩ | ⟨hin, heq⟩
  · exact Or.inl ⟨heq.symm ▸ hv, heq.symm ▸ hnot⟩
  · exact Or.inr ⟨v, hin, Or.inr heq⟩

include h hg hn hnew in
/-- The test of any other condition. -/
theorem SplitInv.old_cond (hfollow : BranchesFollow g) (hv : v ∈ g.nodes)
    (hc : isCond g v = true) (hne : v ≠ n) :
    ((split (extended st n) st.graph n).heap (condOf st.nodeMap v)).core =
        (st.graph.heap (condOf st.nodeMap v)).core ∧
      ∀ side, ((split (extended st n) st.graph n).heap (condOf st.nodeMap v)).branch side =
        ((st.graph.heap (condOf st.nodeMap v)).branch side).map (moved n st.graph.fresh) := by
  obtain ⟨hnot, -, -, hlt⟩ := h.not_in hg hn hnew
  have hnode : n ∈ st.graph.nodes := (h.mem n).mpr (Or.inl ⟨hn, hnot⟩)
  have hcond : condOf st.nodeMap v ≠ n := by
    rcases h.condOf_cases hg hv with ⟨-, heq⟩ | ⟨hin, heq⟩
    · rw [heq]
      exact hne
    · have := h.new v hin
      omega
  obtain ⟨hcore, hbranch⟩ := split_old h.sound hnode (h.live hg hn hnew) (h.condOf_mem hg hv) hcond
    fun side _ hb => h.follows hfollow hv hc hb
  refine ⟨hcore, fun side => ?_⟩
  rw [hbranch side, if_pos (h.conds v hv hc).1]

include h hg hn hnew in
/-- One split keeps the invariant. -/
theorem SplitInv.split (hfollow : BranchesFollow g) (hsplit : Split g n) :
    SplitInv g (seen ++ [n])
      { st with
        graph := split (extended st n) st.graph n
        nodeMap := extended st n } := by
  obtain ⟨hnot, hgetn, hcondn, hlt⟩ := h.not_in hg hn hnew
  have hnode : n ∈ st.graph.nodes := (h.mem n).mpr (Or.inl ⟨hn, hnot⟩)
  have hlive := h.live hg hn hnew
  have hfresh := h.fresh
  obtain ⟨hsound', hmem', hentry', hfresh'⟩ := split_frame h.sound hnode hlive
  have hself := h.get_self hg hn hnew
  have hmap (o : Option Nat) (ho : ∀ v, o = some v → v ∈ g.nodes) :
      (o.map st.nodeMap.get).map (moved n st.graph.fresh) = o.map (extended st n).get := by
    cases o with
    | none => rfl
    | some v =>
      rw [Option.map_some, Option.map_some, Option.map_some, h.get_moved hg hn hnew (ho v rfl)]
  have hbranchMem {v side t} (hv : v ∈ g.nodes) (hc : isCond g v = true)
      (hb : (g.heap v).branch side = some t) : t ∈ g.nodes :=
    (hg.edgeMem v t (hfollow v hv hc side t hb)).2
  constructor
  case sub =>
    intro v hv
    rcases List.mem_append.mp hv with hv | hv
    · exact h.sub v hv
    · exact List.mem_singleton.mp hv ▸ hn
  case sound => exact hsound'
  case fresh =>
    dsimp only
    omega
  case old =>
    intro v hv
    rw [splitIn_snoc, not_or] at hv
    have hne : v ≠ n := fun heq => hv.2 ⟨heq, hsplit⟩
    dsimp only
    rw [get_extended, if_neg hne]
    split
    · exact (by assumption : v = _).symm
    · split
      · exact (by assumption : v = _).symm
      · exact h.old v hv.1
  case new =>
    intro v hv
    dsimp only
    rcases splitIn_snoc.mp hv with hv | ⟨rfl, -⟩
    · have := h.new v hv
      rw [h.get_in hg hn hnew hv]
      omega
    · rw [hself]
      omega
  case apart =>
    intro u v hu hv hne
    dsimp only
    rcases splitIn_snoc.mp hu with huIn | ⟨heq, -⟩
    · have hulow := h.new u huIn
      rcases splitIn_snoc.mp hv with hvIn | ⟨heq, -⟩
      · rw [h.get_in hg hn hnew huIn, h.get_in hg hn hnew hvIn]
        exact h.apart u v huIn hvIn hne
      · rw [h.get_in hg hn hnew huIn, heq, hself]
        omega
    · rcases splitIn_snoc.mp hv with hvIn | ⟨heq', -⟩
      · have hvlow := h.new v hvIn
        rw [h.get_in hg hn hnew hvIn, heq, hself]
        omega
      · exact absurd (heq.trans heq'.symm) hne
  case mem =>
    intro v
    dsimp only
    rw [hmem', h.mem]
    constructor
    · rintro (⟨⟨hv, hin⟩ | ⟨u, hu, heq⟩, hne⟩ | heq)
      · refine Or.inl ⟨hv, fun hin' => ?_⟩
        rcases splitIn_snoc.mp hin' with hin' | ⟨heq, -⟩
        · exact hin hin'
        · exact hne heq
      · refine Or.inr ⟨u, splitIn_snoc.mpr (Or.inl hu), ?_⟩
        rw [h.get_in hg hn hnew hu]
        exact heq
      · refine Or.inr ⟨n, splitIn_snoc.mpr (Or.inr ⟨rfl, hsplit⟩), ?_⟩
        rw [hself]
        exact heq
    · rintro (⟨hv, hin⟩ | ⟨u, hu, heq⟩)
      · rw [splitIn_snoc, not_or] at hin
        exact Or.inl ⟨Or.inl ⟨hv, hin.1⟩, fun heq => hin.2 ⟨heq, hsplit⟩⟩
      · rcases splitIn_snoc.mp hu with hu | ⟨rfl, -⟩
        · rw [h.get_in hg hn hnew hu] at heq
          have := h.new u hu
          exact Or.inl ⟨Or.inr ⟨u, hu, heq⟩, by omega⟩
        · rw [hself] at heq
          exact Or.inr heq
  case entry =>
    dsimp only
    rw [hentry', h.entry]
    exact hmap g.entry hg.entryMem
  case edge =>
    intro a b
    dsimp only
    rw [split_edge h.sound hnode hlive]
    constructor
    · rintro (⟨p, s, hps, rfl, rfl⟩ | ⟨rfl, rfl⟩)
      · rcases (h.edge p s).mp hps with ⟨q, t, hqt, rfl, rfl⟩ | ⟨u, hu, rfl, rfl⟩
        · obtain ⟨hp, hs⟩ := hg.edgeMem q t hqt
          exact Or.inl ⟨q, t, hqt, (h.condOf_moved hg hn hnew hp).symm,
            (h.get_moved hg hn hnew hs).symm⟩
        · have := h.new u hu
          rw [moved_of_ne (by omega), moved_of_ne (by omega), ← h.get_in hg hn hnew hu]
          exact Or.inr ⟨u, splitIn_snoc.mpr (Or.inl hu), rfl, rfl⟩
      · exact Or.inr ⟨n, splitIn_snoc.mpr (Or.inr ⟨rfl, hsplit⟩), hself.symm, by rw [hself]⟩
    · rintro (⟨p, s, hps, rfl, rfl⟩ | ⟨u, hu, rfl, rfl⟩)
      · obtain ⟨hp, hs⟩ := hg.edgeMem p s hps
        exact Or.inl ⟨_, _, (h.edge _ _).mpr (Or.inl ⟨p, s, hps, rfl, rfl⟩),
          h.condOf_moved hg hn hnew hp, h.get_moved hg hn hnew hs⟩
      · rcases splitIn_snoc.mp hu with hu | ⟨rfl, -⟩
        · have := h.new u hu
          refine Or.inl ⟨_, _, (h.edge _ _).mpr (Or.inr ⟨u, hu, rfl, rfl⟩), ?_, ?_⟩
          · rw [h.get_in hg hn hnew hu, moved_of_ne (by omega)]
          · rw [h.get_in hg hn hnew hu, moved_of_ne (by omega)]
        · exact Or.inr ⟨hself, by rw [hself]⟩
  case catchEdge =>
    intro a b
    dsimp only
    rw [split_catchEdge h.sound hnode hlive]
    constructor
    · rintro ⟨p', s', hps', hkept, rfl, rfl⟩
      obtain ⟨p, s, hps, hlost, rfl, rfl⟩ := (h.catchEdge _ _).mp hps'
      obtain ⟨hp, hs⟩ := hg.catchMem p s hps
      refine ⟨p, s, hps, ?_, (h.get_moved hg hn hnew hp).symm, (h.get_moved hg hn hnew hs).symm⟩
      rw [lostIn_snoc, not_or]
      refine ⟨hlost, ?_⟩
      rintro ⟨rfl, -, hne, hedge, hin⟩
      exact hkept ⟨hgetn, fun heq => hne ((h.get_eq_iff hg hn hnew).mp heq),
        (h.edge_node hg hn hnew hp).mpr ⟨hedge, hin⟩⟩
    · rintro ⟨p, s, hps, hlost, rfl, rfl⟩
      obtain ⟨hp, hs⟩ := hg.catchMem p s hps
      rw [lostIn_snoc, not_or] at hlost
      refine ⟨_, _, (h.catchEdge _ _).mpr ⟨p, s, hps, hlost.1, rfl, rfl⟩, ?_,
        h.get_moved hg hn hnew hp, h.get_moved hg hn hnew hs⟩
      rintro ⟨hsn, hpn, hedge⟩
      obtain rfl := (h.get_eq_iff hg hn hnew).mp hsn
      obtain ⟨hedge, hin⟩ := (h.edge_node hg hn hnew hp).mp hedge
      exact hlost.2 ⟨rfl, hsplit, fun heq => hpn (heq ▸ hgetn), hedge, hin⟩
  case whole =>
    intro v hv hin
    rw [splitIn_snoc, not_or] at hin
    have hne : v ≠ n := fun heq => hin.2 ⟨heq, hsplit⟩
    have hvlive : v ∈ st.graph.nodes := (h.mem v).mpr (Or.inl ⟨hv, hin.1⟩)
    have hcondv : condOf st.nodeMap v = v := if_pos (h.old v hin.1)
    obtain ⟨hcore, hbranch⟩ := h.whole v hv hin.1
    obtain ⟨hcore', hbranch'⟩ := split_old h.sound hnode hlive hvlive hne (by
      intro side hc hb
      rw [isCond_congr hcore] at hc
      rw [← hcondv] at hb ⊢
      exact h.follows hfollow hv hc hb)
    refine ⟨hcore'.trans hcore, fun hc side => ?_⟩
    have hc' : ¬ isCond st.graph v = true := by rw [isCond_congr hcore, hc]; simp
    dsimp only
    rw [hbranch', if_neg hc', hbranch hc]
  case conds =>
    intro v hv hc
    obtain ⟨hcv, hbranch⟩ := h.conds v hv hc
    dsimp only
    rw [h.condOf_moved hg hn hnew hv]
    rcases eq_or_ne v n with heq | hne
    · subst heq
      rw [hcondn] at hcv hbranch ⊢
      rw [moved_self]
      obtain ⟨hcond', -, hbranch'⟩ := split_cond h.sound hnode hlive hcv (by
        intro side t hb
        rw [← hcondn] at hb ⊢
        exact h.follows hfollow hv hc hb)
      refine ⟨hcond', fun side => ?_⟩
      rw [hbranch', hbranch]
      exact hmap _ fun t hb => hbranchMem hv hc hb
    · have hcond : condOf st.nodeMap v ≠ n := by
        rcases h.condOf_cases hg hv with ⟨-, heq⟩ | ⟨hin, heq⟩
        · rw [heq]
          exact hne
        · have := h.new v hin
          omega
      obtain ⟨hcore', hbranch'⟩ := h.old_cond hg hn hnew hfollow hv hc hne
      rw [moved_of_ne hcond]
      refine ⟨(isCond_congr hcore').trans hcv, fun side => ?_⟩
      rw [hbranch', hbranch]
      exact hmap _ fun t hb => hbranchMem hv hc hb
  case parts =>
    intro v hv
    dsimp only
    rcases splitIn_snoc.mp hv with hvIn | ⟨heq, -⟩
    · have hlow := h.new v hvIn
      obtain ⟨hcls, hins, hlast⟩ := h.parts v hvIn
      have hvmem := h.sub v hvIn.1
      rw [h.get_in hg hn hnew hvIn]
      have hprelive : st.nodeMap.get v ∈ st.graph.nodes :=
        (h.mem _).mpr (Or.inr ⟨v, hvIn, Or.inl rfl⟩)
      have hnotCond : ¬ isCond st.graph (st.nodeMap.get v) = true := by
        unfold isCond Block.isCondBlock
        rw [hcls]
        simp
      obtain ⟨hcore, -⟩ := split_old h.sound hnode hlive hprelive (by omega)
        fun side hc => absurd hc hnotCond
      have hcondv : condOf st.nodeMap v = st.nodeMap.get v + 1 := by
        rcases h.condOf_cases hg hvmem with ⟨hout, -⟩ | ⟨-, heq⟩
        · exact absurd hvIn hout
        · exact heq
      obtain ⟨hcore', -⟩ := h.old_cond hg hn hnew hfollow hvmem hvIn.2.1 (by
        rintro rfl
        exact hnew hvIn.1)
      rw [hcondv] at hcore'
      have hcls' := congrArg Block.cls hcore
      have hins' := congrArg Block.ins hcore
      have hlast' := congrArg Block.ins hcore'
      exact ⟨hcls'.trans hcls, hins'.trans hins, hlast'.trans hlast⟩
    · subst heq
      have hcore := (h.whole v hn hnot).1
      have hins : (st.graph.heap v).core.ins = (g.heap v).core.ins := by rw [hcore]
      change (st.graph.heap v).ins = (g.heap v).ins at hins
      obtain ⟨hcls, hpre⟩ := split_pre h.sound hnode hlive
      obtain ⟨-, hlast, -⟩ := split_cond h.sound hnode hlive
        ((isCond_congr (h.whole v hn hnot).1).trans hsplit.1) (by
          intro side t hb
          rw [← hcondn] at hb ⊢
          exact h.follows hfollow hn hsplit.1 hb)
      rw [hself, ← hins]
      exact ⟨hcls, hpre, hlast⟩
  case toUpdate =>
    intro v
    dsimp only
    rw [h.toUpdate, List.mem_append, List.mem_singleton]
    constructor
    · exact fun hv => ⟨Or.inl hv.1, hv.2⟩
    · rintro ⟨hv | rfl, hc⟩
      · exact ⟨hv, hc⟩
      · exact absurd (hsplit.1.symm.trans hc) Bool.noConfusion

include h hg hn hnew in
theorem SplitInv.splitNode (hfollow : BranchesFollow g) :
    SplitInv g (seen ++ [n]) (splitNode st n) := by
  obtain ⟨hnot, -⟩ := h.not_in hg hn hnew
  have hcore := (h.whole n hn hnot).1
  have hins : (st.graph.heap n).core.ins = (g.heap n).core.ins := by rw [hcore]
  change (st.graph.heap n).ins = (g.heap n).ins at hins
  unfold Splitting.splitNode
  rw [isCond_congr hcore, hins]
  split
  · rename_i hc
    apply h.keep hn fun hsplit => hc hsplit.1
    intro v
    rw [mem_pushNew, h.toUpdate, List.mem_append, List.mem_singleton]
    constructor
    · rintro (hv | rfl)
      · exact ⟨Or.inl hv.1, hv.2⟩
      · exact ⟨Or.inr rfl, by simpa using hc⟩
    · rintro ⟨hv | rfl, hcv⟩
      · exact Or.inl ⟨hv, hcv⟩
      · exact Or.inr rfl
  · rename_i hc
    have hc : isCond g n = true := by simpa using hc
    split
    · rename_i hlen
      apply h.keep hn fun hsplit => absurd hsplit.2 (by omega)
      intro v
      rw [h.toUpdate, List.mem_append, List.mem_singleton]
      constructor
      · exact fun hv => ⟨Or.inl hv.1, hv.2⟩
      · rintro ⟨hv | rfl, hcv⟩
        · exact ⟨hv, hcv⟩
        · exact absurd (hc.symm.trans hcv) Bool.noConfusion
    · rename_i hlen
      exact h.split hg hn hnew hfollow ⟨hc, by omega⟩

end Step

theorem SplitInv.foldl (hg : g.Sound) (hfollow : BranchesFollow g) {rest : List Nat}
    (h : SplitInv g seen st) (hall : g.nodes = seen ++ rest) :
    SplitInv g g.nodes (rest.foldl Splitting.splitNode st) := by
  induction rest generalizing seen st with
  | nil =>
    rw [List.append_nil] at hall
    exact hall ▸ h
  | cons n rest ih =>
    have hn : n ∈ g.nodes := by rw [hall]; simp
    have hnew : n ∉ seen := by
      have hnodup := hg.nodup
      rw [hall] at hnodup
      intro hmem
      exact (List.nodup_append.mp hnodup).2.2 n hmem n List.mem_cons_self rfl
    exact ih (h.splitNode hg hn hnew hfollow) (by rw [hall]; simp)

/-- The loop over the snapshot keeps the invariant. -/
theorem run_inv (hg : g.Sound) (hfollow : BranchesFollow g) : SplitInv g g.nodes (run g) :=
  (inv_start hg).foldl hg hfollow rfl

end Splitting

end Dexllm.Dad
