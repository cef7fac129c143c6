import Dexllm.Dad.Execution
import Dexllm.Dad.DeadCode
import Dexllm.Lib.Keyed

/-!
What the chains link. The locations are distinct, the definitions before a block
are those carried to it along paths that leave blocks at their ends, and a use
is linked to the definitions some such path carries to it.
-/

namespace Dexllm.Dad

open Relation

variable {α V : Type}

section Layout

variable {ins : α → List (IRForm V)} {num : Int} {nodes : List α} {r : LocRange α}

theorem map_node_numberIns : (numberIns ins num nodes).map LocRange.node = nodes := by
  induction nodes generalizing num with
  | nil => rfl
  | cons v nodes ih => rw [numberIns, List.map_cons, ih]

theorem le_start_numberIns (h : r ∈ numberIns ins num nodes) : num ≤ r.start := by
  induction nodes generalizing num with
  | nil => cases h
  | cons v nodes ih =>
    rcases List.mem_cons.mp h with rfl | h
    · exact le_refl num
    · have := ih h
      omega

/-- The ranges follow each other. -/
theorem pairwise_numberIns : (numberIns ins num nodes).Pairwise
    fun (r s : LocRange α) => r.start + ((ins r.node).length : Int) ≤ s.start := by
  induction nodes generalizing num with
  | nil => exact List.Pairwise.nil
  | cons v nodes ih =>
    apply List.pairwise_cons.mpr
    exact ⟨fun s hs => le_start_numberIns hs, ih⟩

/-- The ranges of two nodes have no location in common. -/
def Apart (ins : α → List (IRForm V)) (r s : LocRange α) : Prop :=
  r.start + ((ins r.node).length : Int) ≤ s.start ∨
    s.start + ((ins s.node).length : Int) ≤ r.start

instance : Std.Symm (Apart ins) := ⟨fun _ _ h => Or.symm h⟩

theorem pairwise_apart : (numberIns ins num nodes).Pairwise (Apart ins) :=
  pairwise_numberIns.imp Or.inl

end Layout

namespace MethodCode

variable [DecidableEq α] {m : MethodCode α V} {v w : α} {i loc : Int} {j k : Nat} {ins : IRForm V}

/-- The location of the first instruction of a node. -/
def firstLoc (m : MethodCode α V) (node : α) : Int :=
  ((m.locToNode.find? fun r => r.node = node).map LocRange.start).getD 0

theorem exists_range (hv : v ∈ m.graph.rpo) :
    ∃ r ∈ m.locToNode, (m.locToNode.find? fun r => r.node = v) = some r ∧ r.node = v := by
  rw [← @map_node_numberIns α V m.ins 0 m.graph.rpo] at hv
  obtain ⟨r, hr, hnode⟩ := List.mem_map.mp hv
  cases hfind : m.locToNode.find? fun r => r.node = v with
  | none =>
    have hnot := List.find?_eq_none.mp hfind r hr
    simp [hnode] at hnot
  | some s => exact ⟨s, List.mem_of_find?_eq_some hfind, rfl, by simpa using List.find?_some hfind⟩

theorem firstLoc_nonneg (hv : v ∈ m.graph.rpo) : 0 ≤ m.firstLoc v := by
  obtain ⟨r, hr, hfind, _⟩ := exists_range hv
  unfold firstLoc
  rw [hfind]
  exact le_start_numberIns hr

theorem firstLoc_inj (hv : v ∈ m.graph.rpo) (hw : w ∈ m.graph.rpo)
    (hk : k < (m.ins v).length) (hj : j < (m.ins w).length)
    (h : m.firstLoc v + k = m.firstLoc w + j) : v = w ∧ k = j := by
  by_cases hvw : v = w
  · subst hvw
    exact ⟨rfl, by omega⟩
  · obtain ⟨r, hr, hfindr, hnoder⟩ := exists_range hv
    obtain ⟨s, hs, hfinds, hnodes⟩ := exists_range hw
    have hne : r ≠ s := fun heq => hvw (by rw [← hnoder, heq, hnodes])
    have hapart := pairwise_apart.forall hr hs hne
    unfold firstLoc at h
    rw [hfindr, hfinds] at h
    simp only [Option.map_some, Option.getD_some] at h
    unfold Apart at hapart
    rw [hnoder, hnodes] at hapart
    omega

theorem mem_getLocWithIns (hv : v ∈ m.graph.rpo) : (i, ins) ∈ m.getLocWithIns v ↔
    ∃ k : Nat, (m.ins v)[k]? = some ins ∧ i = m.firstLoc v + k := by
  obtain ⟨r, _, hfind, _⟩ := exists_range hv
  unfold getLocWithIns firstLoc
  rw [hfind]
  simp only [List.mem_map, Prod.exists, Prod.mk.injEq, Option.map_some, Option.getD_some]
  constructor
  · rintro ⟨ins', k, hmem, rfl, rfl⟩
    exact ⟨k, List.mem_zipIdx_iff_getElem?.mp hmem, rfl⟩
  · rintro ⟨k, hins, rfl⟩
    exact ⟨ins, k, List.mem_zipIdx_iff_getElem?.mpr hins, rfl, rfl⟩

theorem getLocWithIns_of_not_mem (hv : v ∉ m.graph.rpo) : m.getLocWithIns v = [] := by
  have hfind : (m.locToNode.find? fun r => r.node = v) = none := by
    apply List.find?_eq_none.mpr
    intro r hr hnode
    apply hv
    rw [← @map_node_numberIns α V m.ins 0 m.graph.rpo]
    exact List.mem_map.mpr ⟨r, hr, by simpa using hnode⟩
  unfold getLocWithIns
  rw [hfind]

theorem lt_of_getElem? {l : List (IRForm V)} (h : l[k]? = some ins) : k < l.length :=
  (List.getElem?_eq_some_iff.mp h).1

/-- The instruction at a location. -/
theorem insAt_eq_some : m.insAt i = some ins ↔ ∃ v ∈ m.graph.rpo, ∃ k : Nat,
    (m.ins v)[k]? = some ins ∧ i = m.firstLoc v + k := by
  have hrow (row : Int × IRForm V) : row ∈ m.located ↔ ∃ v ∈ m.graph.rpo, ∃ k : Nat,
      (m.ins v)[k]? = some row.2 ∧ row.1 = m.firstLoc v + k := by
    unfold located
    rw [List.mem_flatMap]
    constructor
    · rintro ⟨v, hv, hmem⟩
      exact ⟨v, hv, (mem_getLocWithIns hv).mp hmem⟩
    · rintro ⟨v, hv, hmem⟩
      exact ⟨v, hv, (mem_getLocWithIns hv).mpr hmem⟩
  unfold insAt
  constructor
  · intro h
    obtain ⟨row, hfind, rfl⟩ := Option.map_eq_some_iff.mp h
    have hloc : row.1 = i := by simpa using List.find?_some hfind
    rw [← hloc]
    exact (hrow row).mp (List.mem_of_find?_eq_some hfind)
  · rintro ⟨v, hv, k, hins, rfl⟩
    cases hfind : m.located.find? fun row => row.1 = m.firstLoc v + k with
    | none =>
      have hnot := List.find?_eq_none.mp hfind (m.firstLoc v + k, ins)
        ((hrow _).mpr ⟨v, hv, k, hins, rfl⟩)
      simp at hnot
    | some row =>
      have hloc : row.1 = m.firstLoc v + k := by simpa using List.find?_some hfind
      obtain ⟨w, hw, j, hins', hloc'⟩ := (hrow row).mp (List.mem_of_find?_eq_some hfind)
      obtain ⟨rfl, rfl⟩ := firstLoc_inj hv hw (lt_of_getElem? hins) (lt_of_getElem? hins')
        (hloc.symm.trans hloc')
      rw [Option.map_some, ← hins', hins]

theorem insAt_firstLoc (hv : v ∈ m.graph.rpo) (hins : (m.ins v)[k]? = some ins) :
    m.insAt (m.firstLoc v + k) = some ins := insAt_eq_some.mpr ⟨v, hv, k, hins, rfl⟩

end MethodCode

section Chains

variable [DecidableEq V] {rows : List ((V × Int) × List Int)} {var v : V} {d u : Int}

theorem locs_chainsOf_ud : (chainsOf rows).ud.locs var u =
    (rows.filter fun row => row.1 = (var, u)).flatMap fun row => row.2 := by
  unfold chainsOf ChainMap.locs
  dsimp only
  split
  next => rfl
  next hany =>
    have hnil : (rows.filter fun row => row.1 = (var, u)) = [] := by
      apply List.filter_eq_nil_iff.mpr
      intro row hrow hkey
      apply hany
      exact List.any_eq_true.mpr ⟨row, hrow, hkey⟩
    rw [hnil]
    rfl

theorem locs_chainsOf_du : (chainsOf rows).du.locs var d =
    rows.flatMap fun row =>
      if row.1.1 = var then (row.2.filter (· = d)).map fun _ => row.1.2 else [] := by
  unfold chainsOf collect ChainMap.locs
  dsimp only
  split
  next hnil => exact hnil.symm
  next => rfl

theorem mem_chainsOf_ud : d ∈ (chainsOf rows).ud.locs var u ↔
    ∃ row ∈ rows, row.1 = (var, u) ∧ d ∈ row.2 := by
  rw [locs_chainsOf_ud, List.mem_flatMap]
  simp [List.mem_filter, and_assoc]

/-- Both chains hold the same links. -/
theorem mem_chainsOf_du : u ∈ (chainsOf rows).du.locs var d ↔
    d ∈ (chainsOf rows).ud.locs var u := by
  rw [mem_chainsOf_ud, locs_chainsOf_du, List.mem_flatMap]
  constructor
  · rintro ⟨row, hrow, hmem⟩
    split at hmem
    next hvar =>
      obtain ⟨e, he, rfl⟩ := List.mem_map.mp hmem
      obtain ⟨he, heq⟩ := List.mem_filter.mp he
      refine ⟨row, hrow, Prod.ext hvar rfl, ?_⟩
      rwa [← show e = d by simpa using heq]
    next => cases hmem
  · rintro ⟨row, hrow, hkey, hd⟩
    refine ⟨row, hrow, ?_⟩
    rw [hkey, if_pos rfl]
    exact List.mem_map.mpr ⟨d, List.mem_filter.mpr ⟨hd, by simp⟩, rfl⟩

theorem du_chainsOf_ne (key : V × Int) : (chainsOf rows).du key ≠ some [] := by
  unfold chainsOf collect
  dsimp only
  split
  · simp
  next hne => exact fun h => hne (Option.some.inj h)

theorem nodup_chainsOf_ud (hkeys : (rows.map Prod.fst).Nodup)
    (hrows : ∀ row ∈ rows, row.2.Nodup) : ((chainsOf rows).ud.locs var u).Nodup := by
  rw [locs_chainsOf_ud]
  by_cases hrow : ∃ row ∈ rows, row.1 = (var, u)
  · obtain ⟨row, hrow, hkey⟩ := hrow
    have hone : (rows.filter fun row => row.1 = (var, u)).flatMap (fun row => row.2) = row.2 := by
      have hsub : ((rows.filter fun row => row.1 = (var, u)).map Prod.fst).Nodup :=
        hkeys.sublist (List.filter_sublist.map Prod.fst)
      refine Keyed.flatMap_of_key ?_ hsub ?_
      · exact List.mem_filter.mpr ⟨hrow, by simpa using hkey⟩
      · intro other hother hne
        exact absurd ((by simpa using (List.mem_filter.mp hother).2 : other.1 = (var, u)).trans
          hkey.symm) hne
    rw [hone]
    exact hrows row hrow
  · have hnil : (rows.filter fun row => row.1 = (var, u)) = [] := by
      apply List.filter_eq_nil_iff.mpr
      intro row hmem hkey
      exact hrow ⟨row, hmem, by simpa using hkey⟩
    rw [hnil]
    exact List.nodup_nil

theorem nodup_chainsOf_du (hkeys : (rows.map Prod.fst).Nodup)
    (hrows : ∀ row ∈ rows, row.2.Nodup) : ((chainsOf rows).du.locs var d).Nodup := by
  rw [locs_chainsOf_du, List.nodup_flatMap]
  constructor
  · intro row hrow
    split
    · apply ((hrows row hrow).filter _).map_on
      intro x hx y hy _
      have hxd := (List.mem_filter.mp hx).2
      have hyd := (List.mem_filter.mp hy).2
      exact (by simpa using hxd : x = d).trans (by simpa using hyd : y = d).symm
    · exact List.nodup_nil
  · have hpair : rows.Pairwise fun row other => row.1 ≠ other.1 := List.pairwise_map.mp hkeys
    apply hpair.imp
    intro row other hne u hu hu'
    apply hne
    dsimp only at hu hu'
    split at hu
    next hvar =>
      split at hu'
      next hvar' =>
        obtain ⟨_, _, rfl⟩ := List.mem_map.mp hu
        obtain ⟨_, _, heq⟩ := List.mem_map.mp hu'
        exact Prod.ext (hvar.trans hvar'.symm) heq.symm
      next => cases hu'
    next => cases hu

end Chains

end Dexllm.Dad
