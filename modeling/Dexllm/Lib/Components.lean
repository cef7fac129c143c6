import Mathlib.Data.List.Nodup
import Mathlib.Data.List.Sort
import Mathlib.Logic.Relation

/-!
The class of an element under two neighbour functions, collected by two
alternating passes until neither adds an element.
-/

namespace Components

/-- Definitions and uses with the neighbours of each. -/
structure Links (α β : Type) where
  uses : α → List β
  defs : β → List α

variable {α β : Type}

/-- One use leads from `d` to `d'`. -/
def Links.Joined (g : Links α β) (d d' : α) : Prop := ∃ u ∈ g.uses d, d' ∈ g.defs u

def Links.Linked (g : Links α β) : α → α → Prop := Relation.ReflTransGen g.Joined

section Grow

variable [DecidableEq α] [LinearOrder β]

/-- Appends `x` unless it is there. -/
def adjoin (l : List α) (x : α) : List α := if x ∈ l then l else l ++ [x]

/-- Inserts `x` into an ascending list unless it is there. -/
def insertNew (l : List β) (x : β) : List β :=
  if x ∈ l then l else l.orderedInsert (· ≤ ·) x

variable {l xs : List α} {ys zs : List β} {x y : α} {u w : β}

theorem mem_foldl_adjoin : y ∈ xs.foldl adjoin l ↔ y ∈ l ∨ y ∈ xs := by
  induction xs generalizing l with
  | nil => simp
  | cons x xs ih =>
    rw [List.foldl_cons, ih, List.mem_cons, ← or_assoc]
    refine or_congr_left ?_
    unfold adjoin
    split
    next hx => exact ⟨Or.inl, fun h => h.elim id fun h => h ▸ hx⟩
    next => simp

theorem exists_foldl_adjoin (xs l : List α) : ∃ t, xs.foldl adjoin l = l ++ t := by
  induction xs generalizing l with
  | nil => exact ⟨[], (List.append_nil l).symm⟩
  | cons x xs ih =>
    obtain ⟨t, ht⟩ := ih (adjoin l x)
    rw [List.foldl_cons, ht]
    unfold adjoin
    split
    · exact ⟨t, rfl⟩
    · exact ⟨[x] ++ t, by rw [List.append_assoc]⟩

theorem nodup_foldl_adjoin (h : l.Nodup) : (xs.foldl adjoin l).Nodup := by
  induction xs generalizing l with
  | nil => exact h
  | cons x xs ih =>
    rw [List.foldl_cons]
    apply ih
    unfold adjoin
    split
    · exact h
    next hx => exact h.append (List.nodup_singleton x) (List.disjoint_singleton.mpr hx)

theorem mem_foldl_insertNew : w ∈ zs.foldl insertNew ys ↔ w ∈ ys ∨ w ∈ zs := by
  induction zs generalizing ys with
  | nil => simp
  | cons u zs ih =>
    rw [List.foldl_cons, ih, List.mem_cons, ← or_assoc]
    refine or_congr_left ?_
    unfold insertNew
    split
    next hu => exact ⟨Or.inl, fun h => h.elim id fun h => h ▸ hu⟩
    next => rw [List.mem_orderedInsert, or_comm]

theorem length_le_foldl_insertNew (ys zs : List β) :
    ys.length ≤ (zs.foldl insertNew ys).length := by
  induction zs generalizing ys with
  | nil => exact Nat.le_refl _
  | cons u zs ih =>
    refine Nat.le_trans ?_ (ih (insertNew ys u))
    unfold insertNew
    split
    · exact Nat.le_refl _
    · rw [List.orderedInsert_length]
      omega

/-- A pass that adds nothing finds what is there. -/
theorem foldl_insertNew_eq (h : (zs.foldl insertNew ys).length = ys.length) :
    zs.foldl insertNew ys = ys := by
  induction zs generalizing ys with
  | nil => rfl
  | cons u zs ih =>
    rw [List.foldl_cons] at h ⊢
    have hle := length_le_foldl_insertNew (insertNew ys u) zs
    by_cases hu : u ∈ ys
    · have hsame : insertNew ys u = ys := if_pos hu
      rw [hsame] at h ⊢
      exact ih h
    · have hlonger : (insertNew ys u).length = ys.length + 1 := by
        unfold insertNew
        rw [if_neg hu, List.orderedInsert_length]
      omega

theorem nodup_foldl_insertNew (h : ys.Nodup) : (zs.foldl insertNew ys).Nodup := by
  induction zs generalizing ys with
  | nil => exact h
  | cons u zs ih =>
    rw [List.foldl_cons]
    apply ih
    unfold insertNew
    split
    · exact h
    next hu => exact (List.perm_orderedInsert _ u ys).nodup_iff.mpr (List.nodup_cons.mpr ⟨hu, h⟩)

namespace Links

variable (g : Links α β)

def addDefs (uses : List β) (defs : List α) : List α := (uses.flatMap g.defs).foldl adjoin defs

/-- The first definition has brought its uses in at the start. -/
def addUses (defs : List α) (uses : List β) : List β :=
  ((defs.drop 1).flatMap g.uses).foldl insertNew uses

/-- Without a result the rounds have run out. -/
def saturate : Nat → List α × List β → Option (List α × List β)
  | 0, _ => none
  | fuel + 1, (defs, uses) =>
    let defs' := g.addDefs uses defs
    let uses' := g.addUses defs' uses
    if defs'.length = defs.length ∧ uses'.length = uses.length then some (defs', uses')
    else saturate fuel (defs', uses')

def component (fuel : Nat) (d : α) : Option (List α × List β) :=
  g.saturate fuel ([d], (g.uses d).foldl insertNew [])

/-- What a collection that starts with `d` has at every round. -/
structure Collects (d : α) (defs : List α) (uses : List β) : Prop where
  head : ∃ t, defs = d :: t
  started : ∀ u ∈ g.uses d, u ∈ uses
  defsLinked : ∀ e ∈ defs, g.Linked d e
  usesLinked : ∀ u ∈ uses, ∃ e, g.Linked d e ∧ u ∈ g.uses e
  nodupDefs : defs.Nodup
  nodupUses : uses.Nodup

variable {g} {d : α} {defs : List α} {uses : List β}

omit [DecidableEq α] in
theorem collects_start : g.Collects d [d] ((g.uses d).foldl insertNew []) where
  head := ⟨[], rfl⟩
  started := fun _ hu => mem_foldl_insertNew.mpr (.inr hu)
  defsLinked := fun _ he => List.mem_singleton.mp he ▸ .refl
  usesLinked := fun _ hu =>
    ⟨d, .refl, (mem_foldl_insertNew.mp hu).resolve_left List.not_mem_nil⟩
  nodupDefs := List.nodup_singleton d
  nodupUses := nodup_foldl_insertNew List.nodup_nil

theorem Collects.round (h : g.Collects d defs uses) :
    g.Collects d (g.addDefs uses defs) (g.addUses (g.addDefs uses defs) uses) := by
  have hdefs : ∀ e ∈ g.addDefs uses defs, g.Linked d e := by
    intro e he
    rcases mem_foldl_adjoin.mp he with he | he
    · exact h.defsLinked e he
    · obtain ⟨u, hu, heu⟩ := List.mem_flatMap.mp he
      obtain ⟨e', hlinked, hu'⟩ := h.usesLinked u hu
      exact hlinked.tail ⟨u, hu', heu⟩
  constructor
  · obtain ⟨t, rfl⟩ := h.head
    obtain ⟨t', ht'⟩ := exists_foldl_adjoin (uses.flatMap g.defs) (d :: t)
    exact ⟨t ++ t', ht'⟩
  · exact fun u hu => mem_foldl_insertNew.mpr (.inl (h.started u hu))
  · exact hdefs
  · intro u hu
    rcases mem_foldl_insertNew.mp hu with hu | hu
    · exact h.usesLinked u hu
    · obtain ⟨e, he, hue⟩ := List.mem_flatMap.mp hu
      exact ⟨e, hdefs e (List.mem_of_mem_drop he), hue⟩
  · exact nodup_foldl_adjoin h.nodupDefs
  · exact nodup_foldl_insertNew h.nodupUses

/-- Both passes have nothing to add. -/
structure Closed (g : Links α β) (defs : List α) (uses : List β) : Prop where
  defsClosed : ∀ u ∈ uses, ∀ e ∈ g.defs u, e ∈ defs
  usesClosed : ∀ e ∈ defs.drop 1, ∀ u ∈ g.uses e, u ∈ uses

theorem saturate_spec {fuel : Nat} {result : List α × List β} (h : g.Collects d defs uses)
    (hrun : g.saturate fuel (defs, uses) = some result) :
    g.Collects d result.1 result.2 ∧ g.Closed result.1 result.2 := by
  induction fuel generalizing defs uses with
  | zero => cases hrun
  | succ fuel ih =>
    simp only [saturate] at hrun
    split at hrun
    next hstop =>
      obtain ⟨hd, hu⟩ := hstop
      cases hrun
      obtain ⟨t, ht⟩ := exists_foldl_adjoin (uses.flatMap g.defs) defs
      have hsame : g.addDefs uses defs = defs := by
        unfold addDefs at hd ⊢
        rw [ht, List.length_append] at hd
        have hnil : t = [] := List.length_eq_zero_iff.mp (by omega)
        rw [ht, hnil, List.append_nil]
      rw [hsame] at hu ⊢
      have huses : g.addUses defs uses = uses := foldl_insertNew_eq hu
      rw [huses]
      refine ⟨h, ?_, ?_⟩
      · intro u hu e he
        rw [← hsame]
        exact mem_foldl_adjoin.mpr (.inr (List.mem_flatMap.mpr ⟨u, hu, he⟩))
      · intro e he u hu
        rw [← huses]
        exact mem_foldl_insertNew.mpr (.inr (List.mem_flatMap.mpr ⟨e, he, hu⟩))
    next => exact ih h.round hrun

/-- The collection is the class of its first definition. -/
theorem component_spec {fuel : Nat} {result : List α × List β}
    (h : g.component fuel d = some result) :
    (∀ e, e ∈ result.1 ↔ g.Linked d e) ∧
      (∀ u, u ∈ result.2 ↔ ∃ e, g.Linked d e ∧ u ∈ g.uses e) ∧
      (∃ t, result.1 = d :: t) ∧ result.1.Nodup ∧ result.2.Nodup := by
  obtain ⟨hcollects, hclosed⟩ := saturate_spec collects_start h
  have huses : ∀ e ∈ result.1, ∀ u ∈ g.uses e, u ∈ result.2 := by
    intro e he u hu
    obtain ⟨t, ht⟩ := hcollects.head
    rw [ht] at he
    rcases List.mem_cons.mp he with rfl | he
    · exact hcollects.started u hu
    · exact hclosed.usesClosed e (by rw [ht]; exact he) u hu
  have hdefs : ∀ e, g.Linked d e → e ∈ result.1 := by
    intro e he
    induction he with
    | refl =>
      obtain ⟨t, ht⟩ := hcollects.head
      exact ht ▸ List.mem_cons_self
    | tail _ hjoined ih =>
      obtain ⟨u, hu, he⟩ := hjoined
      exact hclosed.defsClosed u (huses _ ih u hu) _ he
  exact ⟨fun e => ⟨hcollects.defsLinked e, hdefs e⟩,
    fun u => ⟨hcollects.usesLinked u, fun ⟨e, he, hu⟩ => huses e (hdefs e he) u hu⟩,
    hcollects.head, hcollects.nodupDefs, hcollects.nodupUses⟩

section Enough

variable {allDefs : List α} {allUses : List β}

/-- With a round for each definition and each use the passes come to their end. -/
theorem exists_saturate (hd : ∀ u, ∀ e ∈ g.defs u, e ∈ allDefs)
    (hu : ∀ e, ∀ u ∈ g.uses e, u ∈ allUses) {fuel : Nat} (h : g.Collects d defs uses)
    (hdefs : ∀ e ∈ defs, e ∈ d :: allDefs) (huses : ∀ u ∈ uses, u ∈ allUses)
    (hfuel : allDefs.length + 1 + allUses.length < fuel + defs.length + uses.length) :
    ∃ result, g.saturate fuel (defs, uses) = some result := by
  have hroom {defs : List α} {uses : List β} (h : g.Collects d defs uses)
      (hdefs : ∀ e ∈ defs, e ∈ d :: allDefs) (huses : ∀ u ∈ uses, u ∈ allUses) :
      defs.length ≤ allDefs.length + 1 ∧ uses.length ≤ allUses.length :=
    ⟨(List.subperm_of_subset h.nodupDefs hdefs).length_le,
      (List.subperm_of_subset h.nodupUses huses).length_le⟩
  induction fuel generalizing defs uses with
  | zero =>
    have := hroom h hdefs huses
    omega
  | succ fuel ih =>
    have hdefs' : ∀ e ∈ g.addDefs uses defs, e ∈ d :: allDefs := by
      intro e he
      rcases mem_foldl_adjoin.mp he with he | he
      · exact hdefs e he
      · obtain ⟨u, -, heu⟩ := List.mem_flatMap.mp he
        exact List.mem_cons_of_mem d (hd u e heu)
    have huses' : ∀ u ∈ g.addUses (g.addDefs uses defs) uses, u ∈ allUses := by
      intro u hu'
      rcases mem_foldl_insertNew.mp hu' with hu' | hu'
      · exact huses u hu'
      · obtain ⟨e, -, hue⟩ := List.mem_flatMap.mp hu'
        exact hu e u hue
    simp only [saturate]
    split
    · exact ⟨_, rfl⟩
    next hgrows =>
      refine ih h.round hdefs' huses' ?_
      obtain ⟨t, ht⟩ := exists_foldl_adjoin (uses.flatMap g.defs) defs
      have hd' : (g.addDefs uses defs).length = defs.length + t.length := by
        unfold addDefs
        rw [ht, List.length_append]
      have hu' := length_le_foldl_insertNew uses
        (((g.addDefs uses defs).drop 1).flatMap g.uses)
      change uses.length ≤ (g.addUses (g.addDefs uses defs) uses).length at hu'
      omega

theorem exists_component (hd : ∀ u, ∀ e ∈ g.defs u, e ∈ allDefs)
    (hu : ∀ e, ∀ u ∈ g.uses e, u ∈ allUses) {fuel : Nat}
    (hfuel : allDefs.length + allUses.length < fuel) :
    ∃ result, g.component fuel d = some result := by
  refine exists_saturate hd hu collects_start
    (fun e he => List.mem_singleton.mp he ▸ List.mem_cons_self) ?_ ?_
  · intro u hmem
    exact hu d u ((mem_foldl_insertNew.mp hmem).resolve_left List.not_mem_nil)
  · rw [List.length_singleton]
    omega

end Enough

end Links

end Grow

end Components
