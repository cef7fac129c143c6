import Mathlib.Data.List.Dedup
import Mathlib.Data.List.Sort

/-!
The elements of a list, each once, in the order of a key.
-/

namespace SortedSet

variable {α β κ κ' : Type} [DecidableEq α] [DecidableEq β] [LinearOrder κ] [LinearOrder κ']

def sortedSet (key : α → κ) (l : List α) : List α :=
  l.dedup.insertionSort fun a b => key a ≤ key b

variable {key : α → κ} {key' : β → κ'} {f : α → β} {l : List α}

@[simp] theorem mem_sortedSet {a : α} : a ∈ sortedSet key l ↔ a ∈ l := by
  rw [sortedSet, List.mem_insertionSort, List.mem_dedup]

@[simp] theorem sortedSet_eq_nil : sortedSet key l = [] ↔ l = [] := by
  simp [List.eq_nil_iff_forall_not_mem]

theorem pairwise_sortedSet (hkey : Function.Injective key) :
    (sortedSet key l).Pairwise fun a b => key a < key b := by
  have : Std.Total fun a b => key a ≤ key b := ⟨fun a b => le_total (key a) (key b)⟩
  have : IsTrans α fun a b => key a ≤ key b := ⟨fun _ _ _ => le_trans⟩
  have hsorted := List.pairwise_insertionSort (fun a b => key a ≤ key b) l.dedup
  have hnodup : (sortedSet key l).Nodup :=
    (List.perm_insertionSort _ _).nodup_iff.mpr (List.nodup_dedup l)
  refine (hsorted.and hnodup).imp ?_
  intro a b hab
  exact lt_of_le_of_ne hab.1 fun heq => hab.2 (hkey heq)

/-- An injective renaming commutes with the listing exactly when it keeps the order of
the elements. -/
theorem sortedSet_map_iff (hkey : Function.Injective key) (hkey' : Function.Injective key')
    (hf : Function.Injective f) :
    sortedSet key' (l.map f) = (sortedSet key l).map f ↔
      ∀ a ∈ l, ∀ b ∈ l, (key a < key b ↔ key' (f a) < key' (f b)) := by
  constructor
  · intro heq
    have hsorted := pairwise_sortedSet (l := l.map f) hkey'
    rw [heq, List.pairwise_map] at hsorted
    have hboth := (pairwise_sortedSet (l := l) hkey).and hsorted
    have hall : ∀ a ∈ sortedSet key l, ∀ b ∈ sortedSet key l,
        (key a < key b ↔ key' (f a) < key' (f b)) := by
      refine List.Pairwise.forall_of_forall_of_flip ?_ (hboth.imp ?_) (hboth.imp ?_)
      · exact fun a _ => iff_of_false (lt_irrefl _) (lt_irrefl _)
      · exact fun hab => iff_of_true hab.1 hab.2
      · exact fun hab => iff_of_false hab.1.not_gt hab.2.not_gt
    intro a ha b hb
    exact hall a (mem_sortedSet.mpr ha) b (mem_sortedSet.mpr hb)
  · intro hagree
    rw [sortedSet, sortedSet, List.dedup_map_of_injective hf]
    refine (List.map_insertionSort _ _ f _ fun a ha b hb => ?_).symm
    rw [List.mem_dedup] at ha hb
    rw [← not_lt, ← not_lt]
    exact not_congr (hagree b hb a ha)

end SortedSet
