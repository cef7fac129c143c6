import Mathlib.Data.List.Nodup

/-!
Lists whose elements carry a key: keys read off distinct sources are distinct,
and under distinct keys one element can be singled out.
-/

namespace Keyed

/-- Results that remember where they come from are as distinct as their
sources. -/
theorem nodup_filterMap {α β : Type} {g : α → Option β} {key : β → α} {xs : List α}
    (hkey : ∀ x ∈ xs, ∀ y, g x = some y → key y = x) (hxs : xs.Nodup) :
    ((xs.filterMap g).map key).Nodup := by
  apply List.Nodup.sublist _ hxs
  clear hxs
  induction xs with
  | nil => exact List.Sublist.slnil
  | cons x xs ih =>
    have hrest := ih fun x' hx' => hkey x' (List.mem_cons_of_mem _ hx')
    cases hg : g x with
    | none =>
      rw [List.filterMap_cons_none hg]
      exact hrest.cons x
    | some y =>
      rw [List.filterMap_cons_some hg, List.map_cons, hkey x List.mem_cons_self y hg]
      exact hrest.cons_cons x

/-- Of rows that carry their key, a filter on one key leaves those of its
element. -/
theorem flatMap_of_key {α β γ : Type} {key : α → γ} {f : α → List β} {xs : List α} {x : α}
    (hx : x ∈ xs) (hnodup : (xs.map key).Nodup)
    (hother : ∀ y ∈ xs, key y ≠ key x → f y = []) : xs.flatMap f = f x := by
  induction xs with
  | nil => simp at hx
  | cons y ys ih =>
    obtain ⟨hhead, htail⟩ := List.nodup_cons.mp hnodup
    rcases List.mem_cons.mp hx with rfl | hmem
    · have hrest : ys.flatMap f = [] := by
        apply List.flatMap_eq_nil_iff.mpr
        intro z hz
        apply hother z (List.mem_cons_of_mem _ hz)
        intro heq
        exact hhead (List.mem_map.mpr ⟨z, hz, heq⟩)
      rw [List.flatMap_cons, hrest, List.append_nil]
    · have hne : key y ≠ key x := fun heq => hhead (List.mem_map.mpr ⟨x, hmem, heq.symm⟩)
      rw [List.flatMap_cons, hother y List.mem_cons_self hne, List.nil_append,
        ih hmem htail fun z hz => hother z (List.mem_cons_of_mem _ hz)]

end Keyed
