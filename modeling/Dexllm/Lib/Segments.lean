import Mathlib.Data.List.Basic
import Mathlib.Data.List.TakeWhile

/-!
A list in the order of a key, cut at positions of the line the keys are on. The
segments between ascending leaders, the last one up to a stop, partition what is
not before the first leader.
-/

namespace Segments

variable {α : Type*} (key : α → Nat)

/-- The entries with a key in `[low, high)`. -/
def within (low high : Nat) (xs : List α) : List α :=
  xs.filter fun x => low ≤ key x ∧ key x < high

/-- Each leader with the end of its segment. -/
def spans (stop : Nat) : List Nat → List (Nat × Nat)
  | [] => []
  | leader :: rest => (leader, rest.headD stop) :: spans stop rest

@[simp] theorem length_spans (stop : Nat) (leaders : List Nat) :
    (spans stop leaders).length = leaders.length := by
  induction leaders with
  | nil => rfl
  | cons leader rest ih => simp [spans, ih]

theorem getElem_spans (stop : Nat) (leaders : List Nat) {i : Nat}
    (hi : i < (spans stop leaders).length) :
    (spans stop leaders)[i] = (leaders.getD i 0, leaders.getD (i + 1) stop) := by
  induction leaders generalizing i with
  | nil => simp [spans] at hi
  | cons leader rest ih =>
    cases i with
    | zero => cases rest <;> rfl
    | succ i => simpa [spans] using ih (by simpa [spans] using hi)

section

variable {key} {xs : List α} (hxs : xs.Pairwise fun a b => key a < key b)

include hxs

/-- What the search for the first entry at or behind `low` and the walk up to
`high` take from an ordered list. -/
theorem takeWhile_dropWhile (low high : Nat) :
    (xs.dropWhile fun x => key x < low).takeWhile (fun x => key x < high) =
      within key low high xs := by
  induction xs with
  | nil => rfl
  | cons x xs ih =>
    obtain ⟨hhead, htail⟩ := List.pairwise_cons.mp hxs
    have hwithin : within key low high (x :: xs) =
        if low ≤ key x ∧ key x < high then x :: within key low high xs
        else within key low high xs := by
      simp [within, List.filter_cons]
    rw [hwithin]
    obtain hlow | hlow := Nat.lt_or_ge (key x) low
    · rw [List.dropWhile_cons_of_pos (by simpa using hlow), ih htail, if_neg (by omega)]
    rw [List.dropWhile_cons_of_neg (by simpa using hlow)]
    have hdrop : (xs.dropWhile fun x => key x < low) = xs := by
      cases xs with
      | nil => rfl
      | cons y ys =>
        have hy := hhead y (by simp)
        rw [List.dropWhile_cons_of_neg (by simp; omega)]
    obtain hhigh | hhigh := Nat.lt_or_ge (key x) high
    · rw [List.takeWhile_cons_of_pos (by simpa using hhigh), if_pos ⟨hlow, hhigh⟩, ← ih htail,
        hdrop]
    · rw [List.takeWhile_cons_of_neg (by simpa using hhigh), if_neg (by omega)]
      symm
      rw [within, List.filter_eq_nil_iff]
      intro y hy
      have := hhead y hy
      simp only [decide_eq_true_eq]
      omega

/-- The entries from `low` on, cut at `mid`. -/
theorem within_append {low mid : Nat} (hle : low ≤ mid) :
    within key low mid xs ++ xs.filter (fun x => mid ≤ key x) =
      xs.filter fun x => low ≤ key x := by
  induction xs with
  | nil => rfl
  | cons x xs ih =>
    obtain ⟨hhead, htail⟩ := List.pairwise_cons.mp hxs
    have hrest := ih htail
    simp only [within, List.filter_cons, decide_eq_true_eq] at hrest ⊢
    obtain hmid | hmid := Nat.lt_or_ge (key x) mid
    · rw [if_neg (Nat.not_le_of_lt hmid)]
      by_cases hlow : low ≤ key x
      · rw [if_pos ⟨hlow, hmid⟩, if_pos hlow, List.cons_append, hrest]
      · rw [if_neg fun h => hlow h.1, if_neg hlow, hrest]
    · rw [if_neg (by omega), if_pos hmid, if_pos (by omega)]
      have hnone : xs.filter (fun x => decide (low ≤ key x ∧ key x < mid)) = [] := by
        rw [List.filter_eq_nil_iff]
        intro y hy
        have := hhead y hy
        simp only [decide_eq_true_eq]
        omega
      rw [hnone, List.nil_append] at hrest ⊢
      rw [hrest]

/-- The segments hold every entry that is not before the first leader, once and in
order. -/
theorem flatMap_spans {stop first : Nat} {rest : List Nat}
    (hleaders : (first :: rest).Pairwise (· < ·)) (hstop : ∀ x ∈ xs, key x < stop) :
    (spans stop (first :: rest)).flatMap (fun span => within key span.1 span.2 xs) =
      xs.filter fun x => first ≤ key x := by
  induction rest generalizing first with
  | nil =>
    simp only [spans, List.headD_nil, List.flatMap_cons, List.flatMap_nil, List.append_nil, within]
    refine List.filter_congr fun x hx => ?_
    simp [hstop x hx]
  | cons next rest ih =>
    obtain ⟨hhead, htail⟩ := List.pairwise_cons.mp hleaders
    rw [spans, List.flatMap_cons, ih htail]
    exact within_append hxs (Nat.le_of_lt (hhead next (by simp)))

end

end Segments
