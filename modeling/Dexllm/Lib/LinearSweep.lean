import Mathlib.Data.List.Basic

/-!
The linear sweep over a text of `n` units: from a position to the one its width
leads to, until the text ends.
-/

namespace LinearSweep

variable {width : Nat → Nat} {n : Nat}

/-- The positions a sweep from `k` stops at, with a bound on their number. -/
def sweepFrom (width : Nat → Nat) (n : Nat) : (fuel k : Nat) → List Nat
  | 0, _ => []
  | fuel + 1, k => if k < n then k :: sweepFrom width n fuel (k + width k) else []

theorem sweepFrom_bounds {fuel k j : Nat} (h : j ∈ sweepFrom width n fuel k) :
    k ≤ j ∧ j < n := by
  induction fuel generalizing k with
  | zero => simp [sweepFrom] at h
  | succ fuel ih =>
    unfold sweepFrom at h
    split at h
    · rcases List.mem_cons.mp h with rfl | htail
      · omega
      · have := ih htail
        omega
    · simp at h

/-- A later position is past the whole of an earlier one. -/
theorem sweepFrom_apart (width : Nat → Nat) (n fuel k : Nat) :
    (sweepFrom width n fuel k).Pairwise fun i j => i + width i ≤ j := by
  induction fuel generalizing k with
  | zero => exact List.Pairwise.nil
  | succ fuel ih =>
    unfold sweepFrom
    split
    · exact List.pairwise_cons.mpr ⟨fun j hj => (sweepFrom_bounds hj).1, ih _⟩
    · exact List.Pairwise.nil

/-- The sweep goes on behind each of its positions. -/
theorem mem_sweepFrom_next {fuel k j : Nat} (hfuel : n - k ≤ fuel)
    (hpos : ∀ i ∈ sweepFrom width n fuel k, 0 < width i)
    (hj : j ∈ sweepFrom width n fuel k) (hnext : j + width j < n) :
    j + width j ∈ sweepFrom width n fuel k := by
  induction fuel generalizing k with
  | zero => simp [sweepFrom] at hj
  | succ fuel ih =>
    have hk : k < n := by
      have := sweepFrom_bounds hj
      omega
    have hunfold : sweepFrom width n (fuel + 1) k =
        k :: sweepFrom width n fuel (k + width k) := by
      rw [sweepFrom, if_pos hk]
    rw [hunfold] at hpos hj ⊢
    have hposk := hpos k List.mem_cons_self
    rcases List.mem_cons.mp hj with rfl | htail
    · apply List.mem_cons_of_mem
      cases fuel with
      | zero => omega
      | succ fuel =>
        rw [sweepFrom, if_pos hnext]
        exact List.mem_cons_self
    · apply List.mem_cons_of_mem
      exact ih (by omega) (fun i hi => hpos i (List.mem_cons_of_mem _ hi)) htail

/-- A sweep leaves no position out. -/
theorem sweepFrom_covers {fuel k i : Nat} (hfuel : n - k ≤ fuel)
    (hpos : ∀ j ∈ sweepFrom width n fuel k, 0 < width j) (hk : k ≤ i) (hi : i < n) :
    ∃ j ∈ sweepFrom width n fuel k, j ≤ i ∧ i < j + width j := by
  induction fuel generalizing k with
  | zero => omega
  | succ fuel ih =>
    have hunfold : sweepFrom width n (fuel + 1) k =
        k :: sweepFrom width n fuel (k + width k) := by
      rw [sweepFrom, if_pos (by omega)]
    rw [hunfold] at hpos ⊢
    have hposk := hpos k List.mem_cons_self
    by_cases hnext : i < k + width k
    · exact ⟨k, List.mem_cons_self, hk, hnext⟩
    · obtain ⟨j, hj, hcover⟩ := ih (by omega)
        (fun j hj => hpos j (List.mem_cons_of_mem k hj)) (Nat.le_of_not_lt hnext)
      exact ⟨j, List.mem_cons_of_mem k hj, hcover⟩

/-- Two positions of one sweep: the same, or one past the whole of the other. -/
theorem apart_of_mem {fuel k i j : Nat} (hi : i ∈ sweepFrom width n fuel k)
    (hj : j ∈ sweepFrom width n fuel k) (hpos : 0 < width j) (hij : i < j) :
    i + width i ≤ j := by
  have hapart := sweepFrom_apart width n fuel k
  obtain ⟨a, ha, rfl⟩ := List.getElem_of_mem hi
  obtain ⟨b, hb, rfl⟩ := List.getElem_of_mem hj
  rcases Nat.lt_trichotomy a b with hlt | heq | hgt
  · exact List.pairwise_iff_getElem.mp hapart a b ha hb hlt
  · subst heq
    omega
  · have := List.pairwise_iff_getElem.mp hapart b a hb ha hgt
    omega

/-- Enough rounds are enough. -/
theorem sweepFrom_fuel {fuel fuel' k : Nat} (hfuel : n - k ≤ fuel) (hfuel' : n - k ≤ fuel')
    (hpos : ∀ i ∈ sweepFrom width n fuel k, 0 < width i) :
    sweepFrom width n fuel k = sweepFrom width n fuel' k := by
  induction fuel generalizing k fuel' with
  | zero =>
    cases fuel' with
    | zero => rfl
    | succ fuel' => rw [sweepFrom, sweepFrom, if_neg (by omega)]
  | succ fuel ih =>
    cases fuel' with
    | zero => rw [sweepFrom, sweepFrom, if_neg (by omega)]
    | succ fuel' =>
      unfold sweepFrom at hpos ⊢
      split
      · rename_i hk
        rw [if_pos hk] at hpos
        have hposk := hpos k List.mem_cons_self
        rw [@ih fuel' (k + width k) (by omega) (by omega) fun i hi =>
          hpos i (List.mem_cons_of_mem _ hi)]
      · rfl

/-- A sweep is the sweep up to one of its positions and the one from there. -/
theorem sweepFrom_split {fuel k s : Nat} (hfuel : n - k ≤ fuel)
    (hpos : ∀ i ∈ sweepFrom width n fuel k, 0 < width i)
    (hs : s ∈ sweepFrom width n fuel k) :
    sweepFrom width n fuel k = sweepFrom width s fuel k ++ sweepFrom width n fuel s := by
  induction fuel generalizing k with
  | zero => simp [sweepFrom] at hs
  | succ fuel ih =>
    have hbounds := sweepFrom_bounds hs
    have hunfold : sweepFrom width n (fuel + 1) k =
        k :: sweepFrom width n fuel (k + width k) := by
      rw [sweepFrom, if_pos (by omega)]
    rw [hunfold] at hpos hs ⊢
    have hposk := hpos k List.mem_cons_self
    have hpostail := fun i hi => hpos i (List.mem_cons_of_mem k hi)
    rcases List.mem_cons.mp hs with rfl | htail
    · have hnone : sweepFrom width s (fuel + 1) s = [] := by
        rw [sweepFrom, if_neg (Nat.lt_irrefl s)]
      rw [hnone, List.nil_append, hunfold]
    · have hlow := (sweepFrom_bounds htail).1
      have hrest := ih (by omega) hpostail htail
      have hmore : sweepFrom width n fuel s = sweepFrom width n (fuel + 1) s := by
        apply sweepFrom_fuel (by omega) (by omega)
        intro i hi
        apply hpostail i
        rw [hrest]
        exact List.mem_append_right _ hi
      have hcut : sweepFrom width s (fuel + 1) k = k :: sweepFrom width s fuel (k + width k) := by
        rw [sweepFrom, if_pos (by omega)]
      rw [hcut, List.cons_append, hrest, hmore]

end LinearSweep
