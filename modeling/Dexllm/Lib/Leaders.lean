import Mathlib.Data.List.Dedup
import Mathlib.Data.List.Sort

/-!
Leaders: an ascending list of positions cuts a line into segments, the one of a
position being the segment of the last leader at or before it.
-/

namespace Leaders

/-- The positions of a list, each once and in ascending order. -/
def ascending (xs : List Nat) : List Nat := xs.dedup.insertionSort (· ≤ ·)

@[simp] theorem mem_ascending {xs : List Nat} {x : Nat} : x ∈ ascending xs ↔ x ∈ xs := by
  simp [ascending]

theorem pairwise_ascending (xs : List Nat) : (ascending xs).Pairwise (· < ·) := by
  have hle := List.pairwise_insertionSort (fun a b : Nat => a ≤ b) xs.dedup
  have hne : (ascending xs).Nodup :=
    (List.perm_insertionSort _ xs.dedup).nodup_iff.mpr xs.nodup_dedup
  exact hle.imp₂ (fun a b hab hne => Nat.lt_of_le_of_ne hab hne) hne

/-- The index of the segment a position lies in, if any leader is before it. -/
def segmentOf (xs : List Nat) (x : Nat) : Option Nat :=
  match xs.findIdx fun s => x < s with
  | 0 => none
  | c + 1 => some c

section

variable {xs : List Nat} {x c : Nat}

theorem getElem_lt (hxs : xs.Pairwise (· < ·)) {i j : Nat} (hij : i < j) (hj : j < xs.length) :
    xs[i] < xs[j] :=
  List.pairwise_iff_getElem.mp hxs i j (by omega) hj hij

theorem getElem_le (hxs : xs.Pairwise (· < ·)) {i j : Nat} (hij : i ≤ j) (hj : j < xs.length) :
    xs[i] ≤ xs[j] := by
  rcases Nat.lt_or_eq_of_le hij with hlt | heq
  · exact Nat.le_of_lt (getElem_lt hxs hlt hj)
  · subst heq
    exact Nat.le_refl _

theorem getElem_inj (hxs : xs.Pairwise (· < ·)) {i j : Nat} (hi : i < xs.length)
    (hj : j < xs.length) (h : xs[i] = xs[j]) : i = j := by
  rcases Nat.lt_trichotomy i j with hlt | heq | hgt
  · have := getElem_lt hxs hlt hj
    omega
  · exact heq
  · have := getElem_lt hxs hgt hi
    omega

/-- The head of an ascending list is its least member. -/
theorem head_le {first : Nat} {rest : List Nat} (hxs : (first :: rest).Pairwise (· < ·))
    (hx : x ∈ first :: rest) : first ≤ x := by
  rcases List.mem_cons.mp hx with heq | htail
  · exact Nat.le_of_eq heq.symm
  · exact Nat.le_of_lt (List.rel_of_pairwise_cons hxs htail)

theorem findIdx_eq_succ (hxs : xs.Pairwise (· < ·)) :
    (xs.findIdx fun s => decide (x < s)) = c + 1 ↔ ∃ h : c < xs.length, xs[c] ≤ x ∧
      ∀ h' : c + 1 < xs.length, x < xs[c + 1] := by
  constructor
  · intro hidx
    have hle : c + 1 ≤ xs.length := hidx ▸ List.findIdx_le_length
    have hbefore : ¬x < xs[c] := by
      have hc : c < xs.findIdx fun s => decide (x < s) := by omega
      simpa using List.not_of_lt_findIdx hc
    refine ⟨by omega, by omega, fun h' => ?_⟩
    have hlt : xs.findIdx (fun s => decide (x < s)) < xs.length := by omega
    have := List.findIdx_getElem (w := hlt)
    simpa [hidx] using this
  · rintro ⟨hc, hle, hnext⟩
    have hbefore (j : Nat) (hj : j < c + 1) : decide (x < xs[j]) = false := by
      have := getElem_le hxs (show j ≤ c by omega) hc
      simp only [decide_eq_false_iff_not]
      omega
    by_cases hlast : c + 1 < xs.length
    · exact (List.findIdx_eq hlast).mpr ⟨by simpa using hnext hlast, hbefore⟩
    · have hlen : c + 1 = xs.length := by omega
      rw [hlen, List.findIdx_eq_length]
      intro s hs
      obtain ⟨j, hj, rfl⟩ := List.getElem_of_mem hs
      exact hbefore j (by omega)

theorem segmentOf_eq_some (hxs : xs.Pairwise (· < ·)) :
    segmentOf xs x = some c ↔ ∃ h : c < xs.length, xs[c] ≤ x ∧
      ∀ h' : c + 1 < xs.length, x < xs[c + 1] := by
  rw [← findIdx_eq_succ hxs]
  unfold segmentOf
  cases xs.findIdx fun s => decide (x < s) <;> simp

theorem segmentOf_getElem (hxs : xs.Pairwise (· < ·)) (hc : c < xs.length) :
    segmentOf xs xs[c] = some c :=
  (segmentOf_eq_some hxs).mpr ⟨hc, Nat.le_refl _, fun h => getElem_lt hxs (by omega) h⟩

theorem exists_segment (hxs : xs.Pairwise (· < ·)) {s : Nat} (hs : s ∈ xs) (hx : s ≤ x) :
    ∃ c, segmentOf xs x = some c := by
  obtain ⟨i, hi, rfl⟩ := List.getElem_of_mem hs
  unfold segmentOf
  cases hidx : xs.findIdx fun s => decide (x < s) with
  | zero =>
    have hlt : xs.findIdx (fun s => decide (x < s)) < xs.length := by omega
    have hthere := List.findIdx_getElem (w := hlt)
    simp only [hidx, decide_eq_true_eq] at hthere
    have := getElem_le hxs (Nat.zero_le i) hi
    omega
  | succ c => exact ⟨c, rfl⟩

/-- A leader behind the start of a segment is at or behind the next one. -/
theorem not_mem_between (hxs : xs.Pairwise (· < ·)) (hc : c < xs.length) {y : Nat}
    (hy : y ∈ xs) (hlow : xs[c] < y) : ∃ h : c + 1 < xs.length, xs[c + 1] ≤ y := by
  obtain ⟨j, hj, rfl⟩ := List.getElem_of_mem hy
  have hcj : c < j := by
    by_contra hle
    have := getElem_le hxs (show j ≤ c by omega) hc
    omega
  exact ⟨by omega, getElem_le hxs hcj hj⟩

/-- On an ascending list, the longest prefix of a downward closed property. -/
theorem takeWhile_eq_filter {p : Nat → Bool} (hxs : xs.Pairwise (· < ·))
    (hp : ∀ a b, a < b → p b = true → p a = true) : xs.takeWhile p = xs.filter p := by
  induction xs with
  | nil => rfl
  | cons x xs ih =>
    obtain ⟨hhead, htail⟩ := List.pairwise_cons.mp hxs
    cases hx : p x with
    | true => rw [List.takeWhile_cons_of_pos hx, List.filter_cons_of_pos hx, ih htail]
    | false =>
      rw [List.takeWhile_cons_of_neg (by simp [hx]), List.filter_cons_of_neg (by simp [hx])]
      symm
      rw [List.filter_eq_nil_iff]
      intro y hy hpy
      have := hp x y (hhead y hy) hpy
      simp [hx] at this

theorem dropWhile_eq_filter {p : Nat → Bool} (hxs : xs.Pairwise (· < ·))
    (hp : ∀ a b, a < b → p b = true → p a = true) : xs.dropWhile p = xs.filter (!p ·) := by
  induction xs with
  | nil => rfl
  | cons x xs ih =>
    obtain ⟨hhead, htail⟩ := List.pairwise_cons.mp hxs
    cases hx : p x with
    | true =>
      rw [List.dropWhile_cons_of_pos hx, List.filter_cons_of_neg (by simp [hx]), ih htail]
    | false =>
      rw [List.dropWhile_cons_of_neg (by simp [hx])]
      symm
      rw [List.filter_eq_self]
      intro y hy
      rcases List.mem_cons.mp hy with rfl | hy
      · simp [hx]
      · cases hpy : p y with
        | false => rfl
        | true =>
          have := hp x y (hhead y hy) hpy
          simp [hx] at this

/-- The search for a member of an ascending list leaves it and the larger ones. -/
theorem dropWhile_ne (hxs : xs.Pairwise (· < ·)) (hx : x ∈ xs) :
    (xs.dropWhile fun y => decide (y ≠ x)) = x :: xs.filter fun y => x < y := by
  induction xs with
  | nil => simp at hx
  | cons y xs ih =>
    obtain ⟨hhead, htail⟩ := List.pairwise_cons.mp hxs
    rcases List.mem_cons.mp hx with rfl | hmem
    · rw [List.dropWhile_cons_of_neg (by simp), List.filter_cons_of_neg (by simp)]
      congr 1
      symm
      rw [List.filter_eq_self]
      exact fun z hz => decide_eq_true (hhead z hz)
    · have hlt := hhead x hmem
      rw [List.dropWhile_cons_of_pos (by simpa using Nat.ne_of_lt hlt),
        List.filter_cons_of_neg (by simp; omega), ih htail hmem]

end

end Leaders
