import Dexllm.Lib.Leb128

/-!
Readers that carry an end pointer: a little-endian number of up to so many
bytes and a ULEB128 number. Each stops at the end instead of faulting, and the
cursor it returns is where it stopped. The loaders are the same readers over
guarded bytes: they never fault when the end pointer lies in the memory.
-/

namespace Cursor

open Guarded Bytes Leb128

/-- The little-endian number in the `n` bytes from `p`. -/
def leValue (mem : Memory) (p : Nat) : Nat → Nat
  | 0 => 0
  | n + 1 => leValue mem p n ||| (byteAt mem (p + n) <<< (8 * n))

/-- `nbytes` more bytes of a little-endian number, from byte `i` on. -/
def readLEFrom (mem : Memory) (stop : Nat) : (nbytes i p value : Nat) → Nat × Nat
  | 0, _, p, value => (value, p)
  | nbytes + 1, i, p, value =>
    if p < stop then readLEFrom mem stop nbytes (i + 1) (p + 1) (value ||| (byteAt mem p <<< (8 * i)))
    else (value, p)

/-- A little-endian number of `nbytes` bytes: what lies before `stop` of it. -/
def readLE (mem : Memory) (stop nbytes p : Nat) : Nat × Nat := readLEFrom mem stop nbytes 0 p 0

/-- `rounds` more groups of a ULEB128 number kept in `bits` bits, from group `i`
on. -/
def readUlebFrom (bits : Nat) (mem : Memory) (stop : Nat) : (rounds i p value : Nat) → Nat × Nat
  | 0, _, p, value => (value, p)
  | rounds + 1, i, p, value =>
    if p < stop then
      let b := byteAt mem p
      let value := value ||| (((b &&& 0x7f) <<< (7 * i)) % 2 ^ bits)
      if b &&& 0x80 = 0 then (value, p + 1)
      else readUlebFrom bits mem stop rounds (i + 1) (p + 1) value
    else (value, p)

/-- A ULEB128 number of at most `rounds` groups: what lies before `stop` of
it. -/
def readUleb (bits rounds : Nat) (mem : Memory) (stop p : Nat) : Nat × Nat :=
  readUlebFrom bits mem stop rounds 0 p 0

/-- `readLEFrom` byte by byte through guarded reads. -/
def loadLEFrom (mem : Memory) (stop : Nat) : (nbytes i p value : Nat) → Run (Nat × Nat)
  | 0, _, p, value => pure (value, p)
  | nbytes + 1, i, p, value =>
    if p < stop then do
      let b ← readU1 mem p
      loadLEFrom mem stop nbytes (i + 1) (p + 1) (value ||| (b <<< (8 * i)))
    else pure (value, p)

/-- `readLE` through guarded reads. -/
def loadLE (mem : Memory) (stop nbytes p : Nat) : Run (Nat × Nat) :=
  loadLEFrom mem stop nbytes 0 p 0

/-- `readUlebFrom` byte by byte through guarded reads. -/
def loadUlebFrom (bits : Nat) (mem : Memory) (stop : Nat) :
    (rounds i p value : Nat) → Run (Nat × Nat)
  | 0, _, p, value => pure (value, p)
  | rounds + 1, i, p, value =>
    if p < stop then do
      let b ← readU1 mem p
      let value := value ||| (((b &&& 0x7f) <<< (7 * i)) % 2 ^ bits)
      if b &&& 0x80 = 0 then pure (value, p + 1)
      else loadUlebFrom bits mem stop rounds (i + 1) (p + 1) value
    else pure (value, p)

/-- `readUleb` through guarded reads. -/
def loadUleb (bits rounds : Nat) (mem : Memory) (stop p : Nat) : Run (Nat × Nat) :=
  loadUlebFrom bits mem stop rounds 0 p 0

/-- The groups of a number of at most `rounds` groups that ends before `stop`:
it ends at a byte without a continuation bit, or with the last round. -/
structure UlebWithin (rounds : Nat) (mem : Memory) (stop p n : Nat) : Prop where
  pos : 0 < n
  le_rounds : n ≤ rounds
  le_stop : p + n ≤ stop
  more : ∀ i, i + 1 < n → byteAt mem (p + i) &&& 0x80 ≠ 0
  last : byteAt mem (p + (n - 1)) &&& 0x80 = 0 ∨ n = rounds

variable {mem : Memory} {stop p n : Nat}

theorem leValue_lt (mem : Memory) (p n : Nat) : leValue mem p n < 2 ^ (8 * n) := by
  induction n with
  | zero => simp [leValue]
  | succ n ih =>
    have hlow : leValue mem p n < 2 ^ (8 * (n + 1)) :=
      lt_of_lt_of_le ih (Nat.pow_le_pow_right (by decide) (by omega))
    have hhigh : byteAt mem (p + n) <<< (8 * n) < 2 ^ (8 * (n + 1)) := by
      rw [Nat.shiftLeft_eq, show 8 * (n + 1) = 8 + 8 * n by ring, Nat.pow_add]
      exact Nat.mul_lt_mul_of_pos_right (byteAt_lt mem (p + n)) (Nat.two_pow_pos _)
    exact Nat.or_lt_two_pow hlow hhigh

theorem readLEFrom_eq (nbytes i : Nat) (hstop : p + i + nbytes ≤ stop) :
    readLEFrom mem stop nbytes i (p + i) (leValue mem p i) =
      (leValue mem p (i + nbytes), p + i + nbytes) := by
  induction nbytes generalizing i with
  | zero => rfl
  | succ nbytes ih =>
    rw [readLEFrom, if_pos (by omega)]
    have hrest := ih (i + 1) (by omega)
    rw [leValue, show p + (i + 1) = p + i + 1 by omega] at hrest
    rw [hrest, show i + 1 + nbytes = i + (nbytes + 1) by omega,
      show p + i + 1 + nbytes = p + i + (nbytes + 1) by omega]

/-- A number that lies before the end is read whole. -/
theorem readLE_eq (hstop : p + n ≤ stop) : readLE mem stop n p = (leValue mem p n, p + n) := by
  have h := @readLEFrom_eq mem _ p n 0 hstop
  rwa [Nat.zero_add] at h

theorem readLE_bounds (nbytes : Nat) (hp : p ≤ stop) :
    p ≤ (readLE mem stop nbytes p).2 ∧ (readLE mem stop nbytes p).2 ≤ stop := by
  have hfrom : ∀ nbytes i p value, p ≤ stop →
      p ≤ (readLEFrom mem stop nbytes i p value).2 ∧
        (readLEFrom mem stop nbytes i p value).2 ≤ stop := by
    intro nbytes
    induction nbytes with
    | zero => exact fun i p value hp => ⟨le_rfl, hp⟩
    | succ nbytes ih =>
      intro i p value hp
      rw [readLEFrom]
      split
      · have hrest := ih (i + 1) (p + 1) (value ||| (byteAt mem p <<< (8 * i))) (by omega)
        omega
      · exact ⟨le_rfl, hp⟩
  exact hfrom nbytes 0 p 0 hp

/-- A ULEB128 number is read up to the end pointer. -/
theorem readUleb_eq {bits rounds : Nat} (h : IsUleb mem p n) (hrounds : n ≤ rounds)
    (hp : p ≤ stop) :
    readUleb bits rounds mem stop p =
      (ulebValue mem p (min n (stop - p)) % 2 ^ bits, min (p + n) stop) := by
  have hfrom : ∀ k i, i + k = n → ∀ rounds, k ≤ rounds → p + i ≤ stop → 0 < k →
      readUlebFrom bits mem stop rounds i (p + i) (ulebValue mem p i % 2 ^ bits) =
        (ulebValue mem p (min n (stop - p)) % 2 ^ bits, min (p + n) stop) := by
    intro k
    induction k with
    | zero => intro i _ rounds _ _ hk; omega
    | succ k ih =>
      intro i hi rounds hrounds hstop _
      obtain ⟨rounds, rfl⟩ : ∃ m, rounds = m + 1 := ⟨rounds - 1, by omega⟩
      rw [readUlebFrom]
      split
      · rename_i hlt
        simp only [ulebValue_succ_mod]
        by_cases hk : k = 0
        · have hlast : byteAt mem (p + i) &&& 0x80 = 0 := by
            rw [show i = n - 1 by omega]
            exact h.last
          rw [if_pos hlast, show i + 1 = n by omega, show min n (stop - p) = n by omega,
            show p + i + 1 = min (p + n) stop by omega]
        · rw [if_neg (h.more i (by omega))]
          exact ih (i + 1) (by omega) rounds (by omega) (by omega) (by omega)
      · rename_i hge
        rw [show min n (stop - p) = i by omega, show min (p + n) stop = p + i by omega]
  exact hfrom n 0 (by omega) rounds hrounds (by omega) h.pos

theorem readUleb_bounds (bits rounds : Nat) (hp : p ≤ stop) :
    p ≤ (readUleb bits rounds mem stop p).2 ∧ (readUleb bits rounds mem stop p).2 ≤ stop := by
  have hfrom : ∀ rounds i p value, p ≤ stop →
      p ≤ (readUlebFrom bits mem stop rounds i p value).2 ∧
        (readUlebFrom bits mem stop rounds i p value).2 ≤ stop := by
    intro rounds
    induction rounds with
    | zero => exact fun i p value hp => ⟨le_rfl, hp⟩
    | succ rounds ih =>
      intro i p value hp
      rw [readUlebFrom]
      split
      · simp only
        split
        · simp only
          omega
        · have hrest := ih (i + 1) (p + 1)
            (value ||| (((byteAt mem p &&& 0x7f) <<< (7 * i)) % 2 ^ bits)) (by omega)
          omega
      · exact ⟨le_rfl, hp⟩
  exact hfrom rounds 0 p 0 hp

/-- A reader that has a round left moves when there is a byte left. -/
theorem lt_readUleb (bits rounds : Nat) (hp : p < stop) :
    p < (readUleb bits (rounds + 1) mem stop p).2 := by
  have hmono : ∀ rounds i p value, p ≤ (readUlebFrom bits mem stop rounds i p value).2 := by
    intro rounds
    induction rounds with
    | zero => exact fun i p value => le_rfl
    | succ rounds ih =>
      intro i p value
      rw [readUlebFrom]
      split
      · simp only
        split
        · exact Nat.le_succ p
        · exact Nat.le_of_succ_le (ih _ _ _)
      · exact le_rfl
  rw [readUleb, readUlebFrom, if_pos hp]
  simp only
  split
  · exact Nat.lt_succ_self p
  · exact hmono rounds 1 (p + 1) _

section Guards

variable {rounds bits : Nat}

/-- No read of an end-pointer reader leaves a memory that reaches the end. -/
theorem loadLE_eq (hstop : stop ≤ mem.length) (nbytes p : Nat) :
    loadLE mem stop nbytes p = .ok (readLE mem stop nbytes p) := by
  have hfrom : ∀ nbytes i p value, loadLEFrom mem stop nbytes i p value =
      .ok (readLEFrom mem stop nbytes i p value) := by
    intro nbytes
    induction nbytes with
    | zero => exact fun _ _ _ => rfl
    | succ nbytes ih =>
      intro i p value
      rw [loadLEFrom, readLEFrom]
      split
      · have hread : readU1 mem p = .ok (byteAt mem p) := read_of_le (by omega)
        rw [hread, bind_ok, ih]
      · rfl
  exact hfrom nbytes 0 p 0

theorem loadUleb_eq (hstop : stop ≤ mem.length) (bits rounds p : Nat) :
    loadUleb bits rounds mem stop p = .ok (readUleb bits rounds mem stop p) := by
  have hfrom : ∀ rounds i p value, loadUlebFrom bits mem stop rounds i p value =
      .ok (readUlebFrom bits mem stop rounds i p value) := by
    intro rounds
    induction rounds with
    | zero => exact fun _ _ _ => rfl
    | succ rounds ih =>
      intro i p value
      rw [loadUlebFrom, readUlebFrom]
      split
      · have hread : readU1 mem p = .ok (byteAt mem p) := read_of_le (by omega)
        rw [hread, bind_ok]
        simp only [ih]
        split <;> rfl
      · rfl
  exact hfrom rounds 0 p 0

/-- A number is read up to the end pointer. -/
theorem readLE_clip (nbytes : Nat) (hp : p ≤ stop) :
    readLE mem stop nbytes p = (leValue mem p (min nbytes (stop - p)), min (p + nbytes) stop) := by
  have hfrom : ∀ nbytes i, p + i ≤ stop →
      readLEFrom mem stop nbytes i (p + i) (leValue mem p i) =
        (leValue mem p (min (i + nbytes) (stop - p)), min (p + i + nbytes) stop) := by
    intro nbytes
    induction nbytes with
    | zero =>
      intro i hi
      rw [readLEFrom, show min (i + 0) (stop - p) = i by omega,
        show min (p + i + 0) stop = p + i by omega]
    | succ nbytes ih =>
      intro i hi
      rw [readLEFrom]
      split
      · have hrest := ih (i + 1) (by omega)
        rw [leValue, show p + (i + 1) = p + i + 1 by omega] at hrest
        rw [hrest, show i + 1 + nbytes = i + (nbytes + 1) by omega,
          show p + i + 1 + nbytes = p + i + (nbytes + 1) by omega]
      · rw [show min (i + (nbytes + 1)) (stop - p) = i by omega,
          show min (p + i + (nbytes + 1)) stop = p + i by omega]
  have h := hfrom nbytes 0 hp
  rwa [Nat.zero_add] at h

/-- The rounds of a ULEB128 reader: it reads a number that ends before the end
pointer, or runs into that. -/
theorem readUleb_cases (bits : Nat) (hrounds : 0 < rounds) (hp : p ≤ stop) :
    (∃ n, UlebWithin rounds mem stop p n) ∨ (readUleb bits rounds mem stop p).2 = stop := by
  have hfrom : ∀ left i, i + left = rounds → 0 < left → p + i ≤ stop →
      (∀ j < i, byteAt mem (p + j) &&& 0x80 ≠ 0) → ∀ value,
      (∃ n, UlebWithin rounds mem stop p n) ∨
        (readUlebFrom bits mem stop left i (p + i) value).2 = stop := by
    intro left
    induction left with
    | zero => intro i _ hleft; omega
    | succ left ih =>
      intro i hi _ hstop hmore value
      rw [readUlebFrom]
      split
      · simp only
        split
        · rename_i hlast
          exact .inl ⟨i + 1, by omega, by omega, by omega, fun j hj => hmore j (by omega),
            .inl hlast⟩
        · rename_i hcont
          by_cases hleft : left = 0
          · exact .inl ⟨i + 1, by omega, by omega, by omega, fun j hj => hmore j (by omega),
              .inr (by omega)⟩
          · refine ih (i + 1) (by omega) (by omega) (by omega) (fun j hj => ?_) _
            rcases Nat.lt_succ_iff_lt_or_eq.mp hj with hlt | rfl
            · exact hmore j hlt
            · exact hcont
      · exact .inr (by simp only; omega)
  exact hfrom rounds 0 (by omega) hrounds hp (by simp) 0

/-- A number that ends before the end pointer is read whole. -/
theorem readUleb_within (h : UlebWithin rounds mem stop p n) :
    readUleb bits rounds mem stop p = (ulebValue mem p n % 2 ^ bits, p + n) := by
  obtain ⟨hpos, hrounds, hstop, hmore, hlast⟩ := h
  have hfrom : ∀ k i, i + k = n → 0 < k → ∀ left, i + left = rounds →
      readUlebFrom bits mem stop left i (p + i) (ulebValue mem p i % 2 ^ bits) =
        (ulebValue mem p n % 2 ^ bits, p + n) := by
    intro k
    induction k with
    | zero => intro i _ hk; omega
    | succ k ih =>
      intro i hi _ left hleft
      obtain ⟨left, rfl⟩ : ∃ m, left = m + 1 := ⟨left - 1, by omega⟩
      rw [readUlebFrom, if_pos (by omega)]
      simp only [ulebValue_succ_mod]
      by_cases hk : k = 0
      · obtain rfl : n = i + 1 := by omega
        rw [Nat.add_sub_cancel] at hlast
        rcases hlast with hlast | hround
        · rw [if_pos hlast]
          rfl
        · obtain rfl : left = 0 := by omega
          split <;> rfl
      · rw [if_neg (hmore i (by omega))]
        exact ih (i + 1) (by omega) (by omega) left (by omega)
  exact hfrom n 0 (by omega) hpos rounds (by omega)

end Guards

end Cursor
