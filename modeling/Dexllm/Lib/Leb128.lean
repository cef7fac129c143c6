import Dexllm.Lib.Bytes

/-!
Unsigned LEB128. `IsUleb mem p n` says the encoding at `p` is `n` bytes long;
`ulebValue` is its value with no width limit. The readers below it differ in
how they are bounded and in how many bits they keep, so each is related to
these two by a lemma of its own.
-/

namespace Leb128

open Guarded Bytes

/-- The low seven bits of each of the `n` bytes from `p`, least significant
group first. -/
def ulebValue (mem : Memory) (p : Nat) : Nat → Nat
  | 0 => 0
  | n + 1 => ulebValue mem p n ||| ((byteAt mem (p + n) &&& 0x7f) <<< (7 * n))

/-- A ULEB128 encoding of exactly `n` bytes starts at `p`. -/
structure IsUleb (mem : Memory) (p n : Nat) : Prop where
  pos : 0 < n
  more : ∀ i, i + 1 < n → byteAt mem (p + i) &&& 0x80 ≠ 0
  last : byteAt mem (p + (n - 1)) &&& 0x80 = 0

theorem IsUleb.unique {mem : Memory} {p n m : Nat} (hn : IsUleb mem p n)
    (hm : IsUleb mem p m) : n = m := by
  have hnpos := hn.pos
  have hmpos := hm.pos
  rcases Nat.lt_trichotomy n m with hlt | heq | hgt
  · exact absurd hn.last (hm.more (n - 1) (by omega))
  · exact heq
  · exact absurd hm.last (hn.more (m - 1) (by omega))

theorem group_lt (b : Nat) : b &&& 0x7f < 128 := by
  have h : b &&& 0x7f = b % 128 := Nat.and_two_pow_sub_one_eq_mod b 7
  rw [h]
  exact Nat.mod_lt b (by decide)

theorem ulebValue_lt (mem : Memory) (p n : Nat) : ulebValue mem p n < 2 ^ (7 * n) := by
  induction n with
  | zero => simp [ulebValue]
  | succ n ih =>
    have hgroup := group_lt (byteAt mem (p + n))
    have hlow : ulebValue mem p n < 2 ^ (7 * (n + 1)) :=
      lt_of_lt_of_le ih (Nat.pow_le_pow_right (by decide) (by omega))
    have hhigh : (byteAt mem (p + n) &&& 0x7f) <<< (7 * n) < 2 ^ (7 * (n + 1)) := by
      rw [Nat.shiftLeft_eq, show 7 * (n + 1) = 7 + 7 * n by ring, Nat.pow_add]
      exact Nat.mul_lt_mul_of_pos_right hgroup (Nat.two_pow_pos _)
    exact Nat.or_lt_two_pow hlow hhigh

/-- One more byte of a reader that keeps `w` bits. -/
theorem ulebValue_succ_mod (mem : Memory) (p n w : Nat) :
    (ulebValue mem p n % 2 ^ w) |||
        (((byteAt mem (p + n) &&& 0x7f) <<< (7 * n)) % 2 ^ w) =
      ulebValue mem p (n + 1) % 2 ^ w := by
  rw [ulebValue, Nat.or_mod_two_pow]

/-- A ULEB128 encoding of at most five bytes fills `[p, q)`, and `value` is what
32 bits hold of it. -/
def UlebAt (mem : Memory) (p value q : Nat) : Prop :=
  ∃ n, IsUleb mem p n ∧ n ≤ 5 ∧ value = ulebValue mem p n % 2 ^ 32 ∧ q = p + n ∧ q ≤ mem.length

theorem UlebAt.lt {mem : Memory} {p value q : Nat} (h : UlebAt mem p value q) : p < q := by
  obtain ⟨n, hn, _, _, rfl, _⟩ := h
  have hpos := hn.pos
  omega

theorem UlebAt.le_five {mem : Memory} {p value q : Nat} (h : UlebAt mem p value q) :
    q ≤ p + 5 := by
  obtain ⟨n, _, hlen, _, rfl, _⟩ := h
  omega

theorem UlebAt.le_length {mem : Memory} {p value q : Nat} (h : UlebAt mem p value q) :
    q ≤ mem.length := by
  obtain ⟨_, _, _, _, _, hq⟩ := h
  exact hq

theorem UlebAt.unique {mem : Memory} {p value value' q q' : Nat} (h : UlebAt mem p value q)
    (h' : UlebAt mem p value' q') : value = value' ∧ q = q' := by
  obtain ⟨n, hn, _, rfl, rfl, _⟩ := h
  obtain ⟨m, hm, _, rfl, rfl, _⟩ := h'
  obtain rfl := hn.unique hm
  exact ⟨rfl, rfl⟩

end Leb128
