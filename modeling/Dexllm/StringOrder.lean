import Dexllm.TextCodec

/-!
The order of the string table. On the strings `VerifyMutf8` accepts the
comparator is the lexicographic order of their UTF-16 code units, so it is a
strict total order, and a table whose neighbours are in order has no string
twice.
-/

namespace Dexllm

open Guarded Bytes Mutf8

/-- The memory from a pointer to a string `VerifyMutf8` accepts. -/
def AcceptedMemory (mem : Memory) : Prop :=
  ∃ (v : Verifier) (p n : Nat), v.verifyMutf8 p n = .ok () ∧ mem = v.image.drop p

/-- The bytes before the terminator. -/
def stringBytes (mem : Memory) : Text := mem.takeWhile (· ≠ 0)

def decodedUnits (bs : Text) : List Nat := Dad.mutf8ToUtf16 bs.length (bs.map UInt8.toNat)

def AcceptedText : Type := { bs : Text // ∃ mem, AcceptedMemory mem ∧ bs = stringBytes mem }

/-- The comparator puts one string before the other. -/
def AcceptedText.Before (a b : AcceptedText) : Prop :=
  ∃ n, compareModifiedUtf8ToModifiedUtf8AsUtf16CodePointValues (a.1 ++ [0]) (b.1 ++ [0]) = .ok n ∧
    n < 0

theorem AcceptedMemory.spelled {mem : Memory} (h : AcceptedMemory mem) :
    ∃ us, Spelled us mem ∧ Spelling us (stringBytes mem) := by
  obtain ⟨v, p, n, hverify, rfl⟩ := h
  obtain ⟨units, hunits, _⟩ := bind_eq_ok.mp hverify
  obtain ⟨us, hus, _⟩ := post_of_ok (Verifier.wp_verifyMutf8From _ p 0 (by decide)) hunits
  refine ⟨us, hus, ?_⟩
  obtain ⟨bs, rest, hspell, hmem⟩ := hus
  unfold stringBytes
  rw [hmem, takeWhile_terminated hspell.ne_zero]
  exact hspell

theorem decodedUnits_spelling {us : List Nat} {bs : Text} (h : Spelling us bs) :
    decodedUnits bs = us := Dad.mutf8ToUtf16_spelling h _ h.length_le

namespace AcceptedText

variable {a b c : AcceptedText}

theorem spelling (a : AcceptedText) : Spelling (decodedUnits a.1) a.1 := by
  obtain ⟨bs, mem, hmem, rfl⟩ := a
  obtain ⟨us, _, hspell⟩ := hmem.spelled
  rw [decodedUnits_spelling hspell]
  exact hspell

theorem ext_units (h : decodedUnits a.1 = decodedUnits b.1) : a = b := by
  apply Subtype.ext
  have hb := b.spelling
  rw [← h] at hb
  exact a.spelling.bytes_unique hb

theorem before_iff : a.Before b ↔ decodedUnits a.1 < decodedUnits b.1 := by
  obtain ⟨n, hn, hless, _⟩ :=
    compare_spelled ⟨a.1, [], a.spelling, rfl⟩ ⟨b.1, [], b.spelling, rfl⟩
  unfold Before
  rw [hn, ← hless]
  constructor
  · rintro ⟨k, hk, hneg⟩
    rwa [Except.ok.inj hk]
  · exact fun hneg => ⟨n, rfl, hneg⟩

instance : IsStrictTotalOrder AcceptedText Before where
  trichotomous := by
    intro a b hab hba
    apply ext_units
    rw [before_iff] at hab hba
    exact le_antisymm (not_lt.mp hba) (not_lt.mp hab)
  irrefl := by
    intro a h
    exact lt_irrefl _ (before_iff.mp h)
  trans := by
    intro a b c hab hbc
    exact before_iff.mpr ((before_iff.mp hab).trans (before_iff.mp hbc))

end AcceptedText

/-- The comparator decides the lexicographic order of the code units, finds equal
exactly the equal strings, and so orders the strings totally; a table whose
neighbours are in order is ordered throughout and names no string twice. -/
theorem compare_strict_total_order :
    (∀ s1 s2, AcceptedMemory s1 → AcceptedMemory s2 →
      ∃ n, compareModifiedUtf8ToModifiedUtf8AsUtf16CodePointValues s1 s2 = .ok n ∧
        (n < 0 ↔ decodedUnits (stringBytes s1) < decodedUnits (stringBytes s2)) ∧
        (0 < n ↔ decodedUnits (stringBytes s2) < decodedUnits (stringBytes s1)) ∧
        (n = 0 ↔ stringBytes s1 = stringBytes s2)) ∧
    IsStrictTotalOrder AcceptedText AcceptedText.Before ∧
    ∀ table : List AcceptedText, table.IsChain AcceptedText.Before →
      table.Pairwise AcceptedText.Before ∧ table.Nodup := by
  refine ⟨?_, inferInstance, ?_⟩
  · intro s1 s2 h1 h2
    obtain ⟨us, hus, hspell⟩ := h1.spelled
    obtain ⟨vs, hvs, hspell'⟩ := h2.spelled
    obtain ⟨n, hn, hless, hzero⟩ := compare_spelled hus hvs
    rw [decodedUnits_spelling hspell, decodedUnits_spelling hspell']
    refine ⟨n, hn, hless, ?_, ?_⟩
    · rw [lt_iff_not_ge, le_iff_lt_or_eq, hless, hzero]
      rw [← le_iff_lt_or_eq, not_le]
    · rw [hzero]
      constructor
      · rintro rfl
        exact hspell.bytes_unique hspell'
      · intro heq
        rw [← decodedUnits_spelling hspell, heq, decodedUnits_spelling hspell']
  · intro table hchain
    have hsorted := List.isChain_iff_pairwise.mp hchain
    refine ⟨hsorted, hsorted.imp ?_⟩
    rintro a _ hab rfl
    exact irrefl a hab

set_option maxRecDepth 20000 in
/-- The encoded zero comes before the lone surrogate. -/
theorem compare_strict_total_order_loneSurrogate :
    ∃ s1 s2 n, AcceptedMemory s1 ∧ AcceptedMemory s2 ∧
      compareModifiedUtf8ToModifiedUtf8AsUtf16CodePointValues s1 s2 = .ok n ∧
      (n < 0 ↔ decodedUnits (stringBytes s1) < decodedUnits (stringBytes s2)) := by
  let range : DataRange loneSurrogateImage := ⟨0, 118, by decide⟩
  let v : Verifier := ⟨loneSurrogateImage, 0, headerAt loneSurrogateImage 0, range, true⟩
  have h1 : AcceptedMemory (v.image.drop 112) := ⟨v, 112, 2, by decide, rfl⟩
  have h2 : AcceptedMemory (v.image.drop 114) := ⟨v, 114, 1, by decide, rfl⟩
  obtain ⟨n, hn, hless, _⟩ := compare_strict_total_order.1 _ _ h1 h2
  exact ⟨_, _, n, h1, h2, hn, hless⟩

end Dexllm
