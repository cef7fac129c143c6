import Dexllm.Format
import Dexllm.Lib.Leb128

/-!
`class DexVerifier`: the image, the header under verification and the byte
range its offsets are relative to, with the bounded primitives every phase is
written in.
-/

namespace Dexllm

open Guarded Bytes Leb128

/-- `VerifyImageState::HandleSectionNeeds`: the smallest table sizes that
accept every index of a walked method_handle section. -/
structure HandleSectionNeeds where
  fieldIds : Nat
  methodIds : Nat
  deriving DecidableEq, Repr

/-- The scratch threaded across the slices of one image. `entered` is a ghost:
the `count` of every section walk that was started, latest first. -/
structure VerifyImageState where
  walkedMethodHandles : List ((Nat × Nat) × HandleSectionNeeds) := []
  methodHandleEntriesLeft : Nat := 0
  entered : List Nat := []
  deriving DecidableEq, Repr

/-- ART's `GetDataRange`: the bytes `[begin, begin + size)` of the image that a
header's offsets address. -/
structure DataRange (image : Memory) where
  begin_ : Nat
  size_ : Nat
  inImage : begin_ + size_ ≤ image.length

/-- The state of a `DexVerifier` once `ComputeDataRange` has succeeded. -/
structure Verifier where
  image : Memory
  headerOff : Nat
  header : Header
  range : DataRange image
  checkInsns : Bool

namespace Verifier

variable (v : Verifier)

/-- `image_size_ - header_off_`. -/
def avail : Nat := v.image.length - v.headerOff

def endOfFile : Nat := v.range.begin_ + v.range.size_

def offsetToPtr (off : Nat) : Nat := v.range.begin_ + off

/-- `TableAt<T>(off, i)` for an item of `bytes` bytes. -/
def tableAt (off i bytes : Nat) : Nat := v.range.begin_ + off + i * bytes

theorem endOfFile_le : v.endOfFile ≤ v.image.length := v.range.inImage

theorem offsetToPtr_eq (off : Nat) : v.offsetToPtr off = v.range.begin_ + off := rfl

/-- `CheckListSize`: `count` elements of `elem` bytes fit from `start` to the
end of the data range. -/
def checkListSize (start count elem : Nat) (label : String) : Run Unit := do
  failIf (start < v.range.begin_ ∨ v.endOfFile < start) ("List out of file: " ++ label)
  failIf ((v.range.size_ - (start - v.range.begin_)) / elem < count)
    ("List too large: " ++ label)

def isAligned (off align : Nat) : Bool := align == 0 || off &&& (align - 1) == 0

/-- `CheckValidOffsetAndSize`. -/
def checkValidOffsetAndSize (offset size align : Nat) (label : String) : Run Unit :=
  if size = 0 then
    failIf (offset ≠ 0) ("Offset nonzero for empty " ++ label)
  else do
    failIf (v.range.size_ ≤ offset) ("Offset past file for " ++ label)
    failIf (v.range.size_ - offset < size) ("Section past file for " ++ label)
    failIf (isAligned offset align = false) ("Misaligned offset for " ++ label)

def checkSizeLimit (size limit : Nat) (label : String) : Run Unit :=
  failIf (limit < size) ("Too many " ++ label)

def checkIndex (idx limit : Nat) (label : String) : Run Unit :=
  failIf (limit ≤ idx) ("Bad index: " ++ label)

/-- `ReadUleb` from round `i` on, `rounds` more bytes allowed. -/
def readUlebFrom : (rounds i p result : Nat) → Run (Option (Nat × Nat))
  | 0, _, _, _ => pure none
  | rounds + 1, i, p, result =>
    if v.endOfFile ≤ p then pure none
    else do
      let b ← readU1 v.image p
      let result := result ||| (((b &&& 0x7f) <<< (7 * i)) % 2 ^ 32)
      if b &&& 0x80 = 0 then pure (some (result, p + 1))
      else readUlebFrom rounds (i + 1) (p + 1) result

/-- `ReadUleb`: at most five bytes, all before the end of the data range. The
value, kept in 32 bits, and the cursor after it. -/
def readUleb (p : Nat) : Run (Option (Nat × Nat)) := v.readUlebFrom 5 0 p 0

/-- `if (!ReadUleb(&p, &x)) return Fail(reason)`. -/
def readUlebOrFail (p : Nat) (reason : String) : Run (Nat × Nat) := do
  let read ← v.readUleb p
  orFail read reason

/-- The `s4` with these 32 bits. -/
def toS4 (bits : Nat) : Int := if bits < 2 ^ 31 then bits else (bits : Int) - 2 ^ 32

/-- `ReadSleb` from round `i` on: `result` holds the 32 bits gathered so far. -/
def readSlebFrom : (rounds i p result : Nat) → Run (Option (Int × Nat))
  | 0, _, _, _ => pure none
  | rounds + 1, i, p, result =>
    if v.endOfFile ≤ p then pure none
    else do
      let b ← readU1 v.image p
      let result := result ||| (((b &&& 0x7f) <<< (7 * i)) % 2 ^ 32)
      if b &&& 0x80 = 0 then
        let shift := 7 * (i + 1)
        let filled := if shift < 32 ∧ b &&& 0x40 ≠ 0 then result ||| (2 ^ 32 - 2 ^ shift) else result
        pure (some (toS4 filled, p + 1))
      else readSlebFrom rounds (i + 1) (p + 1) result

/-- `ReadSleb`. -/
def readSleb (p : Nat) : Run (Option (Int × Nat)) := v.readSlebFrom 5 0 p 0

section Specs

variable {v} {p : Nat}

/-- `CheckListSize` bounds the byte span of the list. -/
theorem wp_checkListSize {start count elem : Nat} {label : String} (helem : 0 < elem)
    {post : Unit → Prop}
    (h : v.range.begin_ ≤ start → start + count * elem ≤ v.endOfFile → post ()) :
    wp (v.checkListSize start count elem label) post := by
  simp only [checkListSize, wp_bind, wp_failIf]
  intro hin hfit
  have hbegin : v.range.begin_ ≤ start := by omega
  have hend : start ≤ v.endOfFile := by omega
  refine h hbegin ?_
  have hcount : count * elem ≤ v.range.size_ - (start - v.range.begin_) :=
    (Nat.le_div_iff_mul_le helem).mp (by omega)
  unfold endOfFile at hend ⊢
  omega

theorem wp_checkValidOffsetAndSize {offset size align : Nat} {label : String}
    {post : Unit → Prop} (h : offset + size ≤ v.range.size_ → post ()) :
    wp (v.checkValidOffsetAndSize offset size align label) post := by
  unfold checkValidOffsetAndSize
  by_cases hsize : size = 0
  · simp only [hsize, if_true, wp_failIf]
    intro hoff
    exact h (by omega)
  · simp only [hsize, if_false, wp_bind, wp_failIf]
    intro hpast hfit _
    exact h (by omega)

/-- Round `i` of the read that started at `p`, with the groups before it
gathered: it ends at the encoding's last byte. -/
theorem wp_readUlebFrom (rounds i : Nat) (hrounds : i + rounds ≤ 5)
    (hmore : ∀ j, j < i → byteAt v.image (p + j) &&& 0x80 ≠ 0) :
    wp (v.readUlebFrom rounds i (p + i) (ulebValue v.image p i % 2 ^ 32)) fun r =>
      ∀ value q, r = some (value, q) →
        UlebAt v.image p value q ∧ q ≤ p + i + rounds ∧ q ≤ v.endOfFile := by
  induction rounds generalizing i with
  | zero => simp [readUlebFrom]
  | succ rounds ih =>
    unfold readUlebFrom
    by_cases hend : v.endOfFile ≤ p + i
    · simp [hend]
    · have hin := v.endOfFile_le
      simp only [hend, if_false, wp_bind, wp_readU1, ulebValue_succ_mod]
      refine ⟨by omega, ?_⟩
      rw [wp_ite]
      constructor
      · intro hlast
        simp only [wp_pure, Option.some.injEq, Prod.mk.injEq]
        rintro value q ⟨rfl, rfl⟩
        refine ⟨⟨i + 1, ⟨Nat.succ_pos i, ?_, hlast⟩, by omega, rfl, rfl, by omega⟩, by omega,
          by omega⟩
        intro j hj
        exact hmore j (by omega)
      · intro hcont
        refine wp_mono (ih (i + 1) (by omega) ?_) fun r hr value q hq => ?_
        · intro j hj
          rcases Nat.lt_succ_iff_lt_or_eq.mp hj with hlt | rfl
          · exact hmore j hlt
          · exact hcont
        · have hpost := hr value q hq
          exact ⟨hpost.1, by omega, hpost.2.2⟩

/-- What a bounded ULEB128 read returns: the encoding at the cursor, at most
five bytes of it, kept in 32 bits. -/
theorem wp_readUleb : wp (v.readUleb p) fun r => ∀ value q, r = some (value, q) →
    UlebAt v.image p value q ∧ q ≤ p + 5 ∧ q ≤ v.endOfFile :=
  wp_readUlebFrom 5 0 le_rfl (by intro j hj; omega)

theorem wp_readUlebOrFail {reason : String} {post : Nat × Nat → Prop}
    (h : ∀ value q, UlebAt v.image p value q → q ≤ p + 5 → q ≤ v.endOfFile → post (value, q)) :
    wp (v.readUlebOrFail p reason) post := by
  simp only [readUlebOrFail, wp_bind, wp_orFail]
  refine wp_mono wp_readUleb fun r hr pair hpair => ?_
  obtain ⟨value, q⟩ := pair
  obtain ⟨huleb, hlen, hq⟩ := hr value q hpair
  exact h value q huleb hlen hq

theorem wp_readSlebFrom (rounds i result : Nat) :
    wp (v.readSlebFrom rounds i p result) fun r =>
      ∀ value q, r = some (value, q) → p < q ∧ q ≤ v.endOfFile := by
  induction rounds generalizing i p result with
  | zero => simp [readSlebFrom]
  | succ rounds ih =>
    unfold readSlebFrom
    by_cases hend : v.endOfFile ≤ p
    · simp [hend]
    · have hin := v.endOfFile_le
      simp only [hend, if_false, wp_bind, wp_readU1]
      refine ⟨by omega, ?_⟩
      rw [wp_ite]
      constructor
      · intro _
        simp only [wp_pure, Option.some.injEq, Prod.mk.injEq]
        rintro value q ⟨_, rfl⟩
        omega
      · intro _
        refine wp_mono (ih (p := p + 1) _ _) fun r hr value q hq => ?_
        have hpq := hr value q hq
        omega

theorem wp_readSleb : wp (v.readSleb p) fun r =>
    ∀ value q, r = some (value, q) → p < q ∧ q ≤ v.endOfFile :=
  wp_readSlebFrom 5 0 0

end Specs

end Verifier

end Dexllm
