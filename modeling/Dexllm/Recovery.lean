import Dexllm.JavaText
import Mathlib.Data.List.Infix

/-!
What `GetUtf16FromUtf8` does with a sequence that is cut short or malformed. It takes the
continuation bytes one by one, and those it has taken when it meets a bad one are lost.
-/

namespace Dexllm

namespace Dad

/-- A continuation byte. -/
def IsTail (b : Nat) : Prop := b &&& 0xC0 = 0x80

instance (b : Nat) : Decidable (IsTail b) := inferInstanceAs (Decidable (_ = _))

/-- The number of continuation bytes the reader takes behind a lead byte. -/
def announced (one : Nat) : Nat :=
  if one &&& 0x80 = 0 then 0 else if one &&& 0x20 = 0 then 1 else if one &&& 0x10 = 0 then 2 else 3

/-- A byte a sequence can start with. -/
def IsLead (one : Nat) : Prop := one < 0x80 ∨ (0xC0 ≤ one ∧ one < 0xF8)

instance (one : Nat) : Decidable (IsLead one) := inferInstanceAs (Decidable (_ ∨ _))

/-- The sequence at the cursor is whole. A `strict` reading also rejects the lead bytes
`10xxxxxx` and `11111xxx`, which the reader takes for those of longer sequences. -/
def WholeSequence (strict : Bool) (one : Nat) (rest : List Nat) : Prop :=
  (strict = true → IsLead one) ∧ announced one ≤ rest.length ∧
    ∀ b ∈ rest.take (announced one), IsTail b

/-- The reader advances, not past the end, and takes one byte of a broken sequence, which is
the unit it gives. -/
structure Recovers (strict : Bool) (one : Nat) (rest : List Nat) : Prop where
  advances : (getUtf16FromUtf8 one rest).2 <:+ rest
  lone : ¬WholeSequence strict one rest → getUtf16FromUtf8 one rest = (one, rest)

/-- A broken sequence has no continuation byte behind its first byte. -/
def BreaksAtOnce (strict : Bool) (one : Nat) (rest : List Nat) : Prop :=
  ¬WholeSequence strict one rest → ∀ two, rest.head? = some two → ¬IsTail two

variable {strict : Bool} {one : Nat} {rest : List Nat}

theorem advances_getUtf16FromUtf8 (one : Nat) (rest : List Nat) :
    (getUtf16FromUtf8 one rest).2 <:+ rest := by
  unfold getUtf16FromUtf8
  split
  · exact List.suffix_rfl
  cases rest with
  | nil => exact List.suffix_rfl
  | cons two rest1 =>
    have hone : rest1 <:+ two :: rest1 := List.suffix_cons two rest1
    dsimp only
    split
    · exact List.suffix_rfl
    split
    · exact hone
    cases rest1 with
    | nil => exact List.nil_suffix
    | cons three rest2 =>
      have htwo : rest2 <:+ two :: three :: rest2 := (List.suffix_cons three rest2).trans hone
      dsimp only
      split
      · exact hone
      split
      · exact htwo
      cases rest2 with
      | nil => exact List.nil_suffix
      | cons four rest3 =>
        dsimp only
        split
        · exact htwo
        · exact (List.suffix_cons four rest3).trans htwo

/-- Without a continuation byte behind it a byte is taken alone. -/
theorem lone_of_head (hsequence : one &&& 0x80 ≠ 0)
    (hhead : ∀ two, rest.head? = some two → ¬IsTail two) :
    getUtf16FromUtf8 one rest = (one, rest) := by
  unfold getUtf16FromUtf8
  rw [if_neg hsequence]
  cases rest with
  | nil => rfl
  | cons two rest1 =>
    have hbad : two &&& 0xC0 ≠ 0x80 := hhead two rfl
    dsimp only
    rw [if_pos hbad]

/-- A continuation byte behind a byte that starts a sequence is taken. -/
theorem taken_of_head {two : Nat} (hsequence : one &&& 0x80 ≠ 0) (htail : IsTail two) :
    (getUtf16FromUtf8 one (two :: rest)).2 <:+ rest := by
  have hgood : ¬two &&& 0xC0 ≠ 0x80 := not_not.mpr htail
  unfold getUtf16FromUtf8
  rw [if_neg hsequence]
  dsimp only
  rw [if_neg hgood]
  split
  · exact List.suffix_rfl
  cases rest with
  | nil => exact List.nil_suffix
  | cons three rest2 =>
    dsimp only
    split
    · exact List.suffix_rfl
    split
    · exact List.suffix_cons three rest2
    cases rest2 with
    | nil => exact List.nil_suffix
    | cons four rest3 =>
      dsimp only
      split
      · exact List.suffix_cons three (four :: rest3)
      · exact (List.suffix_cons four rest3).trans (List.suffix_cons three _)

/-- Where the reader goes on at the next byte, that is no continuation byte. -/
theorem head_of_kept (hsequence : one &&& 0x80 ≠ 0)
    (hkept : (getUtf16FromUtf8 one rest).2 = rest) :
    ∀ two, rest.head? = some two → ¬IsTail two := by
  intro two hhead htail
  cases rest with
  | nil => cases hhead
  | cons first rest =>
    obtain rfl := Option.some.inj hhead
    have htaken : (getUtf16FromUtf8 one (first :: rest)).2 <:+ rest :=
      taken_of_head hsequence htail
    rw [hkept] at htaken
    have hlen := htaken.length_le
    rw [List.length_cons] at hlen
    omega

/-- A byte of seven bits is a sequence. -/
theorem whole_of_ascii (hascii : one &&& 0x80 = 0) (hbyte : one < 256) :
    WholeSequence strict one rest := by
  have hsmall : one < 0x80 := by
    have hbytes : ∀ n < 256, n &&& 0x80 = 0 → n < 0x80 := by
      set_option maxRecDepth 8000 in decide
    exact hbytes one hbyte hascii
  refine ⟨fun _ => Or.inl hsmall, ?_, ?_⟩ <;> simp [announced, hascii]

theorem recovers_iff (hbyte : one < 256) :
    Recovers strict one rest ↔ BreaksAtOnce strict one rest := by
  constructor
  · intro h hbroken
    have hsequence : one &&& 0x80 ≠ 0 := fun hascii => hbroken (whole_of_ascii hascii hbyte)
    exact head_of_kept hsequence (by rw [h.lone hbroken])
  · intro h
    refine ⟨advances_getUtf16FromUtf8 one rest, fun hbroken => ?_⟩
    have hsequence : one &&& 0x80 ≠ 0 := fun hascii => hbroken (whole_of_ascii hascii hbyte)
    exact lone_of_head hsequence (h hbroken)

/-! The cursors of `Mutf8ToUtf16`. -/

/-- The bytes from each cursor on that a sequence is read at. -/
def cursors : (rounds : Nat) → List Nat → List (List Nat)
  | 0, _ => []
  | _ + 1, [] => []
  | rounds + 1, one :: rest => (one :: rest) :: cursors rounds (getUtf16FromUtf8 one rest).2

/-- The units read at a cursor. -/
def unitsAt : List Nat → List Nat
  | [] => []
  | one :: rest =>
    let ch := (getUtf16FromUtf8 one rest).1
    (ch &&& 0xffff) :: if ch >>> 16 ≠ 0 then [ch >>> 16] else []

/-- The units of a text are those read at its cursors. -/
theorem mutf8ToUtf16_eq (rounds : Nat) (bytes : List Nat) :
    mutf8ToUtf16 rounds bytes = (cursors rounds bytes).flatMap unitsAt := by
  induction rounds generalizing bytes with
  | zero => rfl
  | succ rounds ih =>
    cases bytes with
    | nil => rfl
    | cons one rest =>
      rw [mutf8ToUtf16, cursors, List.flatMap_cons, ← ih]
      rfl

/-- Behind a broken sequence the reader goes on at the next byte. -/
def LosesNone (strict : Bool) (bytes : List Nat) : Prop :=
  ∀ one rest, one :: rest ∈ cursors bytes.length bytes → ¬WholeSequence strict one rest →
    (getUtf16FromUtf8 one rest).2 = rest

theorem mem_of_mem_cursors {rounds : Nat} {bytes at_ : List Nat} (h : at_ ∈ cursors rounds bytes) :
    at_ <:+ bytes := by
  induction rounds generalizing bytes with
  | zero => cases h
  | succ rounds ih =>
    cases bytes with
    | nil => cases h
    | cons one rest =>
      obtain rfl | h := List.mem_cons.mp h
      · exact List.suffix_rfl
      · exact (ih h).trans ((advances_getUtf16FromUtf8 one rest).trans (List.suffix_cons one rest))

/-- Under either reading, `GetUtf16FromUtf8` recovers from every broken sequence exactly when
the byte behind its first one is no continuation byte, and `Mutf8ToUtf16` loses no byte
exactly when that is so at each of its cursors. -/
theorem reader_recovers_iff (strict : Bool) (bytes : List UInt8) :
    (∀ one rest, one :: rest <:+ bytes.map UInt8.toNat →
      (Recovers strict one rest ↔ BreaksAtOnce strict one rest)) ∧
    (LosesNone strict (bytes.map UInt8.toNat) ↔
      ∀ one rest, one :: rest ∈ cursors bytes.length (bytes.map UInt8.toNat) →
        BreaksAtOnce strict one rest) := by
  have hbyte {one : Nat} {rest : List Nat} (h : one :: rest <:+ bytes.map UInt8.toNat) :
      one < 256 := by
    obtain ⟨b, -, rfl⟩ := List.mem_map.mp (h.subset List.mem_cons_self)
    exact b.toNat_lt
  refine ⟨fun one rest h => recovers_iff (hbyte h), ?_⟩
  unfold LosesNone
  rw [List.length_map]
  refine forall_congr' fun one => forall_congr' fun rest => forall_congr' fun hmem => ?_
  have hlead := hbyte (mem_of_mem_cursors hmem)
  constructor
  · intro h hbroken
    have hsequence : one &&& 0x80 ≠ 0 := fun hascii => hbroken (whole_of_ascii hascii hlead)
    exact head_of_kept hsequence (h hbroken)
  · intro h hbroken
    rw [((recovers_iff hlead).mpr h).lone hbroken]

/-- A three-byte sequence without its last byte loses its second one. -/
theorem cutSequence_lost : ¬ ∃ strict, ∀ (bytes : List UInt8), (∀ one rest,
    one :: rest <:+ bytes.map UInt8.toNat → Recovers strict one rest) ∧
    LosesNone strict (bytes.map UInt8.toNat) := by
  rintro ⟨strict, h⟩
  have hrecovers := (h [0xE2, 0x82, 0x41]).1 0xE2 [0x82, 0x41] List.suffix_rfl
  have hbroken : ¬WholeSequence strict 0xE2 [0x82, 0x41] := by
    rintro ⟨-, -, htail⟩
    exact absurd (htail 0x41 (by decide)) (by decide)
  exact absurd (hrecovers.lone hbroken) (by decide)

end Dad

end Dexllm
