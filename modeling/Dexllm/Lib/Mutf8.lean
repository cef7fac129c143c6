import Dexllm.Lib.Bytes
import Mathlib.Data.List.Basic
import Mathlib.Data.Nat.Bitwise

/-!
Modified UTF-8: one to three bytes for each UTF-16 code unit, `C0 80` for the
unit zero. `CodeUnit` is the canonical spelling of one unit, `Spelling` that of
a string of them. A canonical spelling can be read off the units and the units
off the spelling.
-/

namespace Mutf8

open Bytes

/-- The unit a two-byte sequence spells. -/
def decode2 (one two : Nat) : Nat := ((one &&& 0x1f) <<< 6) ||| (two &&& 0x3f)

/-- The unit a three-byte sequence spells. -/
def decode3 (one two three : Nat) : Nat :=
  ((one &&& 0x0f) <<< 12) ||| ((two &&& 0x3f) <<< 6) ||| (three &&& 0x3f)

/-- `CodeUnit u bs`: the bytes `bs` are the canonical spelling of unit `u`. -/
inductive CodeUnit : Nat → List UInt8 → Prop where
  | one {a : UInt8} (hpos : 0 < a.toNat) (hlt : a.toNat < 0x80) : CodeUnit a.toNat [a]
  | two {a b : UInt8} (hlow : 0xC0 ≤ a.toNat) (hhigh : a.toNat < 0xE0)
      (htail : b.toNat &&& 0xC0 = 0x80)
      (hcanon : decode2 a.toNat b.toNat ≠ 0 → 0x80 ≤ decode2 a.toNat b.toNat) :
      CodeUnit (decode2 a.toNat b.toNat) [a, b]
  | three {a b c : UInt8} (hlow : 0xE0 ≤ a.toNat) (hhigh : a.toNat < 0xF0)
      (htail : b.toNat &&& 0xC0 = 0x80) (htail' : c.toNat &&& 0xC0 = 0x80)
      (hcanon : 0x800 ≤ decode3 a.toNat b.toNat c.toNat) :
      CodeUnit (decode3 a.toNat b.toNat c.toNat) [a, b, c]

/-- `Spelling us bs`: the bytes `bs` spell the units `us`. -/
inductive Spelling : List Nat → List UInt8 → Prop where
  | nil : Spelling [] []
  | cons {u : Nat} {us : List Nat} {cs bs : List UInt8} (hunit : CodeUnit u cs)
      (hrest : Spelling us bs) : Spelling (u :: us) (cs ++ bs)

/-- The memory from a pointer is a terminated string of units. -/
def Spelled (us : List Nat) (mem : Memory) : Prop :=
  ∃ bs rest, Spelling us bs ∧ mem = bs ++ 0 :: rest

theorem tail_iff (b : UInt8) : b.toNat &&& 0xC0 = 0x80 ↔ 0x80 ≤ b.toNat ∧ b.toNat < 0xC0 := by
  have hbytes : ∀ n < 256, n &&& 0xC0 = 0x80 ↔ 0x80 ≤ n ∧ n < 0xC0 := by
    set_option maxRecDepth 8000 in decide
  exact hbytes b.toNat b.toNat_lt

theorem tail_range (b : UInt8) (h : b.toNat &&& 0xC0 = 0x80) :
    0x80 ≤ b.toNat ∧ b.toNat < 0xC0 := (tail_iff b).mp h

theorem decode2_eq (one two : Nat) : decode2 one two = one % 32 * 64 + two % 64 := by
  have hone : one &&& 0x1f = one % 32 := Nat.and_two_pow_sub_one_eq_mod one 5
  have htwo : two &&& 0x3f = two % 64 := Nat.and_two_pow_sub_one_eq_mod two 6
  have hlt : two % 64 < 2 ^ 6 := Nat.mod_lt _ (by decide)
  rw [decode2, hone, htwo, ← Nat.shiftLeft_add_eq_or_of_lt hlt, Nat.shiftLeft_eq]

theorem decode3_eq (one two three : Nat) :
    decode3 one two three = one % 16 * 4096 + two % 64 * 64 + three % 64 := by
  have hone : one &&& 0x0f = one % 16 := Nat.and_two_pow_sub_one_eq_mod one 4
  have htwo : two &&& 0x3f = two % 64 := Nat.and_two_pow_sub_one_eq_mod two 6
  have hthree : three &&& 0x3f = three % 64 := Nat.and_two_pow_sub_one_eq_mod three 6
  have hlow : three % 64 < 2 ^ 6 := Nat.mod_lt _ (by decide)
  have hmid : (two % 64) <<< 6 + three % 64 < 2 ^ 12 := by
    have htwo64 : two % 64 < 64 := Nat.mod_lt _ (by decide)
    rw [Nat.shiftLeft_eq]
    omega
  rw [decode3, hone, htwo, hthree, Nat.or_assoc, ← Nat.shiftLeft_add_eq_or_of_lt hlow,
    ← Nat.shiftLeft_add_eq_or_of_lt hmid, Nat.shiftLeft_eq, Nat.shiftLeft_eq]
  omega

theorem CodeUnit.lt {u : Nat} {cs : List UInt8} (h : CodeUnit u cs) : u < 65536 := by
  cases h with
  | one _ hlt => omega
  | two _ _ _ _ =>
    rw [decode2_eq]
    omega
  | three _ _ _ _ _ =>
    rw [decode3_eq]
    omega

/-- No byte of a spelling is the terminator. -/
theorem CodeUnit.ne_zero {u : Nat} {cs : List UInt8} (h : CodeUnit u cs) :
    ∀ b ∈ cs, b ≠ 0 := by
  have hzero (b : UInt8) (hb : 0 < b.toNat) : b ≠ 0 := by
    rintro rfl
    exact absurd hb (by decide)
  cases h with
  | one hpos _ => simpa using hzero _ hpos
  | two hlow _ htail _ =>
    have hb := tail_range _ htail
    simp only [List.mem_cons, List.not_mem_nil, or_false]
    rintro x (rfl | rfl) <;> exact hzero _ (by omega)
  | three hlow _ htail htail' _ =>
    have hb := tail_range _ htail
    have hc := tail_range _ htail'
    simp only [List.mem_cons, List.not_mem_nil, or_false]
    rintro x (rfl | rfl | rfl) <;> exact hzero _ (by omega)

/-- The first byte of a spelled unit is the unit itself or a lead byte. -/
theorem CodeUnit.head {u : Nat} {cs : List UInt8} (h : CodeUnit u cs) :
    ∃ c ds, cs = c :: ds ∧ 0 < c.toNat ∧
      (c.toNat < 0x80 → u = c.toNat ∧ ds = []) ∧ (0x80 ≤ c.toNat → ∀ b ∈ cs, 0x80 ≤ b.toNat) := by
  cases h with
  | one hpos hlt =>
    exact ⟨_, [], rfl, hpos, fun _ => ⟨rfl, rfl⟩, by simp⟩
  | two hlow hhigh htail hcanon =>
    have hb := tail_range _ htail
    refine ⟨_, _, rfl, by omega, by omega, fun _ => ?_⟩
    simp only [List.mem_cons, List.not_mem_nil, or_false]
    rintro x (rfl | rfl) <;> omega
  | three hlow hhigh htail htail' hcanon =>
    have hb := tail_range _ htail
    have hc := tail_range _ htail'
    refine ⟨_, _, rfl, by omega, by omega, fun _ => ?_⟩
    simp only [List.mem_cons, List.not_mem_nil, or_false]
    rintro x (rfl | rfl | rfl) <;> omega

theorem Spelling.length_le {us : List Nat} {bs : List UInt8} (h : Spelling us bs) :
    us.length ≤ bs.length := by
  induction h with
  | nil => simp
  | cons hunit _ ih =>
    obtain ⟨c, ds, rfl, _⟩ := hunit.head
    simp only [List.cons_append, List.length_cons, List.length_append]
    omega

/-- A unit has one canonical spelling. -/
theorem CodeUnit.bytes_unique {u : Nat} {cs ds : List UInt8} (hcs : CodeUnit u cs)
    (hds : CodeUnit u ds) : cs = ds := by
  have hlen : ∀ {v : Nat} {es : List UInt8}, CodeUnit v es →
      (∃ a : UInt8, es = [a] ∧ v = a.toNat ∧ 0 < v ∧ v < 0x80) ∨
      (∃ a b : UInt8, es = [a, b] ∧ (v = 0 ∨ 0x80 ≤ v) ∧ v < 0x800 ∧
        a.toNat = 0xC0 + v / 64 ∧ b.toNat = 0x80 + v % 64) ∨
      (∃ a b c : UInt8, es = [a, b, c] ∧ 0x800 ≤ v ∧
        a.toNat = 0xE0 + v / 4096 ∧ b.toNat = 0x80 + v / 64 % 64 ∧
        c.toNat = 0x80 + v % 64) := by
    intro v es h
    cases h with
    | one hpos hlt => exact .inl ⟨_, rfl, rfl, hpos, hlt⟩
    | two hlow hhigh htail hcanon =>
      have hb := tail_range _ htail
      rw [decode2_eq] at hcanon ⊢
      exact .inr (.inl ⟨_, _, rfl, by omega, by omega, by omega, by omega⟩)
    | three hlow hhigh htail htail' hcanon =>
      have hb := tail_range _ htail
      have hc := tail_range _ htail'
      rw [decode3_eq] at hcanon ⊢
      exact .inr (.inr ⟨_, _, _, rfl, by omega, by omega, by omega, by omega⟩)
  have hbyte {a b : UInt8} (h : a.toNat = b.toNat) : a = b := UInt8.toNat_inj.mp h
  rcases hlen hcs with ⟨a, rfl, ha⟩ | ⟨a, b, rfl, ha⟩ | ⟨a, b, c, rfl, ha⟩ <;>
    rcases hlen hds with ⟨d, rfl, hd⟩ | ⟨d, e, rfl, hd⟩ | ⟨d, e, f, rfl, hd⟩
  · rw [hbyte (show a.toNat = d.toNat by omega)]
  · omega
  · omega
  · omega
  · rw [hbyte (show a.toNat = d.toNat by omega), hbyte (show b.toNat = e.toNat by omega)]
  · omega
  · omega
  · omega
  · rw [hbyte (show a.toNat = d.toNat by omega), hbyte (show b.toNat = e.toNat by omega),
      hbyte (show c.toNat = f.toNat by omega)]

/-- A string of units has one spelling. -/
theorem Spelling.bytes_unique {us : List Nat} {bs cs : List UInt8} (hbs : Spelling us bs)
    (hcs : Spelling us cs) : bs = cs := by
  induction hbs generalizing cs with
  | nil =>
    cases hcs
    rfl
  | cons hunit _ ih =>
    cases hcs with
    | cons hunit' hrest' => rw [hunit.bytes_unique hunit', ih hrest']

theorem Spelling.ne_zero {us : List Nat} {bs : List UInt8} (h : Spelling us bs) :
    ∀ b ∈ bs, b ≠ 0 := by
  induction h with
  | nil => simp
  | cons hunit _ ih =>
    intro b hb
    rcases List.mem_append.mp hb with hb | hb
    · exact hunit.ne_zero b hb
    · exact ih b hb

/-- A terminated string ends at its first zero byte. -/
theorem takeWhile_terminated {bs rest : List UInt8} (h : ∀ b ∈ bs, b ≠ 0) :
    (bs ++ 0 :: rest).takeWhile (· ≠ 0) = bs := by
  induction bs with
  | nil => simp
  | cons b bs ih =>
    have hb : b ≠ 0 := h b (by simp)
    simp only [List.cons_append, List.takeWhile_cons, hb, ne_eq, not_false_eq_true, decide_true,
      if_true]
    rw [ih fun c hc => h c (by simp [hc])]

/-- The canonical spelling of one unit. -/
def encodeUnit (u : Nat) : List UInt8 :=
  if 0 < u ∧ u < 0x80 then [.ofNat u]
  else if u < 0x800 then [.ofNat (0xC0 + u / 64), .ofNat (0x80 + u % 64)]
  else [.ofNat (0xE0 + u / 4096), .ofNat (0x80 + u / 64 % 64), .ofNat (0x80 + u % 64)]

/-- The canonical spelling of a string of units. -/
def encode (us : List Nat) : List UInt8 := us.flatMap encodeUnit

@[simp] theorem encode_nil : encode [] = [] := rfl

@[simp] theorem encode_cons (u : Nat) (us : List Nat) :
    encode (u :: us) = encodeUnit u ++ encode us := rfl

theorem toNat_ofNat {n : Nat} (h : n < 256) : (UInt8.ofNat n).toNat = n :=
  UInt8.toNat_ofNat_of_lt' h

theorem codeUnit_encodeUnit {u : Nat} (h : u < 65536) : CodeUnit u (encodeUnit u) := by
  unfold encodeUnit
  split
  · rename_i hone
    have ha := toNat_ofNat (n := u) (by omega)
    have hunit := CodeUnit.one (a := .ofNat u) (by omega) (by omega)
    rwa [ha] at hunit
  split
  · have ha := toNat_ofNat (n := 0xC0 + u / 64) (by omega)
    have hb := toNat_ofNat (n := 0x80 + u % 64) (by omega)
    have hdecode : decode2 (0xC0 + u / 64) (0x80 + u % 64) = u := by
      rw [decode2_eq]
      omega
    have hunit := CodeUnit.two (a := .ofNat (0xC0 + u / 64)) (b := .ofNat (0x80 + u % 64))
      (by omega) (by omega) ((tail_iff _).mpr (by omega)) (by rw [ha, hb, hdecode]; omega)
    rwa [ha, hb, hdecode] at hunit
  · have ha := toNat_ofNat (n := 0xE0 + u / 4096) (by omega)
    have hb := toNat_ofNat (n := 0x80 + u / 64 % 64) (by omega)
    have hc := toNat_ofNat (n := 0x80 + u % 64) (by omega)
    have hdecode : decode3 (0xE0 + u / 4096) (0x80 + u / 64 % 64) (0x80 + u % 64) = u := by
      rw [decode3_eq]
      omega
    have hunit := CodeUnit.three (a := .ofNat (0xE0 + u / 4096))
      (b := .ofNat (0x80 + u / 64 % 64)) (c := .ofNat (0x80 + u % 64)) (by omega) (by omega)
      ((tail_iff _).mpr (by omega)) ((tail_iff _).mpr (by omega)) (by rw [ha, hb, hc, hdecode]; omega)
    rwa [ha, hb, hc, hdecode] at hunit

theorem spelling_encode {us : List Nat} (h : ∀ u ∈ us, u < 65536) : Spelling us (encode us) := by
  induction us with
  | nil => exact .nil
  | cons u us ih =>
    exact .cons (codeUnit_encodeUnit (h u (by simp))) (ih fun w hw => h w (by simp [hw]))

theorem Spelling.lt {us : List Nat} {bs : List UInt8} (h : Spelling us bs) :
    ∀ u ∈ us, u < 65536 := by
  induction h with
  | nil => simp
  | cons hunit _ ih =>
    intro u hu
    rcases List.mem_cons.mp hu with rfl | hu
    · exact hunit.lt
    · exact ih u hu

/-- A spelling is the encoding of its units. -/
theorem Spelling.eq_encode {us : List Nat} {bs : List UInt8} (h : Spelling us bs) :
    bs = encode us := h.bytes_unique (spelling_encode h.lt)

def IsHighSurrogate (u : Nat) : Prop := 0xD800 ≤ u ∧ u ≤ 0xDBFF

def IsLowSurrogate (u : Nat) : Prop := 0xDC00 ≤ u ∧ u ≤ 0xDFFF

instance (u : Nat) : Decidable (IsHighSurrogate u) := inferInstanceAs (Decidable (_ ∧ _))

instance (u : Nat) : Decidable (IsLowSurrogate u) := inferInstanceAs (Decidable (_ ∧ _))

/-- The supplementary code point of a surrogate pair. -/
def pairCodePoint (high low : Nat) : Nat := 0x10000 + ((high - 0xD800) <<< 10) + (low - 0xDC00)

/-- `Paired us`: no unit is zero and every surrogate stands in a pair. -/
inductive Paired : List Nat → Prop where
  | nil : Paired []
  | unit {u : Nat} {us : List Nat} (hpos : 0 < u) (hplain : u < 0xD800 ∨ 0xDFFF < u)
      (hrest : Paired us) : Paired (u :: us)
  | pair {high low : Nat} {us : List Nat} (hhigh : IsHighSurrogate high)
      (hlow : IsLowSurrogate low) (hrest : Paired us) : Paired (high :: low :: us)

end Mutf8
