import Dexllm.JavaText
import Dexllm.Verifier.StringSpecs
import Dexllm.Verifier.Verify

/-!
The text boundary of the library: the strings of a verified dex are Modified
UTF-8, the caller reads and writes UTF-8. The encoders and decoders between the
two are inverse to each other on every string `VerifyMutf8` accepts; the lossy
decoder, which drops lone surrogates, is so on every identifier.
-/

namespace Dexllm

open Guarded Bytes Mutf8

namespace Dad

/-- `AppendUtf8Astral`. -/
def utf8Astral (cp : Nat) : Text :=
  [0xF0 ||| (cp >>> 18), 0x80 ||| ((cp >>> 12) &&& 0x3F), 0x80 ||| ((cp >>> 6) &&& 0x3F),
    0x80 ||| (cp &&& 0x3F)].map UInt8.ofNat

/-- `Utf16ToUtf8`. -/
def utf16ToUtf8 : List Nat → Text
  | [] => []
  | [u] => utf8Bmp u
  | u :: w :: units =>
    if IsHighSurrogate u ∧ IsLowSurrogate w then
      utf8Astral (pairCodePoint u w) ++ utf16ToUtf8 units
    else utf8Bmp u ++ utf16ToUtf8 (w :: units)

/-- `Mutf8ToUtf8`. -/
def mutf8ToUtf8 (raw : Text) : Text := utf16ToUtf8 (mutf8ToUtf16 raw.length (raw.map UInt8.toNat))

/-- `emit_cp`. -/
def emitCp (cp : Nat) : Text :=
  let cp := if (0xD800 ≤ cp ∧ cp ≤ 0xDFFF) ∨ 0x10FFFF < cp then 0xFFFD else cp
  if cp < 0x10000 then utf8Bmp cp else utf8Astral cp

/-- What a lead byte starts: its bits of the code point, and the length of the
sequence. -/
def leadByte (c : Nat) : Option (Nat × Nat) :=
  if c &&& 0xE0 = 0xC0 then some (c &&& 0x1F, 2)
  else if c &&& 0xF0 = 0xE0 then some (c &&& 0x0F, 3)
  else if c &&& 0xF8 = 0xF0 then some (c &&& 0x07, 4)
  else none

/-- The loop over the continuation bytes of one sequence. -/
def continuation : (cp : Nat) → Text → Option Nat
  | cp, [] => some cp
  | cp, b :: bytes =>
    if b.toNat &&& 0xC0 ≠ 0x80 then none
    else continuation ((cp <<< 6) ||| (b.toNat &&& 0x3F)) bytes

/-- The low surrogate spelled at the cursor. -/
def lowSurrogate : Text → Option Nat
  | a :: b :: c :: _ =>
    if a.toNat &&& 0xF0 = 0xE0 ∧ b.toNat &&& 0xC0 = 0x80 ∧ c.toNat &&& 0xC0 = 0x80 ∧
        IsLowSurrogate (decode3 a.toNat b.toNat c.toNat) then
      some (decode3 a.toNat b.toNat c.toNat)
    else none
  | _ => none

/-- The loop of `Mutf8ToUtf8Lossy`, at most `rounds` sequences of it. -/
def mutf8ToUtf8LossyFrom : (rounds : Nat) → Text → Text
  | 0, _ => []
  | _ + 1, [] => []
  | rounds + 1, c :: rest =>
    if c.toNat < 0x80 then c :: mutf8ToUtf8LossyFrom rounds rest
    else match leadByte c.toNat with
      | none => emitCp 0xFFFD ++ mutf8ToUtf8LossyFrom rounds rest
      | some (cp, n) =>
        if rest.length + 1 < n then emitCp 0xFFFD ++ mutf8ToUtf8LossyFrom rounds rest
        else match continuation cp (rest.take (n - 1)) with
          | none => emitCp 0xFFFD ++ mutf8ToUtf8LossyFrom rounds rest
          | some cp =>
            let next := rest.drop (n - 1)
            match if IsHighSurrogate cp then lowSurrogate next else none with
            | some lo =>
              emitCp (pairCodePoint cp lo) ++ mutf8ToUtf8LossyFrom rounds (next.drop 3)
            | none => emitCp cp ++ mutf8ToUtf8LossyFrom rounds next

/-- `Mutf8ToUtf8Lossy`. -/
def mutf8ToUtf8Lossy (raw : Text) : Text :=
  if raw.all fun c => c.toNat < 0x80 then raw else mutf8ToUtf8LossyFrom raw.length raw

/-- The code point of a four-byte sequence. -/
def decode4 (one two three four : Nat) : Nat :=
  ((one &&& 0x07) <<< 18) ||| ((two &&& 0x3f) <<< 12) ||| ((three &&& 0x3f) <<< 6) |||
    (four &&& 0x3f)

/-- The slow path of `Utf8ToMutf8`. -/
def utf8ToMutf8From : Text → Text
  | [] => []
  | c :: rest =>
    if c.toNat = 0x00 then 0xC0 :: 0x80 :: utf8ToMutf8From rest
    else if c.toNat < 0xF0 then c :: utf8ToMutf8From rest
    else match rest with
      | p1 :: p2 :: p3 :: rest3 =>
        if c.toNat ≤ 0xF4 ∧ p1.toNat &&& 0xC0 = 0x80 ∧ p2.toNat &&& 0xC0 = 0x80 ∧
            p3.toNat &&& 0xC0 = 0x80 ∧
            0x10000 ≤ decode4 c.toNat p1.toNat p2.toNat p3.toNat then
          let cp := decode4 c.toNat p1.toNat p2.toNat p3.toNat - 0x10000
          utf8Bmp ((0xD800 + (cp >>> 10)) % 2 ^ 16) ++
            (utf8Bmp ((0xDC00 + (cp &&& 0x3FF)) % 2 ^ 16) ++ utf8ToMutf8From rest3)
        else c :: utf8ToMutf8From (p1 :: p2 :: p3 :: rest3)
      | rest => c :: utf8ToMutf8From rest

/-- `Utf8ToMutf8`. -/
def utf8ToMutf8 (utf8 : Text) : Text :=
  if utf8.any fun c => c.toNat = 0x00 || 0xF0 ≤ c.toNat then utf8ToMutf8From utf8 else utf8

section Bytes

private theorem or_lead :
    (∀ n < 32, 0xC0 ||| n = 0xC0 + n) ∧ (∀ n < 16, 0xE0 ||| n = 0xE0 + n) ∧
      (∀ n < 8, 0xF0 ||| n = 0xF0 + n) ∧ ∀ n < 64, 0x80 ||| n = 0x80 + n := by
  set_option maxRecDepth 4000 in decide

private theorem or_tail (n : Nat) : 0x80 ||| (n &&& 0x3F) = 0x80 + n % 64 := by
  rw [show n &&& 0x3F = n % 64 from Nat.and_two_pow_sub_one_eq_mod n 6]
  exact or_lead.2.2.2 _ (Nat.mod_lt _ (by decide))

/-- A unit other than zero has one spelling in both encodings. -/
theorem utf8Bmp_eq {u : Nat} (hpos : 0 < u) (hlt : u < 65536) : utf8Bmp u = encodeUnit u := by
  have hshift6 : u >>> 6 = u / 64 := Nat.shiftRight_eq_div_pow u 6
  have hshift12 : u >>> 12 = u / 4096 := Nat.shiftRight_eq_div_pow u 12
  unfold utf8Bmp encodeUnit
  by_cases hone : u < 0x80
  · simp [hone, hpos]
  by_cases htwo : u < 0x800
  · have hlead := or_lead.1 (u / 64) (by omega)
    simp [hone, htwo, hshift6, hlead, or_tail]
  · have hlead := or_lead.2.1 (u / 4096) (by omega)
    simp [hone, htwo, hshift6, hshift12, hlead, or_tail]

theorem utf8Bmp_zero : utf8Bmp 0 = [0] := rfl

theorem pairCodePoint_eq {high low : Nat} (hhigh : IsHighSurrogate high)
    (hlow : IsLowSurrogate low) :
    pairCodePoint high low = 0x10000 + (high - 0xD800) * 1024 + (low - 0xDC00) ∧
      0x10000 ≤ pairCodePoint high low ∧ pairCodePoint high low < 0x110000 := by
  obtain ⟨hhigh, hhigh'⟩ := hhigh
  obtain ⟨hlow, hlow'⟩ := hlow
  have hshift : (high - 0xD800) <<< 10 = (high - 0xD800) * 1024 := Nat.shiftLeft_eq _ 10
  have heq : pairCodePoint high low = 0x10000 + (high - 0xD800) * 1024 + (low - 0xDC00) :=
    congrArg (fun n => 0x10000 + n + (low - 0xDC00)) hshift
  exact ⟨heq, by omega, by omega⟩

theorem utf8Astral_eq {cp : Nat} (hlt : cp < 0x110000) :
    utf8Astral cp = [UInt8.ofNat (0xF0 + cp / 262144), UInt8.ofNat (0x80 + cp / 4096 % 64),
      UInt8.ofNat (0x80 + cp / 64 % 64), UInt8.ofNat (0x80 + cp % 64)] := by
  have hshift6 : cp >>> 6 = cp / 64 := Nat.shiftRight_eq_div_pow cp 6
  have hshift12 : cp >>> 12 = cp / 4096 := Nat.shiftRight_eq_div_pow cp 12
  have hshift18 : cp >>> 18 = cp / 262144 := Nat.shiftRight_eq_div_pow cp 18
  have hlead := or_lead.2.2.1 (cp / 262144) (by omega)
  simp [utf8Astral, hshift6, hshift12, hshift18, hlead, or_tail]

/-- The bits of a four-byte sequence under those of its lead. -/
theorem assemble4_eq (lead two three four : Nat) :
    (lead <<< 18) ||| ((two &&& 0x3f) <<< 12) ||| ((three &&& 0x3f) <<< 6) ||| (four &&& 0x3f) =
      lead * 262144 + two % 64 * 4096 + three % 64 * 64 + four % 64 := by
  have htwo : two &&& 0x3f = two % 64 := Nat.and_two_pow_sub_one_eq_mod two 6
  have hthree : three &&& 0x3f = three % 64 := Nat.and_two_pow_sub_one_eq_mod three 6
  have hfour : four &&& 0x3f = four % 64 := Nat.and_two_pow_sub_one_eq_mod four 6
  have hthree64 : three % 64 < 64 := Nat.mod_lt _ (by decide)
  have htwo64 : two % 64 < 64 := Nat.mod_lt _ (by decide)
  have hlow : four % 64 < 2 ^ 6 := Nat.mod_lt _ (by decide)
  have hmid : (three % 64) <<< 6 + four % 64 < 2 ^ 12 := by
    rw [Nat.shiftLeft_eq]
    omega
  have hhigh : (two % 64) <<< 12 + ((three % 64) <<< 6 + four % 64) < 2 ^ 18 := by
    rw [Nat.shiftLeft_eq, Nat.shiftLeft_eq]
    omega
  rw [htwo, hthree, hfour, Nat.or_assoc, Nat.or_assoc,
    ← Nat.shiftLeft_add_eq_or_of_lt hlow, ← Nat.shiftLeft_add_eq_or_of_lt hmid,
    ← Nat.shiftLeft_add_eq_or_of_lt hhigh, Nat.shiftLeft_eq, Nat.shiftLeft_eq, Nat.shiftLeft_eq]
  omega

theorem decode4_eq (one two three four : Nat) : decode4 one two three four =
    one % 8 * 262144 + two % 64 * 4096 + three % 64 * 64 + four % 64 := by
  rw [decode4, assemble4_eq, show one &&& 0x07 = one % 8 from Nat.and_two_pow_sub_one_eq_mod one 3]

end Bytes

section Encoder

theorem utf8ToMutf8From_zero (rest : Text) :
    utf8ToMutf8From (0 :: rest) = 0xC0 :: 0x80 :: utf8ToMutf8From rest := by
  rcases rest with _ | ⟨p1, _ | ⟨p2, _ | ⟨p3, rest⟩⟩⟩ <;> simp [utf8ToMutf8From]

theorem utf8ToMutf8From_plain {c : UInt8} (hne : c.toNat ≠ 0) (hlt : c.toNat < 0xF0)
    (rest : Text) : utf8ToMutf8From (c :: rest) = c :: utf8ToMutf8From rest := by
  rcases rest with _ | ⟨p1, _ | ⟨p2, _ | ⟨p3, rest⟩⟩⟩ <;> simp [utf8ToMutf8From, hne, hlt]

/-- Bytes that are neither zero nor a four-byte lead are copied. -/
theorem utf8ToMutf8From_append {bs : Text} (h : ∀ b ∈ bs, b.toNat ≠ 0 ∧ b.toNat < 0xF0)
    (s : Text) : utf8ToMutf8From (bs ++ s) = bs ++ utf8ToMutf8From s := by
  induction bs with
  | nil => rfl
  | cons b bs ih =>
    obtain ⟨hne, hlt⟩ := h b (by simp)
    have ih := ih fun c hc => h c (by simp [hc])
    rw [List.cons_append, utf8ToMutf8From_plain hne hlt, ih]
    rfl

/-- The fast path returns what the slow path would. -/
theorem utf8ToMutf8_eq (s : Text) : utf8ToMutf8 s = utf8ToMutf8From s := by
  unfold utf8ToMutf8
  split
  · rfl
  · rename_i hplain
    have hcopy := @utf8ToMutf8From_append s (fun b hb => by simp at hplain; exact hplain b hb) []
    simpa [utf8ToMutf8From] using hcopy.symm

theorem encodeUnit_plain {u : Nat} (hlt : u < 65536) :
    ∀ b ∈ encodeUnit u, b.toNat ≠ 0 ∧ b.toNat < 0xF0 := by
  have hunit := codeUnit_encodeUnit hlt
  generalize encodeUnit u = cs at hunit
  have hne (b : UInt8) (hb : b ∈ cs) : b.toNat ≠ 0 := fun h =>
    hunit.ne_zero b hb (UInt8.toNat_inj.mp h)
  have hbound : ∀ b ∈ cs, b.toNat < 0xF0 := by
    cases hunit with
    | one hpos hlt =>
      simp only [List.mem_cons, List.not_mem_nil, or_false]
      rintro b rfl
      omega
    | two hlow hhigh htail _ =>
      have hb := tail_range _ htail
      simp only [List.mem_cons, List.not_mem_nil, or_false]
      rintro x (rfl | rfl) <;> omega
    | three hlow hhigh htail htail' _ =>
      have hb := tail_range _ htail
      have hc := tail_range _ htail'
      simp only [List.mem_cons, List.not_mem_nil, or_false]
      rintro x (rfl | rfl | rfl) <;> omega
  exact fun b hb => ⟨hne b hb, hbound b hb⟩

/-- The encoder turns the UTF-8 form of one unit into its canonical spelling. -/
theorem utf8ToMutf8From_bmp {u : Nat} (hlt : u < 65536) (s : Text) :
    utf8ToMutf8From (utf8Bmp u ++ s) = encodeUnit u ++ utf8ToMutf8From s := by
  by_cases hzero : u = 0
  · subst hzero
    rw [utf8Bmp_zero]
    exact utf8ToMutf8From_zero s
  · rw [utf8Bmp_eq (by omega) hlt, utf8ToMutf8From_append (encodeUnit_plain hlt)]

/-- The encoder splits a supplementary code point into its surrogate pair. -/
theorem utf8ToMutf8From_astral {high low : Nat} (hhigh : IsHighSurrogate high)
    (hlow : IsLowSurrogate low) (s : Text) :
    utf8ToMutf8From (utf8Astral (pairCodePoint high low) ++ s) =
      encodeUnit high ++ (encodeUnit low ++ utf8ToMutf8From s) := by
  obtain ⟨heq, hmin, hmax⟩ := pairCodePoint_eq hhigh hlow
  obtain ⟨hhigh, hhigh'⟩ := hhigh
  obtain ⟨hlow, hlow'⟩ := hlow
  generalize pairCodePoint high low = cp at heq hmin hmax
  have h0 := toNat_ofNat (n := 0xF0 + cp / 262144) (by omega)
  have h1 := toNat_ofNat (n := 0x80 + cp / 4096 % 64) (by omega)
  have h2 := toNat_ofNat (n := 0x80 + cp / 64 % 64) (by omega)
  have h3 := toNat_ofNat (n := 0x80 + cp % 64) (by omega)
  have htail (n : Nat) : (0x80 + n % 64) &&& 0xC0 = 0x80 := by
    have hn := toNat_ofNat (n := 0x80 + n % 64) (by omega)
    have hbyte := (tail_iff (.ofNat (0x80 + n % 64))).mpr (by omega)
    rwa [hn] at hbyte
  have hdecode : decode4 (0xF0 + cp / 262144) (0x80 + cp / 4096 % 64) (0x80 + cp / 64 % 64)
      (0x80 + cp % 64) = cp := by
    rw [decode4_eq]
    omega
  have hlead : 0xF0 + cp / 262144 ≤ 0xF4 ∧ ¬0xF0 + cp / 262144 = 0 ∧
      ¬0xF0 + cp / 262144 < 0xF0 := by omega
  have hshift : (cp - 0x10000) >>> 10 = (cp - 0x10000) / 1024 := Nat.shiftRight_eq_div_pow _ 10
  have hmask : (cp - 0x10000) &&& 0x3FF = (cp - 0x10000) % 1024 :=
    Nat.and_two_pow_sub_one_eq_mod _ 10
  have hfirst : (0xD800 + (cp - 0x10000) >>> 10) % 2 ^ 16 = high := by
    rw [hshift]
    omega
  have hsecond : (0xDC00 + ((cp - 0x10000) &&& 0x3FF)) % 2 ^ 16 = low := by
    rw [hmask]
    omega
  rw [utf8Astral_eq hmax]
  simp only [List.cons_append, List.nil_append, utf8ToMutf8From, htail, h0, h1, h2, h3, hlead,
    hdecode, hmin, and_self, if_true, if_false, hfirst, hsecond]
  rw [utf8Bmp_eq (by omega) (by omega), utf8Bmp_eq (by omega) (by omega)]

/-- Encoding undoes `Utf16ToUtf8`, lone surrogates and zero units included. -/
theorem utf8ToMutf8_utf16ToUtf8 {us : List Nat} (h : ∀ u ∈ us, u < 65536) :
    utf8ToMutf8 (utf16ToUtf8 us) = encode us := by
  rw [utf8ToMutf8_eq]
  induction us using utf16ToUtf8.induct with
  | case1 => rfl
  | case2 u =>
    have hunit := utf8ToMutf8From_bmp (h u (by simp)) []
    simpa [utf16ToUtf8, utf8ToMutf8From] using hunit
  | case3 u w units hpair ih =>
    rw [utf16ToUtf8, if_pos hpair, utf8ToMutf8From_astral hpair.1 hpair.2,
      ih fun x hx => h x (by simp [hx])]
    rfl
  | case4 u w units hpair ih =>
    rw [utf16ToUtf8, if_neg hpair, utf8ToMutf8From_bmp (h u (by simp)),
      ih fun x hx => h x (by simp [hx])]
    rfl

end Encoder

section Decoder

/-- The bounded decoder reads back one canonical unit. -/
theorem mutf8ToUtf16_append {u : Nat} {cs : Text} (h : CodeUnit u cs) (rounds : Nat)
    (s : List Nat) :
    mutf8ToUtf16 (rounds + 1) (cs.map UInt8.toNat ++ s) = u :: mutf8ToUtf16 rounds s := by
  have hlt := h.lt
  have hlead : u &&& 0xffff = u := by
    rw [show u &&& 0xffff = u % 65536 from Nat.and_two_pow_sub_one_eq_mod u 16]
    exact Nat.mod_eq_of_lt hlt
  have htrail : u >>> 16 = 0 := by
    rw [Nat.shiftRight_eq_div_pow]
    exact Nat.div_eq_of_lt hlt
  have hunit : ∃ c ds, cs.map UInt8.toNat = c :: ds ∧
      getUtf16FromUtf8 c (ds ++ s) = (u, s) := by
    cases h with
    | @one a hpos hascii =>
      exact ⟨a.toNat, [], rfl, by simp [getUtf16FromUtf8, (leadBit a).1.mpr hascii]⟩
    | @two a b hlow hhigh htail hcanon =>
      have hwide : a.toNat &&& 0x80 ≠ 0 := fun h => absurd ((leadBit a).1.mp h) (by omega)
      have htwo := (leadBit a).2.1 hlow hhigh
      exact ⟨a.toNat, [b.toNat], rfl, by simp [getUtf16FromUtf8, hwide, htwo, htail]⟩
    | @three a b c hlow hhigh htail htail' hcanon =>
      have hwide : a.toNat &&& 0x80 ≠ 0 := fun h => absurd ((leadBit a).1.mp h) (by omega)
      have htwo := (leadBit a).2.2.1 hlow
      have hthree := (leadBit a).2.2.2 hlow hhigh
      exact ⟨a.toNat, [b.toNat, c.toNat], rfl,
        by simp [getUtf16FromUtf8, hwide, htwo, hthree, htail, htail']⟩
  obtain ⟨c, ds, hcs, hget⟩ := hunit
  rw [hcs, List.cons_append, mutf8ToUtf16, hget]
  simp only [hlead, htrail, ne_eq, not_true_eq_false, if_false, List.nil_append]

theorem mutf8ToUtf16_spelling {us : List Nat} {bs : Text} (h : Spelling us bs) (rounds : Nat)
    (hrounds : us.length ≤ rounds) : mutf8ToUtf16 rounds (bs.map UInt8.toNat) = us := by
  induction h generalizing rounds with
  | nil => cases rounds <;> rfl
  | cons hunit hrest ih =>
    obtain ⟨rounds, rfl⟩ : ∃ k, rounds = k + 1 := ⟨rounds - 1, by simp at hrounds; omega⟩
    rw [List.map_append, mutf8ToUtf16_append hunit, ih rounds (by simpa using hrounds)]

end Decoder

section LossyDecoder

private theorem leadByte_classes (b : UInt8) :
    (0xC0 ≤ b.toNat → b.toNat < 0xE0 → b.toNat &&& 0xE0 = 0xC0) ∧
      (0xE0 ≤ b.toNat → b.toNat < 0xF0 → b.toNat &&& 0xE0 ≠ 0xC0 ∧ b.toNat &&& 0xF0 = 0xE0) := by
  have hbytes : ∀ n < 256, (0xC0 ≤ n → n < 0xE0 → n &&& 0xE0 = 0xC0) ∧
      (0xE0 ≤ n → n < 0xF0 → n &&& 0xE0 ≠ 0xC0 ∧ n &&& 0xF0 = 0xE0) := by
    set_option maxRecDepth 8000 in decide
  exact hbytes b.toNat b.toNat_lt

/-- The decoder reads a canonical unit outside ASCII from its lead byte. -/
theorem leadByte_codeUnit {u : Nat} {cs : Text} (h : CodeUnit u cs) (hwide : 0x80 ≤ u ∨ u = 0) :
    ∃ c ds cp, cs = c :: ds ∧ ¬c.toNat < 0x80 ∧ leadByte c.toNat = some (cp, ds.length + 1) ∧
      continuation cp ds = some u := by
  cases h with
  | one hpos hlt => omega
  | @two a b hlow hhigh htail hcanon =>
    have hclass := (leadByte_classes a).1 hlow hhigh
    exact ⟨a, [b], a.toNat &&& 0x1F, rfl, by omega, by simp [leadByte, hclass],
      by simp [continuation, htail, decode2]⟩
  | @three a b c hlow hhigh htail htail' hcanon =>
    obtain ⟨hclass, hclass'⟩ := (leadByte_classes a).2 hlow hhigh
    refine ⟨a, [b, c], a.toNat &&& 0x0F, rfl, by omega, by simp [leadByte, hclass, hclass'], ?_⟩
    simp [continuation, htail, htail', decode3, Nat.shiftLeft_or_distrib, ← Nat.shiftLeft_add]

/-- One round of the decoder on a canonical unit outside ASCII. -/
theorem mutf8ToUtf8LossyFrom_append {u : Nat} {cs : Text} (h : CodeUnit u cs)
    (hwide : 0x80 ≤ u ∨ u = 0) (rounds : Nat) (s : Text) :
    mutf8ToUtf8LossyFrom (rounds + 1) (cs ++ s) =
      match if IsHighSurrogate u then lowSurrogate s else none with
      | some lo => emitCp (pairCodePoint u lo) ++ mutf8ToUtf8LossyFrom rounds (s.drop 3)
      | none => emitCp u ++ mutf8ToUtf8LossyFrom rounds s := by
  obtain ⟨c, ds, cp, rfl, hc, hlead, hcont⟩ := leadByte_codeUnit h hwide
  have hlen : ¬(ds ++ s).length + 1 < ds.length + 1 := by simp
  simp only [List.cons_append, mutf8ToUtf8LossyFrom, hc, hlead, hlen, if_false,
    Nat.add_sub_cancel, List.take_left, List.drop_left, hcont]

theorem emitCp_plain {u : Nat} (hlt : u < 65536) (hplain : u < 0xD800 ∨ 0xDFFF < u) :
    emitCp u = utf8Bmp u := by
  have hvalid : ¬((0xD800 ≤ u ∧ u ≤ 0xDFFF) ∨ 0x10FFFF < u) := by omega
  have hbmp : u < 0x10000 := hlt
  simp only [emitCp, hvalid, hbmp, if_true, if_false]

theorem emitCp_astral {cp : Nat} (hmin : 0x10000 ≤ cp) (hmax : cp < 0x110000) :
    emitCp cp = utf8Astral cp := by
  have hvalid : ¬((0xD800 ≤ cp ∧ cp ≤ 0xDFFF) ∨ 0x10FFFF < cp) := by omega
  have hbmp : ¬cp < 0x10000 := by omega
  simp only [emitCp, hvalid, hbmp, if_false]

/-- A canonical unit that is a character of its own is decoded to its UTF-8
form. -/
theorem mutf8ToUtf8LossyFrom_unit {u : Nat} {cs : Text} (h : CodeUnit u cs) (hpos : 0 < u)
    (hplain : u < 0xD800 ∨ 0xDFFF < u) (rounds : Nat) (s : Text) :
    mutf8ToUtf8LossyFrom (rounds + 1) (cs ++ s) = utf8Bmp u ++ mutf8ToUtf8LossyFrom rounds s := by
  by_cases hwide : 0x80 ≤ u
  · have hhigh : ¬IsHighSurrogate u := by
      rintro ⟨_, _⟩
      omega
    rw [mutf8ToUtf8LossyFrom_append h (.inl hwide)]
    simp only [hhigh, if_false, emitCp_plain h.lt hplain]
  · rw [utf8Bmp_eq hpos h.lt, ← h.bytes_unique (codeUnit_encodeUnit h.lt)]
    cases h with
    | one _ hlt => simp only [List.cons_append, List.nil_append, mutf8ToUtf8LossyFrom, hlt, if_true]
    | two _ _ _ hcanon => omega
    | three _ _ _ _ hcanon => omega

theorem lowSurrogate_append {low : Nat} {ds : Text} (h : CodeUnit low ds)
    (hlow : IsLowSurrogate low) (s : Text) :
    lowSurrogate (ds ++ s) = some low ∧ (ds ++ s).drop 3 = s := by
  have hmin := hlow.1
  cases h with
  | one _ hlt => omega
  | two _ _ _ _ =>
    rw [decode2_eq] at hmin
    omega
  | @three a b c hlead hlead' htail htail' _ =>
    have hclass := ((leadByte_classes a).2 hlead hlead').2
    simp [lowSurrogate, hclass, htail, htail', hlow]

/-- A canonical surrogate pair is decoded to one four-byte sequence. -/
theorem mutf8ToUtf8LossyFrom_pair {high low : Nat} {cs ds : Text} (hcs : CodeUnit high cs)
    (hds : CodeUnit low ds) (hhigh : IsHighSurrogate high) (hlow : IsLowSurrogate low)
    (rounds : Nat) (s : Text) :
    mutf8ToUtf8LossyFrom (rounds + 1) (cs ++ (ds ++ s)) =
      utf8Astral (pairCodePoint high low) ++ mutf8ToUtf8LossyFrom rounds s := by
  obtain ⟨hnext, hdrop⟩ := lowSurrogate_append hds hlow s
  obtain ⟨_, hmin, hmax⟩ := pairCodePoint_eq hhigh hlow
  have hwide : 0x80 ≤ high := by
    have := hhigh.1
    omega
  rw [mutf8ToUtf8LossyFrom_append hcs (.inl hwide)]
  simp only [hhigh, if_true, hnext, hdrop, emitCp_astral hmin hmax]

/-- On a string without lone surrogates and zero units the lossy decoder loses
nothing. -/
theorem mutf8ToUtf8LossyFrom_paired {us : List Nat} {bs : Text} (hpaired : Paired us)
    (hbs : Spelling us bs) (rounds : Nat) (hrounds : us.length ≤ rounds) :
    mutf8ToUtf8LossyFrom rounds bs = utf16ToUtf8 us := by
  induction hpaired generalizing bs rounds with
  | nil =>
    cases hbs
    cases rounds <;> rfl
  | @unit u us hpos hplain hrest ih =>
    obtain ⟨rounds, rfl⟩ : ∃ k, rounds = k + 1 := ⟨rounds - 1, by simp at hrounds; omega⟩
    cases hbs with
    | cons hunit hbs =>
      have hhigh : ¬IsHighSurrogate u := by
        rintro ⟨_, _⟩
        omega
      rw [mutf8ToUtf8LossyFrom_unit hunit hpos hplain, ih hbs rounds (by simpa using hrounds)]
      cases us with
      | nil => simp [utf16ToUtf8]
      | cons w us => simp [utf16ToUtf8, hhigh]
  | @pair high low us hhigh hlow hrest ih =>
    obtain ⟨rounds, rfl⟩ : ∃ k, rounds = k + 1 := ⟨rounds - 1, by simp at hrounds; omega⟩
    cases hbs with
    | cons hunit hbs =>
      cases hbs with
      | cons hunit2 hbs =>
        have hlen : us.length ≤ rounds := by simp at hrounds; omega
        rw [mutf8ToUtf8LossyFrom_pair hunit hunit2 hhigh hlow, ih hbs rounds hlen, utf16ToUtf8,
          if_pos ⟨hhigh, hlow⟩]

theorem mutf8ToUtf8LossyFrom_ascii {raw : Text} (h : ∀ c ∈ raw, c.toNat < 0x80) :
    mutf8ToUtf8LossyFrom raw.length raw = raw := by
  induction raw with
  | nil => rfl
  | cons c raw ih =>
    have hc := h c (by simp)
    simp only [List.length_cons, mutf8ToUtf8LossyFrom, hc, if_true,
      ih fun d hd => h d (by simp [hd])]

/-- The fast path returns what the slow path would. -/
theorem mutf8ToUtf8Lossy_eq (raw : Text) :
    mutf8ToUtf8Lossy raw = mutf8ToUtf8LossyFrom raw.length raw := by
  unfold mutf8ToUtf8Lossy
  split
  · rename_i hascii
    exact (mutf8ToUtf8LossyFrom_ascii (by simpa using hascii)).symm
  · rfl

/-- Encoding undoes the lossy decoder on a string without lone surrogates. -/
theorem utf8ToMutf8_mutf8ToUtf8Lossy {us : List Nat} {bs : Text} (hpaired : Paired us)
    (hbs : Spelling us bs) : utf8ToMutf8 (mutf8ToUtf8Lossy bs) = bs := by
  rw [mutf8ToUtf8Lossy_eq, mutf8ToUtf8LossyFrom_paired hpaired hbs _ hbs.length_le,
    utf8ToMutf8_utf16ToUtf8 hbs.lt, hbs.eq_encode]

end LossyDecoder

end Dad

namespace Verifier

variable {v : Verifier}

theorem readU1_of_drop {mem s : Memory} {a : Nat} {b : UInt8} (h : mem.drop a = b :: s) :
    readU1 mem a = .ok b.toNat ∧ mem.drop (a + 1) = s := by
  have ha : a < mem.length := by
    by_contra hge
    rw [List.drop_eq_nil_of_le (by omega)] at h
    cases h
  obtain ⟨c, hc, hdrop⟩ := drop_eq_cons ha
  rw [hdrop] at h
  obtain ⟨rfl, rfl⟩ := List.cons.inj h
  exact ⟨by rw [hc]; exact read_of_le ha, rfl⟩

/-- One round of `VerifyMutf8` on a canonical unit. -/
theorem verifyMutf8From_append {u : Nat} {cs : Text} (hunit : CodeUnit u cs) {p : Nat}
    {s : Memory} (hdrop : v.image.drop p = cs ++ s) (hend : p + cs.length < v.endOfFile)
    (room units : Nat) :
    v.verifyMutf8From (room + 1) p units =
      v.verifyMutf8From room (p + cs.length) ((units + 1) % 2 ^ 32) := by
  cases hunit with
  | @one a hpos hlt =>
    obtain ⟨ha, _⟩ := readU1_of_drop hdrop
    have hin : ¬v.endOfFile ≤ p := by omega
    have hne : a.toNat ≠ 0 := by omega
    simp only [verifyMutf8From, failIf, hin, ha, bind_ok, hne, hlt, if_true, if_false,
      List.length_singleton]
  | @two a b hlow hhigh htail hcanon =>
    obtain ⟨ha, hdrop⟩ := readU1_of_drop hdrop
    obtain ⟨hb, _⟩ := readU1_of_drop hdrop
    simp only [List.length_cons, List.length_nil] at hend
    have hin : ¬v.endOfFile ≤ p ∧ ¬v.endOfFile ≤ p + 1 := by omega
    have hlead : ¬a.toNat = 0 ∧ ¬a.toNat < 0x80 ∧ ¬a.toNat < 0xC0 := by omega
    have hvalid : ¬(decode2 a.toNat b.toNat ≠ 0 ∧ decode2 a.toNat b.toNat < 0x80) := by omega
    simp only [verifyMutf8From, failIf, hin, ha, hb, bind_ok, hlead, hhigh, htail, hvalid, ne_eq,
      not_true_eq_false, if_true, if_false, List.length_cons, List.length_nil, Nat.zero_add]
  | @three a b c hlow hhigh htail htail' hcanon =>
    obtain ⟨ha, hdrop⟩ := readU1_of_drop hdrop
    obtain ⟨hb, hdrop⟩ := readU1_of_drop hdrop
    obtain ⟨hc, _⟩ := readU1_of_drop hdrop
    simp only [List.length_cons, List.length_nil] at hend
    have hin : ¬v.endOfFile ≤ p ∧ ¬v.endOfFile ≤ p + 1 ∧ ¬v.endOfFile ≤ p + 2 := by omega
    have hlead : ¬a.toNat = 0 ∧ ¬a.toNat < 0x80 ∧ ¬a.toNat < 0xC0 ∧ ¬a.toNat < 0xE0 := by omega
    have hvalid : ¬decode3 a.toNat b.toNat c.toNat < 0x800 := by omega
    simp only [verifyMutf8From, failIf, hin, ha, hb, hc, bind_ok, hlead, hhigh, htail, htail',
      hvalid, ne_eq, not_true_eq_false, if_true, if_false, List.length_cons, List.length_nil,
      Nat.zero_add, Nat.reduceAdd]

/-- `VerifyMutf8` runs through a canonical spelling to its terminator. -/
theorem verifyMutf8From_spelling {us : List Nat} {bs : Text} (hbs : Spelling us bs) {p : Nat}
    {rest : Memory} (hdrop : v.image.drop p = bs ++ 0 :: rest)
    (hend : p + bs.length < v.endOfFile) {room units : Nat} (hroom : us.length < room)
    (hunits : units < 2 ^ 32) :
    v.verifyMutf8From room p units = .ok ((units + us.length) % 2 ^ 32) := by
  induction hbs generalizing p room units with
  | nil =>
    obtain ⟨room, rfl⟩ : ∃ k, room = k + 1 := ⟨room - 1, by simp at hroom; omega⟩
    obtain ⟨hzero, _⟩ := readU1_of_drop hdrop
    have hin : ¬v.endOfFile ≤ p := by simp at hend; omega
    have hunits : units % 4294967296 = units := Nat.mod_eq_of_lt hunits
    simp [verifyMutf8From, failIf, hin, hzero, hunits, pure, Except.pure]
  | @cons u us cs bs hunit hrest ih =>
    obtain ⟨room, rfl⟩ : ∃ k, room = k + 1 := ⟨room - 1, by simp at hroom; omega⟩
    rw [List.append_assoc] at hdrop
    have hnext : v.image.drop (p + cs.length) = bs ++ 0 :: rest := by
      rw [← List.drop_drop, hdrop, List.drop_left]
    rw [List.length_append] at hend
    rw [verifyMutf8From_append hunit hdrop (by omega),
      ih hnext (by omega) (by simpa using hroom) (Nat.mod_lt _ (by decide))]
    congr 1
    rw [List.length_cons]
    omega

/-- `VerifyMutf8` accepts exactly the canonical spellings of the declared
length. The count wraps at `2 ^ 32`, past the end of any data range. -/
theorem verifyMutf8_eq_ok_iff (hsize : v.range.size_ < 2 ^ 32) {off n : Nat} {bs rest : Memory}
    (hdrop : v.image.drop (v.offsetToPtr off) = bs ++ 0 :: rest) (hzero : 0 ∉ bs)
    (hend : v.offsetToPtr off + bs.length < v.endOfFile) :
    v.verifyMutf8 (v.offsetToPtr off) n = .ok () ↔ ∃ us, us.length = n ∧ Spelling us bs := by
  have hshort : bs.length < 2 ^ 32 := by
    simp only [offsetToPtr, endOfFile] at hend
    omega
  have hne : ∀ b ∈ bs, b ≠ 0 := fun b hb h => hzero (h ▸ hb)
  constructor
  · intro hok
    obtain ⟨units, hunits, hcheck⟩ := bind_eq_ok.mp hok
    obtain ⟨us, ⟨bs', rest', hspell, hmem⟩, rfl⟩ :=
      post_of_ok (wp_verifyMutf8From _ _ 0 (by decide)) hunits
    have hbs : bs = bs' := by
      rw [← takeWhile_terminated hne, ← takeWhile_terminated hspell.ne_zero, ← hdrop, ← hmem]
    subst hbs
    have hlen := hspell.length_le
    have hn := failIf_eq_ok.mp hcheck
    rw [Nat.zero_add, Nat.mod_eq_of_lt (by omega)] at hn
    exact ⟨us, by simpa using hn, hspell⟩
  · rintro ⟨us, rfl, hspell⟩
    have hlen := hspell.length_le
    have hroom : us.length < v.endOfFile - v.offsetToPtr off := by omega
    have hmod : (0 + us.length) % 2 ^ 32 = us.length := by
      rw [Nat.zero_add]
      exact Nat.mod_eq_of_lt (by omega)
    rw [verifyMutf8, verifyMutf8From_spelling hspell hdrop hend hroom (by decide), hmod, bind_ok]
    exact failIf_eq_ok.mpr (by simp)

end Verifier

/-- A data range is as long as a `u4` says at most. -/
theorem size_lt_of_computeDataRange {image : Memory} {headerOff : Nat}
    {hoff : headerOff ≤ image.length} {header : Header} {range : DataRange image}
    (hfile : header.fileSize < 2 ^ 32)
    (hok : computeDataRange image headerOff hoff header = .ok range) : range.size_ < 2 ^ 32 := by
  simp only [computeDataRange] at hok
  split at hok
  · obtain ⟨containerOff, _, hok⟩ := bind_eq_ok.mp hok
    obtain ⟨_, _, hok⟩ := bind_eq_ok.mp hok
    obtain ⟨containerSize, hsize, hok⟩ := bind_eq_ok.mp hok
    have hlt : containerSize < 2 ^ 32 := by
      unfold readContainerSize at hsize
      split at hsize
      · rw [← (read_eq_ok.mp hsize).2]
        exact u4At_lt _ _
      · rwa [← Except.ok.inj hsize]
    split at hok
    · cases hok
    · rw [← Except.ok.inj hok]
      exact hlt
  · rw [← Except.ok.inj hok]
    exact lt_of_le_of_lt (min_le_left _ _) hfile

theorem size_lt_of_openVerifier {image : Memory} {headerOff : Nat} {checkInsns : Bool}
    {v : Verifier} (hopen : openVerifier image headerOff checkInsns = .ok v) :
    v.range.size_ < 2 ^ 32 := by
  unfold openVerifier at hopen
  split at hopen
  · obtain ⟨_, _, hopen⟩ := bind_eq_ok.mp hopen
    obtain ⟨header, hheader, hopen⟩ := bind_eq_ok.mp hopen
    obtain ⟨range, hrange, hopen⟩ := bind_eq_ok.mp hopen
    have hfile : header.fileSize < 2 ^ 32 := by
      rw [← (read_eq_ok.mp hheader).2]
      exact u4At_lt _ _
    rw [← Except.ok.inj hopen]
    exact size_lt_of_computeDataRange hfile hrange
  · cases hopen

/-- The canonical MUTF-8 encoding of a string of UTF-16 code units. -/
def enc (us : List UInt16) : Text := encode (us.map UInt16.toNat)

theorem spelling_enc (us : List UInt16) : Spelling (us.map UInt16.toNat) (enc us) := by
  apply spelling_encode
  simp only [List.mem_map]
  rintro _ ⟨u, _, rfl⟩
  exact u.toNat_lt

/-- The spellings are the encodings. -/
theorem exists_spelling_iff {n : Nat} {bs : Text} :
    (∃ us, us.length = n ∧ Spelling us bs) ↔ ∃ us : List UInt16, us.length = n ∧ bs = enc us := by
  constructor
  · rintro ⟨us, hlen, hspell⟩
    have hunits : (us.map UInt16.ofNat).map UInt16.toNat = us := by
      have hunit : ∀ u ∈ us, (UInt16.toNat ∘ UInt16.ofNat) u = id u := fun u hu =>
        UInt16.toNat_ofNat_of_lt' (hspell.lt u hu)
      rw [List.map_map, List.map_congr_left hunit, List.map_id]
    refine ⟨us.map UInt16.ofNat, by simpa using hlen, ?_⟩
    rw [enc, hunits]
    exact hspell.eq_encode
  · rintro ⟨us, hlen, rfl⟩
    exact ⟨us.map UInt16.toNat, by simpa using hlen, spelling_enc us⟩

/-- Validator, decoder and encoder agree on one canonical encoding: the
validator accepts the encodings of the declared length and nothing else, the
decoder gives the units back, and re-encoding the UTF-8 form gives the encoding
back, with lone surrogates, adjacent surrogates and encoded zeros included. -/
theorem mutf8_codecs_agree {image : Memory} {headerOff : Nat} {checkInsns : Bool} {v : Verifier}
    (hopen : openVerifier image headerOff checkInsns = .ok v) :
    (∀ (off n : Nat) (bs rest : Memory), v.image.drop (v.offsetToPtr off) = bs ++ 0 :: rest →
      0 ∉ bs → v.offsetToPtr off + bs.length < v.endOfFile →
      (v.verifyMutf8 (v.offsetToPtr off) n = .ok () ↔
        ∃ us : List UInt16, us.length = n ∧ bs = enc us)) ∧
    (∀ us : List UInt16,
      Dad.mutf8ToUtf16 (enc us).length ((enc us).map UInt8.toNat) = us.map UInt16.toNat) ∧
    ∀ us : List UInt16, Dad.utf8ToMutf8 (Dad.mutf8ToUtf8 (enc us)) = enc us := by
  have hdecode (us : List UInt16) :
      Dad.mutf8ToUtf16 (enc us).length ((enc us).map UInt8.toNat) = us.map UInt16.toNat :=
    Dad.mutf8ToUtf16_spelling (spelling_enc us) _ (spelling_enc us).length_le
  refine ⟨fun off n bs rest hdrop hzero hend => ?_, hdecode, fun us => ?_⟩
  · rw [Verifier.verifyMutf8_eq_ok_iff (size_lt_of_openVerifier hopen) hdrop hzero hend]
    exact exists_spelling_iff
  · rw [Dad.mutf8ToUtf8, hdecode, Dad.utf8ToMutf8_utf16ToUtf8 (spelling_enc us).lt]
    rfl

/-- A bare header whose data range ends in the string data of an encoded zero
and a lone surrogate. -/
def loneSurrogateImage : Memory :=
  List.replicate 32 0 ++ [118, 0, 0, 0] ++ List.replicate 76 0 ++
    [0xc0, 0x80, 0xed, 0xa0, 0x80, 0x00]

set_option maxRecDepth 20000 in
/-- The agreement on an encoded zero before a lone surrogate. -/
theorem mutf8_codecs_agree_loneSurrogate :
    ∃ v : Verifier, openVerifier loneSurrogateImage 0 true = .ok v ∧
      v.verifyMutf8 (v.offsetToPtr 112) 2 = .ok () ∧
      Dad.utf8ToMutf8 (Dad.mutf8ToUtf8 (enc [0, 0xD800])) = enc [0, 0xD800] := by
  let range : DataRange loneSurrogateImage := ⟨0, 118, by decide⟩
  let v : Verifier := ⟨loneSurrogateImage, 0, headerAt loneSurrogateImage 0, range, true⟩
  have hopen : openVerifier loneSurrogateImage 0 true = .ok v := rfl
  have hagree := mutf8_codecs_agree hopen
  have hstring := hagree.1 112 2 (enc [0, 0xD800]) [] (by decide) (by decide)
    (by decide)
  exact ⟨v, hopen, hstring.mpr ⟨[0, 0xD800], rfl, rfl⟩, hagree.2.2 _⟩

/-- The bytes `s` of a string that `VerifyMutf8` accepts and that is a valid
descriptor or member name. -/
def IsPoolIdentifier (s : Text) : Prop :=
  ∃ (v : Verifier) (p n : Nat), v.verifyMutf8 p n = .ok () ∧
    s = (v.image.drop p).takeWhile (· ≠ 0) ∧
    (isValidDescriptor (v.image.drop p) = .ok true ∨ isValidMemberName (v.image.drop p) = .ok true)

/-- An identifier of the pool is the spelling of units without lone surrogates. -/
theorem IsPoolIdentifier.paired {s : Text} (h : IsPoolIdentifier s) :
    ∃ us, Paired us ∧ Spelling us s := by
  obtain ⟨v, p, n, hverify, rfl, hvalid⟩ := h
  obtain ⟨units, hunits, _⟩ := bind_eq_ok.mp hverify
  obtain ⟨us, ⟨bs, rest, hspell, hmem⟩, _⟩ :=
    post_of_ok (Verifier.wp_verifyMutf8From _ p 0 (by decide)) hunits
  rw [hmem] at hvalid ⊢
  rw [takeWhile_terminated hspell.ne_zero]
  refine ⟨us, ?_, hspell⟩
  rcases hvalid with hvalid | hvalid
  · exact (post_of_ok (wp_isValidDescriptor hspell rest) hvalid rfl).1
  · exact (post_of_ok (wp_isValidMemberName hspell rest) hvalid rfl).1

/-- An identifier survives the text boundary: encoding its printed form gives
the bytes of the pool back, so no two identifiers are printed alike. -/
theorem identifier_round_trip :
    (∀ s, IsPoolIdentifier s → Dad.utf8ToMutf8 (Dad.mutf8ToUtf8Lossy s) = s) ∧
      ∀ s s', IsPoolIdentifier s → IsPoolIdentifier s' →
        Dad.mutf8ToUtf8Lossy s = Dad.mutf8ToUtf8Lossy s' → s = s' := by
  have hround (s : Text) (hs : IsPoolIdentifier s) :
      Dad.utf8ToMutf8 (Dad.mutf8ToUtf8Lossy s) = s := by
    obtain ⟨us, hpaired, hspell⟩ := hs.paired
    exact Dad.utf8ToMutf8_mutf8ToUtf8Lossy hpaired hspell
  refine ⟨hround, fun s s' hs hs' heq => ?_⟩
  rw [← hround s hs, heq, hround s' hs']

/-- The string data of the descriptor `L𐐀é;`, its first letter a surrogate
pair. -/
def pairedName : Memory := [0x4c, 0xed, 0xa0, 0x81, 0xed, 0xb0, 0x80, 0xc3, 0xa9, 0x3b, 0x00]

set_option maxRecDepth 20000 in
/-- The round trip of a name with a surrogate pair. -/
theorem identifier_round_trip_pairedName :
    Dad.utf8ToMutf8 (Dad.mutf8ToUtf8Lossy pairedName.dropLast) = pairedName.dropLast ∧
      (Dad.mutf8ToUtf8Lossy pairedName.dropLast).length = 8 := by
  let v : Verifier := ⟨pairedName, 0, headerAt pairedName 0, ⟨0, 11, by decide⟩, false⟩
  have hident : IsPoolIdentifier pairedName.dropLast :=
    ⟨v, 0, 5, by decide, by decide, .inl (by decide)⟩
  exact ⟨identifier_round_trip.1 _ hident, by decide⟩

end Dexllm
