import Dexllm.Lib.Utf8
import Dexllm.TextCodec
import Mathlib.Data.List.TakeWhile

/-!
The text of the dex in the rendered source. `SanitizeUtf8` turns the raw bytes of
an identifier into UTF-8, `CommentSafe` makes a UTF-8 text safe to stand in a
`//` comment. Both act on code points: the first is the identity on well-formed
text, the second spells every line break, control character and backslash out.
-/

namespace Dexllm

open Mutf8

namespace Dad

/-- `AppendUtf16AsIdentifier`. -/
def utf16AsIdentifier : List Nat → Text
  | [] => []
  | [u] => utf16Escaped u
  | u :: w :: units =>
    if IsHighSurrogate u ∧ IsLowSurrogate w then
      utf8Astral (pairCodePoint u w) ++ utf16AsIdentifier units
    else utf16Escaped u ++ utf16AsIdentifier (w :: units)

/-- The loop of `SanitizeUtf8`, one ASCII byte or one run of other bytes a
round. -/
def sanitizeUtf8From : (rounds : Nat) → Text → Text
  | 0, _ => []
  | _ + 1, [] => []
  | rounds + 1, c :: rest =>
    if c.toNat < 0x80 then c :: sanitizeUtf8From rounds rest
    else
      let run := (c :: rest).takeWhile fun b => 0x80 ≤ b.toNat
      utf16AsIdentifier (mutf8ToUtf16 run.length (run.map UInt8.toNat)) ++
        sanitizeUtf8From rounds ((c :: rest).dropWhile fun b => 0x80 ≤ b.toNat)

/-- `SanitizeUtf8`. -/
def sanitizeUtf8 (text : Text) : Text := sanitizeUtf8From text.length text

/-- `escape` of `CommentSafe`: `<U+%04X>`. -/
def commentEscape (cp : Nat) : Text :=
  let hex := (Nat.toDigits 16 cp).map fun c => UInt8.ofNat c.toUpper.toNat
  ascii "<U+" ++ (List.replicate (4 - hex.length) 0x30 ++ hex) ++ ascii ">"

/-- `CommentSafe`. -/
def commentSafe : Text → Text
  | [] => []
  | c :: rest =>
    if c.toNat < 0x20 ∨ c.toNat = 0x7F ∨ c.toNat = 0x5C then
      commentEscape c.toNat ++ commentSafe rest
    else match rest with
      | [] => [c]
      | d :: rest1 =>
        if c.toNat = 0xC2 ∧ d.toNat ≤ 0x9F then commentEscape d.toNat ++ commentSafe rest1
        else match rest1 with
          | [] => c :: commentSafe [d]
          | e :: rest2 =>
            if c.toNat = 0xE2 ∧ d.toNat = 0x80 ∧ (e.toNat = 0xA8 ∨ e.toNat = 0xA9) then
              commentEscape (if e.toNat = 0xA8 then 0x2028 else 0x2029) ++ commentSafe rest2
            else c :: commentSafe (d :: e :: rest2)

section Encoders

theorem mem_toDigitsCore {c : Char} {fuel n : Nat} {acc : List Char}
    (h : c ∈ Nat.toDigitsCore 16 fuel n acc) : c ∈ acc ∨ ∃ d < 16, c = Nat.digitChar d := by
  induction fuel generalizing n acc with
  | zero => exact Or.inl h
  | succ fuel ih =>
    have hdigit : ∃ d < 16, Nat.digitChar (n % 16) = Nat.digitChar d :=
      ⟨n % 16, Nat.mod_lt _ (by decide), rfl⟩
    have hcons (h : c ∈ Nat.digitChar (n % 16) :: acc) :
        c ∈ acc ∨ ∃ d < 16, c = Nat.digitChar d := by
      obtain rfl | h := List.mem_cons.mp h
      · exact Or.inr hdigit
      · exact Or.inl h
    rw [Nat.toDigitsCore] at h
    split at h
    · exact hcons h
    · obtain h | h := ih h
      · exact hcons h
      · exact Or.inr h

/-- A hexadecimal digit, in either case, is an ASCII letter or digit. -/
theorem hex_range {c : Char} {n : Nat} (h : c ∈ Nat.toDigits 16 n) :
    (0x30 ≤ c.toNat ∧ c.toNat < 0x5C ∨ 0x60 < c.toNat ∧ c.toNat < 0x7F) ∧
      0x30 ≤ c.toUpper.toNat ∧ c.toUpper.toNat < 0x5C := by
  have hdigits : ∀ d < 16, (0x30 ≤ (Nat.digitChar d).toNat ∧ (Nat.digitChar d).toNat < 0x5C ∨
      0x60 < (Nat.digitChar d).toNat ∧ (Nat.digitChar d).toNat < 0x7F) ∧
      0x30 ≤ (Nat.digitChar d).toUpper.toNat ∧ (Nat.digitChar d).toUpper.toNat < 0x5C := by
    decide
  obtain h | ⟨d, hd, rfl⟩ := mem_toDigitsCore h
  · exact absurd h List.not_mem_nil
  · exact hdigits d hd

/-- A unit that is no surrogate has the encoding of its character. -/
theorem utf8Bmp_char {u : Nat} (hlt : u < 65536) (hplain : u < 0xD800 ∨ 0xDFFF < u) :
    utf8Bmp u = String.utf8EncodeChar (Char.ofNat u) := by
  have hchar : (Char.ofNat u).toNat = u := Utf8.toNat_ofNat hplain (by omega)
  obtain rfl | hpos := Nat.eq_zero_or_pos u
  · decide
  rw [utf8Bmp_eq hpos hlt, encodeUnit]
  split
  · rw [Utf8.encodeChar_one (by omega), hchar]
  split
  · rw [Utf8.encodeChar_two (by omega) (by omega), hchar]
  · rw [Utf8.encodeChar_three (by omega) (by omega), hchar]

theorem utf8Astral_char {cp : Nat} (hmin : 0x10000 ≤ cp) (hmax : cp < 0x110000) :
    utf8Astral cp = String.utf8EncodeChar (Char.ofNat cp) := by
  have hchar : (Char.ofNat cp).toNat = cp := Utf8.toNat_ofNat (by omega) hmax
  rw [utf8Astral_eq hmax, Utf8.encodeChar_four (by omega), hchar]

theorem wellFormed_ascii {bs : Text} (h : ∀ b ∈ bs, b.toNat < 0x80) : Utf8.WellFormed bs := by
  induction bs with
  | nil => exact .nil
  | cons b bs ih =>
    have hb := h b (by simp)
    have hchar : (Char.ofNat b.toNat).toNat = b.toNat := Utf8.toNat_ofNat (by omega) (by omega)
    have hcode : String.utf8EncodeChar (Char.ofNat b.toNat) = [b] := by
      rw [Utf8.encodeChar_one (by omega), hchar, UInt8.ofNat_toNat]
    simpa only [hcode, List.singleton_append] using
      (Utf8.WellFormed.char (Char.ofNat b.toNat)).append (ih fun d hd => h d (by simp [hd]))

theorem wellFormed_utf16Escaped {u : Nat} (hlt : u < 65536) :
    Utf8.WellFormed (utf16Escaped u) := by
  unfold utf16Escaped
  split
  · refine wellFormed_ascii fun b hb => ?_
    simp only [List.mem_append] at hb
    obtain (hb | hb) | hb := hb
    · have hslash : ∀ b ∈ ascii "\\u", b.toNat < 0x80 := by simp [ascii]
      exact hslash b hb
    · rw [List.eq_of_mem_replicate hb]
      decide
    · obtain ⟨c, hc, rfl⟩ := List.mem_map.mp hb
      have hrange := (hex_range hc).1
      rw [Mutf8.toNat_ofNat (by omega)]
      omega
  · rw [utf8Bmp_char hlt (by omega)]
    exact .char _

/-- Whatever the units are, the identifier is well formed: what has no encoding is
spelled as an escape. -/
theorem wellFormed_utf16AsIdentifier {units : List Nat} (h : ∀ u ∈ units, u < 65536) :
    Utf8.WellFormed (utf16AsIdentifier units) := by
  fun_induction utf16AsIdentifier units with
  | case1 => exact .nil
  | case2 u => exact wellFormed_utf16Escaped (h u (by simp))
  | case3 u w units hpair ih =>
    have hcp := (pairCodePoint_eq hpair.1 hpair.2).2
    rw [utf8Astral_char hcp.1 hcp.2]
    exact (Utf8.WellFormed.char _).append (ih fun v hv => h v (by simp [hv]))
  | case4 u w units hpair ih =>
    exact (wellFormed_utf16Escaped (h u (by simp))).append (ih fun v hv => h v (by simp [hv]))

end Encoders

section Sanitizer

/-- `GetUtf16FromUtf8` gives one unit or a pair of them, on any bytes. -/
theorem getUtf16FromUtf8_lt {one : Nat} {rest : List Nat} (hone : one < 256) :
    (getUtf16FromUtf8 one rest).1 < 2 ^ 32 := by
  unfold getUtf16FromUtf8
  split
  · omega
  split
  · omega
  split
  · omega
  split
  · rw [decode2_eq]
    omega
  split
  · omega
  split
  · omega
  split
  · rw [decode3_eq]
    omega
  split
  · omega
  split
  · omega
  · refine Nat.or_lt_two_pow (Nat.lt_of_le_of_lt Nat.and_le_right (by decide)) ?_
    have htrail (n : Nat) : n &&& 0x03ff ≤ 0x03ff := Nat.and_le_right
    rw [Nat.shiftLeft_eq]
    exact Nat.lt_of_le_of_lt (Nat.mul_le_mul_right _ (Nat.add_le_add_right (htrail _) _))
      (by decide)

theorem getUtf16FromUtf8_subset (one : Nat) (rest : List Nat) :
    (getUtf16FromUtf8 one rest).2 ⊆ rest := by
  intro b hb
  unfold getUtf16FromUtf8 at hb
  grind

theorem mutf8ToUtf16_lt {rounds : Nat} {bytes : List Nat} (h : ∀ b ∈ bytes, b < 256) :
    ∀ u ∈ mutf8ToUtf16 rounds bytes, u < 65536 := by
  induction rounds generalizing bytes with
  | zero => simp [mutf8ToUtf16]
  | succ rounds ih =>
    cases bytes with
    | nil => simp [mutf8ToUtf16]
    | cons one rest =>
      have hch := @getUtf16FromUtf8_lt one rest (h one (by simp))
      have hrest := ih fun b hb => h b (List.mem_cons_of_mem _
        (getUtf16FromUtf8_subset one rest hb))
      rw [mutf8ToUtf16]
      intro u hu
      simp only [List.mem_cons, List.mem_append] at hu
      obtain rfl | hu | hu := hu
      · exact Nat.lt_of_le_of_lt Nat.and_le_right (by decide)
      · split at hu
        · rw [List.mem_singleton.mp hu, Nat.shiftRight_eq_div_pow]
          omega
        · exact absurd hu List.not_mem_nil
      · exact hrest u hu

/-- The result is well formed, whatever the bytes are. -/
theorem wellFormed_sanitizeUtf8From (rounds : Nat) (text : Text) :
    Utf8.WellFormed (sanitizeUtf8From rounds text) := by
  induction rounds generalizing text with
  | zero => exact .nil
  | succ rounds ih =>
    cases text with
    | nil => exact .nil
    | cons c rest =>
      rw [sanitizeUtf8From]
      split
      · rename_i hascii
        have hone : Utf8.WellFormed [c] := wellFormed_ascii (by simpa using hascii)
        exact hone.append (ih rest)
      · refine (wellFormed_utf16AsIdentifier (mutf8ToUtf16_lt fun b hb => ?_)).append (ih _)
        obtain ⟨byte, _, rfl⟩ := List.mem_map.mp hb
        exact byte.toNat_lt

/-- The UTF-16 units of a scalar value. -/
def utf16 (c : Char) : List Nat :=
  if c.toNat < 0x10000 then [c.toNat] else [0xD7C0 + c.toNat / 1024, 0xDC00 + c.toNat % 1024]

/-- The decoder reads back the units of one wide character. -/
theorem mutf8ToUtf16_char {c : Char} (hwide : 0x80 ≤ c.toNat) (rounds : Nat) (s : List Nat) :
    mutf8ToUtf16 (rounds + 1) ((String.utf8EncodeChar c).map UInt8.toNat ++ s) =
      utf16 c ++ mutf8ToUtf16 rounds s := by
  have hlt := Utf8.toNat_lt c
  unfold utf16
  split
  · rename_i hbmp
    have hcode : String.utf8EncodeChar c = encodeUnit c.toNat := by
      rw [← utf8Bmp_eq (by omega) hbmp, utf8Bmp_char hbmp (Utf8.toNat_not_surrogate c),
        Char.ofNat_toNat]
    rw [hcode, mutf8ToUtf16_append (codeUnit_encodeUnit hbmp)]
    rfl
  · rename_i hastral
    have hfour := Utf8.encodeChar_four (Nat.le_of_not_lt hastral)
    have hlead : ∀ k < 5, (0xF0 + k) &&& 0x80 ≠ 0 ∧ (0xF0 + k) &&& 0x20 ≠ 0 ∧
        (0xF0 + k) &&& 0x10 ≠ 0 ∧ (0xF0 + k) &&& 0x0f = k := by
      decide
    have htail : ∀ k < 64, (0x80 + k) &&& 0xC0 = 0x80 := by
      set_option maxRecDepth 4000 in decide
    obtain ⟨h80, h20, h10, h0f⟩ := hlead (c.toNat / 262144) (by omega)
    have hget : getUtf16FromUtf8 (0xF0 + c.toNat / 262144) ((0x80 + c.toNat / 4096 % 64) ::
        (0x80 + c.toNat / 64 % 64) :: (0x80 + c.toNat % 64) :: s) =
        (0xD7C0 + c.toNat / 1024 + (0xDC00 + c.toNat % 1024) * 65536, s) := by
      have hcode : c.toNat / 262144 * 262144 + (0x80 + c.toNat / 4096 % 64) % 64 * 4096 +
          (0x80 + c.toNat / 64 % 64) % 64 * 64 + (0x80 + c.toNat % 64) % 64 = c.toNat := by
        omega
      have hmask : c.toNat &&& 0x03ff = c.toNat % 1024 := Nat.and_two_pow_sub_one_eq_mod _ 10
      have hhigh : (c.toNat / 1024 + 0xd7c0) &&& 0xffff = c.toNat / 1024 + 0xd7c0 := by
        rw [show (c.toNat / 1024 + 0xd7c0) &&& 0xffff = (c.toNat / 1024 + 0xd7c0) % 65536 from
          Nat.and_two_pow_sub_one_eq_mod _ 16]
        exact Nat.mod_eq_of_lt (by omega)
      have hpair : (c.toNat / 1024 + 0xd7c0) ||| ((c.toNat % 1024 + 0xdc00) <<< 16) =
          0xD7C0 + c.toNat / 1024 + (0xDC00 + c.toNat % 1024) * 65536 := by
        rw [Nat.or_comm, ← Nat.shiftLeft_add_eq_or_of_lt (by omega), Nat.shiftLeft_eq]
        omega
      unfold getUtf16FromUtf8
      simp only [h80, h20, h10, h0f, if_false, htail _ (Nat.mod_lt _ (by decide : 0 < 64)),
        ne_eq, not_true_eq_false, assemble4_eq, hcode, hmask, Nat.shiftRight_eq_div_pow]
      rw [show (2 : Nat) ^ 10 = 1024 from rfl, hhigh, hpair]
    have hbyte (n : Nat) (hn : n < 256) : (UInt8.ofNat n).toNat = n := Mutf8.toNat_ofNat hn
    have hmask : (0xD7C0 + c.toNat / 1024 + (0xDC00 + c.toNat % 1024) * 65536) &&& 0xffff =
        0xD7C0 + c.toNat / 1024 := by
      rw [show ∀ n, n &&& 0xffff = n % 65536 from fun n => Nat.and_two_pow_sub_one_eq_mod n 16]
      omega
    have hshift : (0xD7C0 + c.toNat / 1024 + (0xDC00 + c.toNat % 1024) * 65536) >>> 16 =
        0xDC00 + c.toNat % 1024 := by
      rw [Nat.shiftRight_eq_div_pow]
      omega
    rw [hfour]
    simp only [List.map_cons, List.map_nil, List.cons_append, List.nil_append]
    rw [hbyte _ (by omega), hbyte _ (by omega), hbyte _ (by omega), hbyte _ (by omega),
      mutf8ToUtf16, hget]
    simp only [hmask, hshift]
    rw [if_pos (by omega)]
    rfl

theorem mutf8ToUtf16_encode {cs : List Char} (hwide : ∀ c ∈ cs, 0x80 ≤ c.toNat) (rounds : Nat)
    (hrounds : cs.length ≤ rounds) :
    mutf8ToUtf16 rounds ((Utf8.encode cs).map UInt8.toNat) = cs.flatMap utf16 := by
  induction cs generalizing rounds with
  | nil => cases rounds <;> rfl
  | cons c cs ih =>
    obtain ⟨rounds, rfl⟩ : ∃ k, rounds = k + 1 := ⟨rounds - 1, by simp at hrounds; omega⟩
    rw [Utf8.encode_cons, List.map_append, mutf8ToUtf16_char (hwide c (by simp)),
      ih (fun d hd => hwide d (by simp [hd])) rounds (by simpa using hrounds)]
    rfl

/-- The units of a text are read as the characters they come from: a pair of
surrogates can only be one character's. -/
theorem utf16AsIdentifier_units {cs : List Char} (hwide : ∀ c ∈ cs, 0x80 ≤ c.toNat) :
    utf16AsIdentifier (cs.flatMap utf16) = Utf8.encode cs := by
  induction cs with
  | nil => rfl
  | cons c cs ih =>
    have hc := hwide c (by simp)
    have hplain := Utf8.toNat_not_surrogate c
    have hrest := ih fun d hd => hwide d (by simp [hd])
    rw [List.flatMap_cons, Utf8.encode_cons, utf16]
    split
    · rename_i hbmp
      have hescaped : utf16Escaped c.toNat = String.utf8EncodeChar c := by
        rw [utf16Escaped, if_neg (by omega), utf8Bmp_char hbmp hplain, Char.ofNat_toNat]
      rw [List.singleton_append, ← hrest]
      cases hunits : cs.flatMap utf16 with
      | nil => simp [utf16AsIdentifier, hescaped]
      | cons w units =>
        rw [utf16AsIdentifier, if_neg (fun h => by have := h.1; unfold IsHighSurrogate at this; omega),
          hescaped]
    · rename_i hastral
      have hlt := Utf8.toNat_lt c
      have hhigh : IsHighSurrogate (0xD7C0 + c.toNat / 1024) := ⟨by omega, by omega⟩
      have hlow : IsLowSurrogate (0xDC00 + c.toNat % 1024) := ⟨by omega, by omega⟩
      have hcode : pairCodePoint (0xD7C0 + c.toNat / 1024) (0xDC00 + c.toNat % 1024) = c.toNat := by
        rw [(pairCodePoint_eq hhigh hlow).1]
        omega
      rw [List.cons_append, List.cons_append, List.nil_append, utf16AsIdentifier,
        if_pos ⟨hhigh, hlow⟩, hcode, utf8Astral_char (Nat.le_of_not_lt hastral) hlt,
        Char.ofNat_toNat, hrest]

theorem length_le_encode (cs : List Char) : cs.length ≤ (Utf8.encode cs).length := by
  induction cs with
  | nil => exact Nat.le_refl _
  | cons c cs ih =>
    have hpos := List.length_pos_of_ne_nil (String.utf8EncodeChar_ne_nil (c := c))
    rw [Utf8.encode_cons, List.length_append, List.length_cons]
    omega

theorem sanitizeUtf8From_encode (cs : List Char) (rounds : Nat) (hrounds : cs.length ≤ rounds) :
    sanitizeUtf8From rounds (Utf8.encode cs) = Utf8.encode cs := by
  induction rounds generalizing cs with
  | zero =>
    rw [List.eq_nil_of_length_eq_zero (Nat.le_zero.mp hrounds)]
    rfl
  | succ rounds ih =>
    cases cs with
    | nil => rfl
    | cons c cs =>
      obtain hc | hc := Nat.lt_or_ge c.toNat 0x80
      · have hbyte : (UInt8.ofNat c.toNat).toNat = c.toNat := Mutf8.toNat_ofNat (by omega)
        rw [Utf8.encode_cons, Utf8.encodeChar_one hc, List.singleton_append, sanitizeUtf8From,
          if_pos (by omega), ih cs (by simpa using hrounds)]
      · obtain ⟨b, bs, hcode⟩ := List.exists_cons_of_ne_nil (String.utf8EncodeChar_ne_nil (c := c))
        have hb : 0x80 ≤ b.toNat := Utf8.encodeChar_wide hc b (by simp [hcode])
        have hbytes : Utf8.encode (c :: cs) = b :: (bs ++ Utf8.encode cs) := by
          rw [Utf8.encode_cons, hcode, List.cons_append]
        have hwide : ∀ d ∈ (c :: cs).takeWhile fun d => 0x80 ≤ d.toNat, 0x80 ≤ d.toNat :=
          fun d hd => by simpa using List.mem_takeWhile_imp hd
        have hshorter : ((c :: cs).dropWhile fun d => 0x80 ≤ d.toNat).length ≤ rounds := by
          rw [List.dropWhile_cons_of_pos (by simpa using hc)]
          have := (List.dropWhile_sublist (fun d : Char => decide (0x80 ≤ d.toNat))
            (l := cs)).length_le
          simp at hrounds
          omega
        rw [hbytes, sanitizeUtf8From, if_neg (by omega), ← hbytes]
        simp only [Utf8.takeWhile_encode]
        rw [mutf8ToUtf16_encode hwide _ (length_le_encode _), utf16AsIdentifier_units hwide,
          ih _ hshorter, ← Utf8.encode_append, List.takeWhile_append_dropWhile]

/-- Well-formed text stands as it is. -/
theorem sanitizeUtf8_encode (cs : List Char) : sanitizeUtf8 (Utf8.encode cs) = Utf8.encode cs :=
  sanitizeUtf8From_encode cs _ (length_le_encode cs)

end Sanitizer

section Comments

/-- The characters `CommentSafe` spells out: controls, backslash and the three
Unicode line separators. -/
def SpelledOut (c : Char) : Prop :=
  c.toNat < 0x20 ∨ c.toNat = 0x5C ∨ (0x7F ≤ c.toNat ∧ c.toNat ≤ 0x9F) ∨ c.toNat = 0x2028 ∨
    c.toNat = 0x2029

instance (c : Char) : Decidable (SpelledOut c) := inferInstanceAs (Decidable (_ ∨ _))

/-- The characters of `<U+%04X>`. -/
def escapeChars (cp : Nat) : List Char :=
  let hex := (Nat.toDigits 16 cp).map Char.toUpper
  ['<', 'U', '+'] ++ (List.replicate (4 - hex.length) '0' ++ hex) ++ ['>']

/-- `CommentSafe` on the characters of a text. -/
def commentChars (cs : List Char) : List Char :=
  cs.flatMap fun c => if SpelledOut c then escapeChars c.toNat else [c]

theorem escapeChars_range {cp : Nat} :
    ∀ c ∈ escapeChars cp, 0x20 ≤ c.toNat ∧ c.toNat ≠ 0x5C ∧ c.toNat < 0x7F := by
  intro c hc
  simp only [escapeChars, List.mem_append] at hc
  obtain (hc | hc | hc) | hc := hc
  · have hopen : c = '<' ∨ c = 'U' ∨ c = '+' := by simpa using hc
    obtain rfl | rfl | rfl := hopen <;> decide
  · rw [List.eq_of_mem_replicate hc]
    decide
  · obtain ⟨d, hd, rfl⟩ := List.mem_map.mp hc
    have hrange := (hex_range hd).2
    omega
  · rw [List.mem_singleton.mp hc]
    decide

theorem commentEscape_eq (cp : Nat) : commentEscape cp = Utf8.encode (escapeChars cp) := by
  rw [Utf8.encode_ascii fun c hc => by have := escapeChars_range c hc; omega]
  simp [commentEscape, escapeChars, ascii]

/-- No character of the result is one of those spelled out. -/
theorem commentChars_not_spelled {cs : List Char} : ∀ c ∈ commentChars cs, ¬ SpelledOut c := by
  intro c hc
  obtain ⟨d, _, hc⟩ := List.mem_flatMap.mp hc
  split at hc
  · have hrange := escapeChars_range c hc
    unfold SpelledOut
    omega
  · rename_i hplain
    rwa [List.mem_singleton.mp hc]

theorem commentSafe_control {c : UInt8} {rest : Text}
    (h : c.toNat < 0x20 ∨ c.toNat = 0x7F ∨ c.toNat = 0x5C) :
    commentSafe (c :: rest) = commentEscape c.toNat ++ commentSafe rest := by
  rw [commentSafe.eq_def]
  exact if_pos h

theorem commentSafe_c1 {c d : UInt8} {rest : Text} (hc : c.toNat = 0xC2) (hd : d.toNat ≤ 0x9F) :
    commentSafe (c :: d :: rest) = commentEscape d.toNat ++ commentSafe rest := by
  rw [commentSafe.eq_def]
  exact (if_neg (by omega)).trans (if_pos ⟨hc, hd⟩)

theorem commentSafe_separator {c d e : UInt8} {rest : Text} (hc : c.toNat = 0xE2)
    (hd : d.toNat = 0x80) (he : e.toNat = 0xA8 ∨ e.toNat = 0xA9) :
    commentSafe (c :: d :: e :: rest) =
      commentEscape (if e.toNat = 0xA8 then 0x2028 else 0x2029) ++ commentSafe rest := by
  rw [commentSafe.eq_def]
  exact (if_neg (by omega)).trans ((if_neg (by omega)).trans (if_pos ⟨hc, hd, he⟩))

theorem commentSafe_cons {c : UInt8} {rest : Text}
    (hplain : ¬ (c.toNat < 0x20 ∨ c.toNat = 0x7F ∨ c.toNat = 0x5C))
    (hc1 : ∀ d s, rest = d :: s → ¬ (c.toNat = 0xC2 ∧ d.toNat ≤ 0x9F))
    (hsep : ∀ d e s, rest = d :: e :: s →
      ¬ (c.toNat = 0xE2 ∧ d.toNat = 0x80 ∧ (e.toNat = 0xA8 ∨ e.toNat = 0xA9))) :
    commentSafe (c :: rest) = c :: commentSafe rest := by
  rw [commentSafe.eq_def]
  refine (if_neg hplain).trans ?_
  cases rest with
  | nil => rfl
  | cons d rest1 =>
    refine (if_neg (hc1 d rest1 rfl)).trans ?_
    cases rest1 with
    | nil => rfl
    | cons e rest2 => exact if_neg (hsep d e rest2 rfl)

/-- A byte that leads neither a C1 control nor a separator is copied. -/
theorem commentSafe_plain {c : UInt8} {rest : Text}
    (hplain : ¬ (c.toNat < 0x20 ∨ c.toNat = 0x7F ∨ c.toNat = 0x5C)) (hc2 : c.toNat ≠ 0xC2)
    (he2 : c.toNat ≠ 0xE2) : commentSafe (c :: rest) = c :: commentSafe rest :=
  commentSafe_cons hplain (fun _ _ _ h => hc2 h.1) (fun _ _ _ _ h => he2 h.1)

theorem commentSafe_char (c : Char) (rest : Text) :
    commentSafe (String.utf8EncodeChar c ++ rest) =
      (if SpelledOut c then commentEscape c.toNat else String.utf8EncodeChar c) ++
        commentSafe rest := by
  have hbyte (n : Nat) (hn : n < 256) : (UInt8.ofNat n).toNat = n := Mutf8.toNat_ofNat hn
  have hlt := Utf8.toNat_lt c
  obtain hone | hone := Nat.lt_or_ge c.toNat 0x80
  · have hascii := hbyte c.toNat (by omega)
    rw [Utf8.encodeChar_one hone, List.singleton_append]
    split
    · rename_i hspelled
      unfold SpelledOut at hspelled
      rw [commentSafe_control (by omega), hascii]
    · rename_i hplain
      unfold SpelledOut at hplain
      exact commentSafe_plain (by omega) (by omega) (by omega)
  obtain htwo | htwo := Nat.lt_or_ge c.toNat 0x800
  · have hlead := hbyte (0xC0 + c.toNat / 64) (by omega)
    have htail := hbyte (0x80 + c.toNat % 64) (by omega)
    rw [Utf8.encodeChar_two hone htwo, List.cons_append, List.singleton_append]
    split
    · rename_i hspelled
      unfold SpelledOut at hspelled
      rw [commentSafe_c1 (by omega) (by omega), htail,
        show 0x80 + c.toNat % 64 = c.toNat by omega]
    · rename_i hplain
      unfold SpelledOut at hplain
      rw [commentSafe_cons (by omega) ?_ (by omega), commentSafe_plain (by omega) (by omega)
        (by omega)]
      · rfl
      · rintro d s ⟨rfl, -⟩
        omega
  obtain hthree | hthree := Nat.lt_or_ge c.toNat 0x10000
  · have hlead := hbyte (0xE0 + c.toNat / 4096) (by omega)
    have hmid := hbyte (0x80 + c.toNat / 64 % 64) (by omega)
    have htail := hbyte (0x80 + c.toNat % 64) (by omega)
    rw [Utf8.encodeChar_three htwo hthree, List.cons_append, List.cons_append,
      List.singleton_append]
    split
    · rename_i hspelled
      unfold SpelledOut at hspelled
      rw [commentSafe_separator (by omega) (by omega) (by omega)]
      congr 2
      split <;> omega
    · rename_i hplain
      unfold SpelledOut at hplain
      rw [commentSafe_cons (by omega) (by omega) ?_, commentSafe_plain (by omega) (by omega)
        (by omega), commentSafe_plain (by omega) (by omega) (by omega)]
      · rfl
      · rintro d e s ⟨rfl, rfl, -⟩
        omega
  · have hlead := hbyte (0xF0 + c.toNat / 262144) (by omega)
    have hmid := hbyte (0x80 + c.toNat / 4096 % 64) (by omega)
    have hmid' := hbyte (0x80 + c.toNat / 64 % 64) (by omega)
    have htail := hbyte (0x80 + c.toNat % 64) (by omega)
    have hplain : ¬ SpelledOut c := by
      unfold SpelledOut
      omega
    rw [if_neg hplain, Utf8.encodeChar_four hthree]
    simp only [List.cons_append, List.nil_append]
    rw [commentSafe_plain (by omega) (by omega) (by omega),
      commentSafe_plain (by omega) (by omega) (by omega),
      commentSafe_plain (by omega) (by omega) (by omega),
      commentSafe_plain (by omega) (by omega) (by omega)]

/-- The byte filter acts on the characters of a well-formed text. -/
theorem commentSafe_encode (cs : List Char) :
    commentSafe (Utf8.encode cs) = Utf8.encode (commentChars cs) := by
  induction cs with
  | nil => rfl
  | cons c cs ih =>
    rw [Utf8.encode_cons, commentSafe_char, ih]
    simp only [commentChars, List.flatMap_cons, Utf8.encode_append]
    congr 1
    split
    · rw [commentEscape_eq]
    · simp

end Comments

section Lines

/-- What ends a line for some consumer of the source: LF, VT, FF, CR, FS, GS, RS,
NEL and the two Unicode separators. -/
def LineBreak (c : Char) : Prop :=
  (0x0A ≤ c.toNat ∧ c.toNat ≤ 0x0D) ∨ (0x1C ≤ c.toNat ∧ c.toNat ≤ 0x1E) ∨ c.toNat = 0x85 ∨
    c.toNat = 0x2028 ∨ c.toNat = 0x2029

def hexValue (c : Char) : Option Nat :=
  if c.isDigit then some (c.toNat - 0x30)
  else if 'a' ≤ c ∧ c ≤ 'f' then some (c.toNat - 0x57)
  else if 'A' ≤ c ∧ c ≤ 'F' then some (c.toNat - 0x37)
  else none

/-- The unicode escape after a backslash: one or more `u` and four digits. -/
def unicodeEscape (cs : List Char) : Option (Char × List Char) :=
  match cs with
  | 'u' :: cs =>
    match cs.dropWhile (· = 'u') with
    | a :: b :: c :: d :: rest => do
      let a ← hexValue a
      let b ← hexValue b
      let c ← hexValue c
      let d ← hexValue d
      return (Char.ofNat (a * 4096 + b * 256 + c * 16 + d), rest)
    | _ => none
  | _ => none

/-- The first step of reading Java: unicode escapes are translated before comments
are recognised. A backslash after a backslash starts none. -/
def translateEscapes : (rounds : Nat) → List Char → List Char
  | 0, cs => cs
  | _ + 1, [] => []
  | rounds + 1, '\\' :: cs =>
    match unicodeEscape cs, cs with
    | some (c, rest), _ => c :: translateEscapes rounds rest
    | none, '\\' :: rest => '\\' :: '\\' :: translateEscapes rounds rest
    | none, rest => '\\' :: translateEscapes rounds rest
  | rounds + 1, c :: cs => c :: translateEscapes rounds cs

theorem translateEscapes_plain {cs : List Char} (h : ∀ c ∈ cs, c ≠ '\\') (rounds : Nat) :
    translateEscapes rounds cs = cs := by
  induction cs generalizing rounds with
  | nil => cases rounds <;> rfl
  | cons c cs ih =>
    cases rounds with
    | zero => rfl
    | succ rounds =>
      rw [translateEscapes, ih fun d hd => h d (by simp [hd])]
      intro hc
      exact absurd hc (h c (by simp))

end Lines

/-- Whatever the bytes, the sanitized text is well-formed UTF-8 and sanitizing
again leaves it as it is. The comment made of it is well-formed too and holds no
backslash, no control character and no line separator; so, after Java has
translated unicode escapes, nothing in it ends the line. -/
theorem comment_text_safe (x : Text) :
    Utf8.WellFormed (sanitizeUtf8 x) ∧ sanitizeUtf8 (sanitizeUtf8 x) = sanitizeUtf8 x ∧
      ∃ cs : List Char, commentSafe (sanitizeUtf8 x) = Utf8.encode cs ∧
        (∀ c ∈ cs, c ≠ '\\' ∧ 0x20 ≤ c.toNat ∧ ¬ (0x7F ≤ c.toNat ∧ c.toNat ≤ 0x9F) ∧
          c.toNat ≠ 0x2028 ∧ c.toNat ≠ 0x2029) ∧
        ∀ c ∈ translateEscapes cs.length cs, ¬ LineBreak c := by
  obtain ⟨cs, hcs⟩ : Utf8.WellFormed (sanitizeUtf8 x) := wellFormed_sanitizeUtf8From _ x
  have hplain : ∀ c ∈ commentChars cs, c ≠ '\\' ∧ 0x20 ≤ c.toNat ∧
      ¬ (0x7F ≤ c.toNat ∧ c.toNat ≤ 0x9F) ∧ c.toNat ≠ 0x2028 ∧ c.toNat ≠ 0x2029 := by
    intro c hc
    have hspelled := commentChars_not_spelled c hc
    unfold SpelledOut at hspelled
    refine ⟨?_, by omega⟩
    rintro rfl
    exact hspelled (by decide)
  refine ⟨⟨cs, hcs⟩, ?_, commentChars cs, ?_, hplain, ?_⟩
  · rw [hcs, sanitizeUtf8_encode]
  · rw [hcs, commentSafe_encode]
  · rw [translateEscapes_plain fun c hc => (hplain c hc).1]
    intro c hc
    have hrange := (hplain c hc).2
    unfold LineBreak
    omega

/-- An overlong newline becomes an escape, and the escape is spelled out. -/
example : commentSafe (sanitizeUtf8 [0xC0, 0x8A]) = ascii "<U+005C>u000a" := by decide

end Dad

end Dexllm
