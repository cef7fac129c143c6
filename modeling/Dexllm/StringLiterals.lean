import Dexllm.CommentText
import Dexllm.StringOrder
import Dexllm.Lib.JavaLiteral

/-!
String literals of the rendered source and of the listing. Whatever string the gate
accepts, the Java literal is one literal with the string's units, and the body of the
listing's literal holds no quote or control character of its own and reads back as
the string.
-/

namespace Dexllm

open Mutf8

namespace Dad

/-- `EscapeSmaliString`: the code points, a lone surrogate replaced. -/
def smaliCodePoints : List Nat → List Nat
  | [] => []
  | [u] => [if 0xD800 ≤ u ∧ u ≤ 0xDFFF then 0xFFFD else u]
  | u :: w :: units =>
    if IsHighSurrogate u ∧ IsLowSurrogate w then pairCodePoint u w :: smaliCodePoints units
    else (if 0xD800 ≤ u ∧ u ≤ 0xDFFF then 0xFFFD else u) :: smaliCodePoints (w :: units)

/-- `EscapeSmaliString` on one code point. -/
def smaliEscape (cp : Nat) : Text :=
  match cp with
  | 0x5c => ascii "\\\\"
  | 0x22 => ascii "\\\""
  | 0x0a => ascii "\\n"
  | 0x0d => ascii "\\r"
  | 0x09 => ascii "\\t"
  | _ =>
    if cp < 0x20 then
      let hex := digits 16 cp
      ascii "\\x" ++ List.replicate (2 - hex.length) 0x30 ++ hex
    else if cp < 0x10000 then utf8Bmp cp
    else utf8Astral cp

/-- `EscapeSmaliString`. -/
def escapeSmaliString (raw : Text) : Text :=
  (smaliCodePoints (mutf8ToUtf16 raw.length (raw.map UInt8.toNat))).flatMap smaliEscape

/-- A reader of the listing's literals: two digits after `\x`, the five short escapes;
no quote and no control character stands for itself. -/
def readSmali : List Char → Option (List Char)
  | [] => some []
  | '\\' :: 'x' :: a :: b :: rest => do
    let a ← JavaLiteral.hexDigit a.toNat
    let b ← JavaLiteral.hexDigit b.toNat
    (readSmali rest).map (Char.ofNat (16 * a + b) :: ·)
  | '\\' :: '\\' :: rest => (readSmali rest).map ('\\' :: ·)
  | '\\' :: '"' :: rest => (readSmali rest).map ('"' :: ·)
  | '\\' :: 'n' :: rest => (readSmali rest).map ('\n' :: ·)
  | '\\' :: 'r' :: rest => (readSmali rest).map ('\r' :: ·)
  | '\\' :: 't' :: rest => (readSmali rest).map ('\t' :: ·)
  | c :: rest =>
    if c = '\\' ∨ c = '"' ∨ c.toNat < 0x20 then none
    else (readSmali rest).map (c :: ·)

/-- A quote that no backslash escapes. -/
def openQuote : (escaped : Bool) → List Char → Bool
  | _, [] => false
  | true, _ :: rest => openQuote false rest
  | false, c :: rest => c = '"' || openQuote (c = '\\') rest

/-- The text of one unit in a Java literal, as characters. -/
def javaChars (u : Nat) : List Char :=
  match u with
  | 0x5c => ['\\', '\\']
  | 0x22 => ['\\', '"']
  | 0x27 => ['\\', '\'']
  | 0x0a => ['\\', 'n']
  | 0x0d => ['\\', 'r']
  | 0x09 => ['\\', 't']
  | _ =>
    if u < 0x20 ∨ (0xD800 ≤ u ∧ u ≤ 0xDFFF) then
      ['\\', 'u', Nat.digitChar (u / 4096), Nat.digitChar (u / 256 % 16),
        Nat.digitChar (u / 16 % 16), Nat.digitChar (u % 16)]
    else [Char.ofNat u]

section Digits

/-- A padded number, digit by digit. -/
theorem padded_succ (k u : Nat) :
    List.replicate (k + 2 - (Nat.toDigits 16 u).length) '0' ++ Nat.toDigits 16 u =
      List.replicate (k + 1 - (Nat.toDigits 16 (u / 16)).length) '0' ++
        Nat.toDigits 16 (u / 16) ++ [Nat.digitChar (u % 16)] := by
  obtain hlt | hle := Nat.lt_or_ge u 16
  · rw [Nat.toDigits_of_lt_base hlt, Nat.div_eq_of_lt hlt, Nat.mod_eq_of_lt hlt, Nat.toDigits_zero,
      ← List.replicate_succ']
    rfl
  · have hsub (n : Nat) : k + 2 - (n + 1) = k + 1 - n := Nat.add_sub_add_right (k + 1) 1 n
    rw [Nat.toDigits_of_base_le (by decide) hle, List.length_append, List.length_singleton,
      ← List.append_assoc, hsub]

theorem padded_one {u : Nat} (h : u < 16) :
    List.replicate (1 - (Nat.toDigits 16 u).length) '0' ++ Nat.toDigits 16 u =
      [Nat.digitChar u] := by
  rw [Nat.toDigits_of_lt_base h]
  rfl

theorem padded_two {u : Nat} (h : u < 256) :
    List.replicate (2 - (Nat.toDigits 16 u).length) '0' ++ Nat.toDigits 16 u =
      [Nat.digitChar (u / 16), Nat.digitChar (u % 16)] := by
  rw [padded_succ 0, padded_one (by omega)]
  rfl

theorem padded_four {u : Nat} (h : u < 65536) :
    List.replicate (4 - (Nat.toDigits 16 u).length) '0' ++ Nat.toDigits 16 u =
      [Nat.digitChar (u / 4096), Nat.digitChar (u / 256 % 16), Nat.digitChar (u / 16 % 16),
        Nat.digitChar (u % 16)] := by
  have hsecond : u / 16 / 16 = u / 256 := Nat.div_div_eq_div_mul u 16 16
  have hthird : u / 256 / 16 = u / 4096 := Nat.div_div_eq_div_mul u 256 16
  rw [padded_succ 2, padded_succ 1, padded_two (by omega), hsecond, hthird]
  rfl

theorem hexDigit_digitChar {d : Nat} (h : d < 16) :
    JavaLiteral.hexDigit (Nat.digitChar d).toNat = some d := by
  have hall : ∀ d < 16, JavaLiteral.hexDigit (Nat.digitChar d).toNat = some d := by decide
  exact hall d h

theorem digitChar_lt {d : Nat} (h : d < 16) : (Nat.digitChar d).toNat < 0x80 := by
  have hall : ∀ d < 16, (Nat.digitChar d).toNat < 0x80 := by decide
  exact hall d h

/-- A number under a prefix, padded to its digits, as bytes. -/
theorem padded_text (start : String) {k u : Nat} {digitChars : List Char}
    (hpadded : List.replicate (k - (Nat.toDigits 16 u).length) '0' ++ Nat.toDigits 16 u =
      digitChars) (hstart : ∀ c ∈ start.toList, c.toNat < 0x80)
    (hdigits : ∀ c ∈ digitChars, c.toNat < 0x80) :
    ascii start ++ List.replicate (k - (digits 16 u).length) 0x30 ++ digits 16 u =
      Utf8.encode (start.toList ++ digitChars) := by
  have hall : ∀ c ∈ start.toList ++ digitChars, c.toNat < 0x80 := fun c hc =>
    (List.mem_append.mp hc).elim (hstart c) (hdigits c)
  have hzero : UInt8.ofNat '0'.toNat = 0x30 := rfl
  rw [Utf8.encode_ascii hall, List.map_append, ← hpadded, List.map_append, List.map_replicate,
    hzero, ← List.append_assoc]
  unfold digits ascii
  rw [List.length_map]

end Digits

/-- A unit without a short escape. -/
theorem javaChars_long {u : Nat} (h : u ∉ [0x5c, 0x22, 0x27, 0x0a, 0x0d, 0x09]) :
    javaChars u = if u < 0x20 ∨ (0xD800 ≤ u ∧ u ≤ 0xDFFF) then
      ['\\', 'u', Nat.digitChar (u / 4096), Nat.digitChar (u / 256 % 16),
        Nat.digitChar (u / 16 % 16), Nat.digitChar (u % 16)]
    else [Char.ofNat u] := by
  unfold javaChars
  split
  case h_7 => rfl
  all_goals exact absurd (by decide) h

/-- Every unit of the source text is spelled by the bytes of its characters. -/
theorem escapeUnit_eq {u : Nat} (h : u < 65536) :
    escapeUnit u = Utf8.encode (javaChars u) := by
  by_cases hshort : u ∈ [0x5c, 0x22, 0x27, 0x0a, 0x0d, 0x09]
  · have hall : ∀ u ∈ [0x5c, 0x22, 0x27, 0x0a, 0x0d, 0x09],
        escapeUnit u = Utf8.encode (javaChars u) := by decide
    exact hall u hshort
  · have hlong : escapeUnit u = utf16Escaped u := by
      unfold escapeUnit
      split
      case h_7 => rfl
      all_goals exact absurd (by decide) hshort
    rw [hlong, javaChars_long hshort, utf16Escaped]
    split
    · have hdigits : ∀ c ∈ [Nat.digitChar (u / 4096), Nat.digitChar (u / 256 % 16),
          Nat.digitChar (u / 16 % 16), Nat.digitChar (u % 16)], c.toNat < 0x80 := by
        simp only [List.forall_mem_cons, List.not_mem_nil, false_implies, implies_true, and_true]
        exact ⟨digitChar_lt (by omega), digitChar_lt (by omega), digitChar_lt (by omega),
          digitChar_lt (by omega)⟩
      exact padded_text "\\u" (padded_four h) (by simp) hdigits
    · rw [utf8Bmp_char h (by omega), Utf8.encode_cons, Utf8.encode_nil, List.append_nil]

/-! The Java literal. -/

/-- What is left of a unit's text after the Unicode escapes are translated. -/
def translated (u : Nat) : List Nat :=
  match u with
  | 0x5c => [0x5c, 0x5c]
  | 0x22 => [0x5c, 0x22]
  | 0x27 => [0x5c, 0x27]
  | 0x0a => [0x5c, 0x6e]
  | 0x0d => [0x5c, 0x72]
  | 0x09 => [0x5c, 0x74]
  | _ => [u]

theorem translated_long {u : Nat} (h : u ∉ [0x5c, 0x22, 0x27, 0x0a, 0x0d, 0x09]) :
    translated u = [u] := by
  unfold translated
  split
  case h_7 => rfl
  all_goals exact absurd (by decide) h

theorem utf16_ascii {c : Char} (h : c.toNat < 0x80) : utf16 c = [c.toNat] :=
  if_pos (Nat.lt_trans h (by decide))

theorem translate_javaChars {u : Nat} (hlt : u < 65536) (rest : List Nat) :
    JavaLiteral.translate .plain ((javaChars u).flatMap utf16 ++ rest) =
      (JavaLiteral.translate .plain rest).map (translated u ++ ·) := by
  by_cases hshort : u ∈ [0x5c, 0x22, 0x27, 0x0a, 0x0d, 0x09]
  · obtain ⟨c, hc, hunits, htranslated⟩ : ∃ c, c ≠ 0x75 ∧
        (javaChars u).flatMap utf16 = [0x5c, c] ∧ translated u = [0x5c, c] := by
      simp only [List.mem_cons, List.not_mem_nil, or_false] at hshort
      obtain rfl | rfl | rfl | rfl | rfl | rfl := hshort <;>
      exact ⟨_, by decide, rfl, rfl⟩
    rw [hunits, htranslated]
    exact JavaLiteral.translate_pair hc
  · rw [javaChars_long hshort, translated_long hshort]
    split
    · have hdigit {d : Nat} (hd : d < 16) : utf16 (Nat.digitChar d) = [(Nat.digitChar d).toNat] :=
        utf16_ascii (digitChar_lt hd)
      have hvalue : 16 * (16 * (16 * (u / 4096) + u / 256 % 16) + u / 16 % 16) + u % 16 = u := by
        omega
      have hescape := @JavaLiteral.translate_escape _ _ rest _ _ _ _ _ _
        (hexDigit_digitChar (show u / 4096 < 16 by omega))
        (hexDigit_digitChar (Nat.mod_lt (u / 256) (by decide : 0 < 16)))
        (hexDigit_digitChar (Nat.mod_lt (u / 16) (by decide : 0 < 16)))
        (hexDigit_digitChar (Nat.mod_lt u (by decide : 0 < 16)))
      rw [hvalue] at hescape
      simp only [List.flatMap_cons, List.flatMap_nil, hdigit (show u / 4096 < 16 by omega),
        hdigit (Nat.mod_lt _ (by decide : 0 < 16))]
      exact hescape
    · rename_i hplain
      have hchar : (Char.ofNat u).toNat = u := Utf8.toNat_ofNat (by omega) (by omega)
      have hunit : utf16 (Char.ofNat u) = [u] := by
        rw [utf16, hchar, if_pos hlt]
      have hslash : u ≠ 0x5c := fun h => hshort (by simp [h])
      rw [List.flatMap_singleton, hunit]
      exact JavaLiteral.translate_plain hslash

theorem body_translated (u : Nat) (rounds : Nat) (rest : List Nat) :
    JavaLiteral.body (rounds + 1) (translated u ++ rest) =
      (JavaLiteral.body rounds rest).map fun (value, rest) => (u :: value, rest) := by
  by_cases hshort : u ∈ [0x5c, 0x22, 0x27, 0x0a, 0x0d, 0x09]
  · obtain ⟨c, htranslated, hescape⟩ : ∃ c, translated u = [0x5c, c] ∧
        JavaLiteral.escapeSequence (c :: rest) = some ([u], rest) := by
      simp only [List.mem_cons, List.not_mem_nil, or_false] at hshort
      obtain rfl | rfl | rfl | rfl | rfl | rfl := hshort <;>
      exact ⟨_, rfl, rfl⟩
    rw [htranslated]
    exact JavaLiteral.body_escape hescape rounds
  · rw [translated_long hshort]
    simp only [List.mem_cons, List.not_mem_nil, or_false, not_or] at hshort
    exact JavaLiteral.body_plain hshort.2.1 hshort.1 ⟨hshort.2.2.2.1, hshort.2.2.2.2.1⟩ rounds

theorem translate_units {us : List Nat} (h : ∀ u ∈ us, u < 65536) (rest : List Nat) :
    JavaLiteral.translate .plain ((us.flatMap javaChars).flatMap utf16 ++ rest) =
      (JavaLiteral.translate .plain rest).map (us.flatMap translated ++ ·) := by
  induction us with
  | nil => simp
  | cons u us ih =>
    rw [List.flatMap_cons, List.flatMap_append, List.append_assoc,
      translate_javaChars (h u List.mem_cons_self), ih fun v hv => h v (List.mem_cons_of_mem u hv),
      Option.map_map, List.flatMap_cons]
    congr 1
    funext t
    exact (List.append_assoc _ _ _).symm

theorem body_units {us : List Nat} {rounds : Nat} (h : us.length < rounds) :
    JavaLiteral.body rounds (us.flatMap translated ++ [0x22]) = some (us, []) := by
  induction us generalizing rounds with
  | nil =>
    obtain ⟨rounds, rfl⟩ : ∃ m, rounds = m + 1 := ⟨rounds - 1, by omega⟩
    rfl
  | cons u us ih =>
    obtain ⟨rounds, rfl⟩ : ∃ m, rounds = m + 1 := ⟨rounds - 1, by omega⟩
    rw [List.flatMap_cons, List.append_assoc, body_translated,
      ih (show us.length < rounds by rw [List.length_cons] at h; omega)]
    rfl

/-- The text of a unit does not open with a quote. -/
theorem exists_cons_translated (u : Nat) : ∃ c t, translated u = c :: t ∧ c ≠ 0x22 := by
  by_cases hshort : u ∈ [0x5c, 0x22, 0x27, 0x0a, 0x0d, 0x09]
  · simp only [List.mem_cons, List.not_mem_nil, or_false] at hshort
    obtain rfl | rfl | rfl | rfl | rfl | rfl := hshort <;>
    exact ⟨_, _, rfl, by decide⟩
  · exact ⟨u, [], translated_long hshort, fun h => hshort (by simp [h])⟩

theorem length_le_translated (us : List Nat) : us.length ≤ (us.flatMap translated).length := by
  induction us with
  | nil => exact Nat.le_refl 0
  | cons u us ih =>
    obtain ⟨c, t, ht, -⟩ := exists_cons_translated u
    rw [List.flatMap_cons, ht, List.length_append, List.length_cons, List.length_cons]
    omega

/-- The literal of any units is read back as them. -/
theorem read_literal {us : List Nat} (h : ∀ u ∈ us, u < 65536) :
    JavaLiteral.read (('"' :: us.flatMap javaChars ++ ['"']).flatMap utf16) = some (us, []) := by
  have hsource : ('"' :: us.flatMap javaChars ++ ['"']).flatMap utf16 =
      0x22 :: ((us.flatMap javaChars).flatMap utf16 ++ [0x22]) := by
    rw [List.flatMap_append, List.flatMap_cons]
    rfl
  have hunits : JavaLiteral.translate .plain
      (0x22 :: ((us.flatMap javaChars).flatMap utf16 ++ [0x22])) =
        some (0x22 :: (us.flatMap translated ++ [0x22])) := by
    rw [JavaLiteral.translate_plain (by decide), translate_units h]
    rfl
  have hbody : JavaLiteral.body (us.flatMap translated ++ [0x22]).length
      (us.flatMap translated ++ [0x22]) = some (us, []) := by
    refine body_units ?_
    rw [List.length_append]
    exact Nat.lt_succ_of_le (length_le_translated us)
  rw [hsource]
  cases us with
  | nil => rfl
  | cons u us =>
    obtain ⟨c, t, ht, hc⟩ := exists_cons_translated u
    have hopen : (u :: us).flatMap translated ++ [0x22] =
        c :: (t ++ us.flatMap translated ++ [0x22]) := by
      rw [List.flatMap_cons, ht]
      rfl
    rw [hopen] at hunits hbody
    rw [JavaLiteral.read_quote hc hunits, hbody]

theorem encode_javaChars {us : List Nat} (h : ∀ u ∈ us, u < 65536) :
    (us.map escapeUnit).flatten = Utf8.encode (us.flatMap javaChars) := by
  induction us with
  | nil => rfl
  | cons u us ih =>
    rw [List.map_cons, List.flatten_cons, List.flatMap_cons, Utf8.encode_append,
      escapeUnit_eq (h u List.mem_cons_self), ih fun v hv => h v (List.mem_cons_of_mem u hv)]

/-! The literal of the listing. -/

/-- The text of one code point in the listing, as characters. -/
def smaliChars (cp : Nat) : List Char :=
  match cp with
  | 0x5c => ['\\', '\\']
  | 0x22 => ['\\', '"']
  | 0x0a => ['\\', 'n']
  | 0x0d => ['\\', 'r']
  | 0x09 => ['\\', 't']
  | _ =>
    if cp < 0x20 then ['\\', 'x', Nat.digitChar (cp / 16), Nat.digitChar (cp % 16)]
    else [Char.ofNat cp]

theorem smaliChars_long {cp : Nat} (h : cp ∉ [0x5c, 0x22, 0x0a, 0x0d, 0x09]) :
    smaliChars cp =
      if cp < 0x20 then ['\\', 'x', Nat.digitChar (cp / 16), Nat.digitChar (cp % 16)]
      else [Char.ofNat cp] := by
  unfold smaliChars
  split
  case h_6 => rfl
  all_goals exact absurd (by decide) h

/-- A code point that is no surrogate. -/
def IsScalar (cp : Nat) : Prop := (cp < 0xD800 ∨ 0xDFFF < cp) ∧ cp < 0x110000

theorem smaliEscape_eq {cp : Nat} (h : IsScalar cp) :
    smaliEscape cp = Utf8.encode (smaliChars cp) := by
  by_cases hshort : cp ∈ [0x5c, 0x22, 0x0a, 0x0d, 0x09]
  · have hall : ∀ cp ∈ [0x5c, 0x22, 0x0a, 0x0d, 0x09],
        smaliEscape cp = Utf8.encode (smaliChars cp) := by decide
    exact hall cp hshort
  · rw [smaliChars_long hshort]
    unfold smaliEscape
    split
    case h_6 =>
      split
      · have hdigits : ∀ c ∈ [Nat.digitChar (cp / 16), Nat.digitChar (cp % 16)],
            c.toNat < 0x80 := by
          simp only [List.forall_mem_cons, List.not_mem_nil, false_implies, implies_true, and_true]
          exact ⟨digitChar_lt (by omega), digitChar_lt (by omega)⟩
        exact padded_text "\\x" (padded_two (by omega)) (by simp) hdigits
      split
      · rename_i hbmp
        rw [utf8Bmp_char hbmp h.1, Utf8.encode_cons, Utf8.encode_nil, List.append_nil]
      · rename_i hastral
        rw [utf8Astral_char (Nat.le_of_not_lt hastral) h.2, Utf8.encode_cons, Utf8.encode_nil,
          List.append_nil]
    all_goals exact absurd (by decide) hshort

theorem isScalar_smaliCodePoints {us : List Nat} (h : ∀ u ∈ us, u < 65536) :
    ∀ cp ∈ smaliCodePoints us, IsScalar cp := by
  have hunit {u : Nat} (hlt : u < 65536) :
      IsScalar (if 0xD800 ≤ u ∧ u ≤ 0xDFFF then 0xFFFD else u) := by
    split
    · exact ⟨Or.inr (by decide), by decide⟩
    · exact ⟨by omega, by omega⟩
  fun_induction smaliCodePoints us with
  | case1 => exact fun _ hcp => nomatch hcp
  | case2 u =>
    intro cp hcp
    rw [List.mem_singleton.mp hcp]
    exact hunit (h u List.mem_cons_self)
  | case3 u w units hpair ih =>
    intro cp hcp
    obtain heq | hcp := List.mem_cons.mp hcp
    · obtain ⟨-, hmin, hmax⟩ := pairCodePoint_eq hpair.1 hpair.2
      rw [heq]
      exact ⟨Or.inr (Nat.lt_of_lt_of_le (by decide) hmin), hmax⟩
    · exact ih (fun v hv => h v (by simp [hv])) cp hcp
  | case4 u w units hpair ih =>
    intro cp hcp
    obtain rfl | hcp := List.mem_cons.mp hcp
    · exact hunit (h u List.mem_cons_self)
    · exact ih (fun v hv => h v (List.mem_cons_of_mem u hv)) cp hcp

theorem readSmali_plain {c : Char} (hslash : c ≠ '\\') (hquote : c ≠ '"')
    (hcontrol : ¬c.toNat < 0x20) (rest : List Char) :
    readSmali (c :: rest) = (readSmali rest).map (c :: ·) := by
  rw [readSmali, if_neg (by simp [hslash, hquote, hcontrol])]
  all_goals
    intros
    contradiction

theorem readSmali_smaliChars {cp : Nat} (h : IsScalar cp) (rest : List Char) :
    readSmali (smaliChars cp ++ rest) = (readSmali rest).map (Char.ofNat cp :: ·) := by
  by_cases hshort : cp ∈ [0x5c, 0x22, 0x0a, 0x0d, 0x09]
  · simp only [List.mem_cons, List.not_mem_nil, or_false] at hshort
    obtain rfl | rfl | rfl | rfl | rfl := hshort <;> rfl
  · rw [smaliChars_long hshort]
    simp only [List.mem_cons, List.not_mem_nil, or_false, not_or] at hshort
    split
    · have hhigh := hexDigit_digitChar (show cp / 16 < 16 by omega)
      have hlow := hexDigit_digitChar (Nat.mod_lt cp (by decide : 0 < 16))
      have hvalue : 16 * (cp / 16) + cp % 16 = cp := Nat.div_add_mod cp 16
      simp only [List.cons_append, List.nil_append, readSmali, hhigh, hlow, Option.bind_eq_bind,
        Option.bind_some, hvalue]
    · have hchar : (Char.ofNat cp).toNat = cp := Utf8.toNat_ofNat h.1 h.2
      have hslash : Char.ofNat cp ≠ '\\' := fun heq => hshort.1 (by rw [← hchar, heq]; rfl)
      have hquote : Char.ofNat cp ≠ '"' := fun heq => hshort.2.1 (by rw [← hchar, heq]; rfl)
      exact readSmali_plain hslash hquote (by rw [hchar]; assumption) rest

theorem openQuote_plain {c : Char} (hslash : c ≠ '\\') (hquote : c ≠ '"') (rest : List Char) :
    openQuote false (c :: rest) = openQuote false rest := by
  simp [openQuote, hslash, hquote]

theorem openQuote_smaliChars {cp : Nat} (h : IsScalar cp) (rest : List Char) :
    openQuote false (smaliChars cp ++ rest) = openQuote false rest := by
  by_cases hshort : cp ∈ [0x5c, 0x22, 0x0a, 0x0d, 0x09]
  · simp only [List.mem_cons, List.not_mem_nil, or_false] at hshort
    obtain rfl | rfl | rfl | rfl | rfl := hshort <;> rfl
  · rw [smaliChars_long hshort]
    simp only [List.mem_cons, List.not_mem_nil, or_false, not_or] at hshort
    split
    · have hdigit : ∀ d < 16, Nat.digitChar d ≠ '\\' ∧ Nat.digitChar d ≠ '"' := by decide
      have hhigh := hdigit (cp / 16) (by omega)
      have hlow := hdigit (cp % 16) (Nat.mod_lt _ (by decide))
      change openQuote false (Nat.digitChar (cp / 16) :: Nat.digitChar (cp % 16) :: rest) = _
      rw [openQuote_plain hhigh.1 hhigh.2, openQuote_plain hlow.1 hlow.2]
    · have hchar : (Char.ofNat cp).toNat = cp := Utf8.toNat_ofNat h.1 h.2
      exact openQuote_plain (fun heq => hshort.1 (by rw [← hchar, heq]; rfl))
        (fun heq => hshort.2.1 (by rw [← hchar, heq]; rfl)) rest

theorem smaliChars_printable {cp : Nat} (h : IsScalar cp) :
    ∀ c ∈ smaliChars cp, 0x20 ≤ c.toNat := by
  by_cases hshort : cp ∈ [0x5c, 0x22, 0x0a, 0x0d, 0x09]
  · have hall : ∀ cp ∈ [0x5c, 0x22, 0x0a, 0x0d, 0x09],
        ((smaliChars cp).all fun c => 0x20 ≤ c.toNat) = true := by decide
    exact fun c hc => of_decide_eq_true (List.all_eq_true.mp (hall cp hshort) c hc)
  · rw [smaliChars_long hshort]
    split
    · have hdigit : ∀ d < 16, 0x20 ≤ (Nat.digitChar d).toNat := by decide
      simp only [List.forall_mem_cons, List.not_mem_nil, false_implies, implies_true, and_true]
      exact ⟨by decide, by decide, hdigit _ (by omega), hdigit _ (Nat.mod_lt _ (by decide))⟩
    · intro c hc
      rw [List.mem_singleton.mp hc, Utf8.toNat_ofNat h.1 h.2]
      omega

/-- No byte of printable text is a control character. -/
theorem encode_printable {cs : List Char} (h : ∀ c ∈ cs, 0x20 ≤ c.toNat) :
    ∀ b ∈ Utf8.encode cs, 0x20 ≤ b.toNat := by
  intro b hb
  obtain ⟨c, hc, hb⟩ := List.mem_flatMap.mp hb
  obtain hascii | hwide := Nat.lt_or_ge c.toNat 0x80
  · rw [Utf8.encodeChar_one hascii] at hb
    rw [List.mem_singleton.mp hb, toNat_ofNat (by omega)]
    exact h c hc
  · exact Nat.le_trans (by decide) (Utf8.encodeChar_wide hwide b hb)

section Texts

variable {cps : List Nat} (h : ∀ cp ∈ cps, IsScalar cp)
include h

theorem encode_smaliChars : cps.flatMap smaliEscape = Utf8.encode (cps.flatMap smaliChars) := by
  induction cps with
  | nil => rfl
  | cons cp cps ih =>
    rw [List.flatMap_cons, List.flatMap_cons, Utf8.encode_append,
      smaliEscape_eq (h cp List.mem_cons_self), ih fun d hd => h d (List.mem_cons_of_mem cp hd)]

theorem openQuote_text : openQuote false (cps.flatMap smaliChars) = false := by
  induction cps with
  | nil => rfl
  | cons cp cps ih =>
    rw [List.flatMap_cons, openQuote_smaliChars (h cp List.mem_cons_self)]
    exact ih fun d hd => h d (List.mem_cons_of_mem cp hd)

theorem readSmali_text : readSmali (cps.flatMap smaliChars) = some (cps.map Char.ofNat) := by
  induction cps with
  | nil => rfl
  | cons cp cps ih =>
    rw [List.flatMap_cons, readSmali_smaliChars (h cp List.mem_cons_self),
      ih fun d hd => h d (List.mem_cons_of_mem cp hd)]
    rfl

end Texts

/-- The characters of a string of units: a lone surrogate has none and is replaced. -/
inductive Characters : List Nat → List Char → Prop where
  | nil : Characters [] []
  | char {c : Char} {us : List Nat} {cs : List Char} (hrest : Characters us cs) :
    Characters (utf16 c ++ us) (c :: cs)
  | lone {u : Nat} {us : List Nat} {cs : List Char} (hsurrogate : 0xD800 ≤ u ∧ u ≤ 0xDFFF)
      (hlone : ∀ w rest, us = w :: rest → ¬(IsHighSurrogate u ∧ IsLowSurrogate w))
      (hrest : Characters us cs) : Characters (u :: us) ('\uFFFD' :: cs)

theorem characters_smaliCodePoints {us : List Nat} (h : ∀ u ∈ us, u < 65536) :
    Characters us ((smaliCodePoints us).map Char.ofNat) := by
  have hunit {u : Nat} {us : List Nat} {cs : List Char} (hlt : u < 65536)
      (hlone : ∀ w rest, us = w :: rest → ¬(IsHighSurrogate u ∧ IsLowSurrogate w))
      (hrest : Characters us cs) : Characters (u :: us)
        (Char.ofNat (if 0xD800 ≤ u ∧ u ≤ 0xDFFF then 0xFFFD else u) :: cs) := by
    split
    · rename_i hsurrogate
      exact .lone hsurrogate hlone hrest
    · have hchar : (Char.ofNat u).toNat = u := Utf8.toNat_ofNat (by omega) (by omega)
      have hone : utf16 (Char.ofNat u) = [u] := by
        rw [utf16, hchar, if_pos hlt]
      have hcons := Characters.char (c := Char.ofNat u) hrest
      rwa [hone] at hcons
  fun_induction smaliCodePoints us with
  | case1 => exact .nil
  | case2 u => exact hunit (h u List.mem_cons_self) (fun _ _ heq => absurd heq.symm (List.cons_ne_nil _ _)) .nil
  | case3 u w units hpair ih =>
    have hcp := pairCodePoint_eq hpair.1 hpair.2
    have hchar : (Char.ofNat (pairCodePoint u w)).toNat = pairCodePoint u w :=
      Utf8.toNat_ofNat (Or.inr (Nat.lt_of_lt_of_le (by decide) hcp.2.1)) hcp.2.2
    have htwo : utf16 (Char.ofNat (pairCodePoint u w)) = [u, w] := by
      obtain ⟨⟨hhigh, hhigh'⟩, hlow, hlow'⟩ := hpair
      rw [utf16, hchar, if_neg (Nat.not_lt.mpr hcp.2.1), hcp.1]
      have hu : 0xD7C0 + (0x10000 + (u - 0xD800) * 1024 + (w - 0xDC00)) / 1024 = u := by omega
      have hw : 0xDC00 + (0x10000 + (u - 0xD800) * 1024 + (w - 0xDC00)) % 1024 = w := by omega
      rw [hu, hw]
    have hcons := Characters.char (c := Char.ofNat (pairCodePoint u w))
      (ih fun v hv => h v (by simp [hv]))
    rwa [htwo] at hcons
  | case4 u w units hpair ih =>
    refine hunit (h u List.mem_cons_self) (fun v rest heq => ?_)
      (ih fun v hv => h v (List.mem_cons_of_mem u hv))
    rw [← (List.cons.inj heq).1]
    exact hpair

end Dad

/-- No string of an accepted file breaks out of its literal. As Java source, the
rendered literal is one string literal up to its last character, with the units of the
string. In the listing, its text has no control character below 0x20 and no quote
without a backslash, is well-formed UTF-8, and reads back as the string with each lone
surrogate replaced. -/
theorem literals_contained (s : AcceptedText) :
    (∃ source, escapeJavaString s.1 = Utf8.encode source ∧
      JavaLiteral.read (source.flatMap Dad.utf16) = some (decodedUnits s.1, [])) ∧
    ∃ text characters, Dad.escapeSmaliString s.1 = Utf8.encode text ∧
      (∀ b ∈ Dad.escapeSmaliString s.1, 0x20 ≤ b.toNat) ∧ Dad.openQuote false text = false ∧
        Dad.readSmali text = some characters ∧ Dad.Characters (decodedUnits s.1) characters := by
  have hlt : ∀ u ∈ decodedUnits s.1, u < 65536 := s.spelling.lt
  have hscalar := Dad.isScalar_smaliCodePoints hlt
  have htext : Dad.escapeSmaliString s.1 =
      Utf8.encode ((Dad.smaliCodePoints (decodedUnits s.1)).flatMap Dad.smaliChars) :=
    Dad.encode_smaliChars hscalar
  refine ⟨⟨_, ?_, Dad.read_literal hlt⟩, (Dad.smaliCodePoints (decodedUnits s.1)).flatMap
    Dad.smaliChars, _, htext, ?_, ?_, ?_, Dad.characters_smaliCodePoints hlt⟩
  · rw [List.cons_append, Utf8.encode_cons, Utf8.encode_append, ← Dad.encode_javaChars hlt]
    rfl
  · rw [htext]
    refine Dad.encode_printable fun c hc => ?_
    obtain ⟨cp, hcp, hc⟩ := List.mem_flatMap.mp hc
    exact Dad.smaliChars_printable (hscalar cp hcp) c hc
  · exact Dad.openQuote_text hscalar
  · exact Dad.readSmali_text hscalar

end Dexllm
