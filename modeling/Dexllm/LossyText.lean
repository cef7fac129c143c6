import Dexllm.CommentText

/-!
The lossy decoder on every byte string. Its text is well-formed UTF-8 whatever
the bytes are; on canonical Modified UTF-8 it is the text of the other decoder
with each lone surrogate replaced.
-/

namespace Dexllm

open Mutf8

namespace Dad

/-- `text` with every three-byte encoding of a surrogate replaced by U+FFFD. -/
def replaceSurrogates : Text → Text
  | [] => []
  | a :: rest =>
    match rest with
    | b :: c :: rest2 =>
      if a.toNat = 0xED ∧ (0xA0 ≤ b.toNat ∧ b.toNat ≤ 0xBF) ∧ 0x80 ≤ c.toNat ∧ c.toNat ≤ 0xBF then
        0xEF :: 0xBF :: 0xBD :: replaceSurrogates rest2
      else a :: replaceSurrogates (b :: c :: rest2)
    | rest => a :: replaceSurrogates rest

section WellFormed

theorem wellFormed_emitCp (cp : Nat) : Utf8.WellFormed (emitCp cp) := by
  have hbmp {u : Nat} (hlt : u < 65536) (hplain : u < 0xD800 ∨ 0xDFFF < u) :
      Utf8.WellFormed (utf8Bmp u) := by
    rw [utf8Bmp_char hlt hplain]
    exact .char _
  unfold emitCp
  by_cases hnone : (0xD800 ≤ cp ∧ cp ≤ 0xDFFF) ∨ 0x10FFFF < cp
  · simp only [hnone, if_true]
    exact hbmp (by decide) (by decide)
  simp only [hnone, if_false]
  split
  · exact hbmp (by omega) (by omega)
  · rw [utf8Astral_char (by omega) (by omega)]
    exact .char _

theorem wellFormed_mutf8ToUtf8LossyFrom (rounds : Nat) (raw : Text) :
    Utf8.WellFormed (mutf8ToUtf8LossyFrom rounds raw) := by
  induction rounds generalizing raw with
  | zero => exact .nil
  | succ rounds ih =>
    cases raw with
    | nil => exact .nil
    | cons c rest =>
      rw [mutf8ToUtf8LossyFrom]
      split
      · rename_i hascii
        have hone : Utf8.WellFormed [c] := wellFormed_ascii (by simpa using hascii)
        exact hone.append (ih rest)
      split
      · exact (wellFormed_emitCp _).append (ih _)
      split
      · exact (wellFormed_emitCp _).append (ih _)
      split
      · exact (wellFormed_emitCp _).append (ih _)
      · dsimp only
        split
        · exact (wellFormed_emitCp _).append (ih _)
        · exact (wellFormed_emitCp _).append (ih _)

end WellFormed

section Replaced

theorem replaceSurrogates_cons {a : UInt8} (h : a.toNat ≠ 0xED) (rest : Text) :
    replaceSurrogates (a :: rest) = a :: replaceSurrogates rest := by
  match rest with
  | [] => rfl
  | [b] => rfl
  | b :: c :: rest => exact if_neg fun hsurrogate => h hsurrogate.1

theorem replaceSurrogates_append {bs : Text} (h : ∀ b ∈ bs, b.toNat ≠ 0xED) (rest : Text) :
    replaceSurrogates (bs ++ rest) = bs ++ replaceSurrogates rest := by
  induction bs with
  | nil => rfl
  | cons b bs ih =>
    rw [List.cons_append, replaceSurrogates_cons (h b (by simp)),
      ih fun d hd => h d (by simp [hd]), List.cons_append]

/-- One unit of the text: it is replaced when it is a surrogate. -/
theorem replaceSurrogates_bmp {u : Nat} (hlt : u < 65536) (rest : Text) :
    replaceSurrogates (utf8Bmp u ++ rest) = emitCp u ++ replaceSurrogates rest := by
  obtain rfl | hpos := Nat.eq_zero_or_pos u
  · exact replaceSurrogates_cons (by decide) rest
  have hbytes := utf8Bmp_eq hpos hlt
  by_cases hsurrogate : 0xD800 ≤ u ∧ u ≤ 0xDFFF
  · have hmiddle := toNat_ofNat (n := 0x80 + u / 64 % 64) (by omega)
    have hlast := toNat_ofNat (n := 0x80 + u % 64) (by omega)
    have hlead : 0xE0 + u / 4096 = 0xED := by omega
    have hemit : emitCp u = [0xEF, 0xBF, 0xBD] := by
      simp only [emitCp, hsurrogate, true_and, true_or, if_true]
      decide
    rw [hbytes, hemit, encodeUnit, if_neg (by omega), if_neg (by omega), hlead]
    simp only [List.cons_append, List.nil_append, replaceSurrogates]
    rw [if_pos ⟨rfl, by omega, by omega⟩]
  rw [emitCp_plain hlt (by omega)]
  by_cases hed : u / 4096 = 13 ∧ 0x800 ≤ u
  · have hlead := toNat_ofNat (n := 0xE0 + u / 4096) (by omega)
    have hmiddle := toNat_ofNat (n := 0x80 + u / 64 % 64) (by omega)
    have hlast := toNat_ofNat (n := 0x80 + u % 64) (by omega)
    rw [hbytes, encodeUnit, if_neg (by omega), if_neg (by omega)]
    simp only [List.cons_append, List.nil_append]
    rw [replaceSurrogates, if_neg (by omega), replaceSurrogates_cons (by omega),
      replaceSurrogates_cons (by omega)]
  · refine replaceSurrogates_append (fun b hb => ?_) rest
    rw [hbytes, encodeUnit] at hb
    split at hb
    · obtain rfl := List.mem_singleton.mp hb
      rw [toNat_ofNat (by omega)]
      omega
    split at hb
    all_goals
      simp only [List.mem_cons, List.not_mem_nil, or_false] at hb
      rcases hb with rfl | rfl | rfl <;> rw [toNat_ofNat (by omega)] <;> omega

theorem replaceSurrogates_astral {cp : Nat} (hlt : cp < 0x110000) (rest : Text) :
    replaceSurrogates (utf8Astral cp ++ rest) = utf8Astral cp ++ replaceSurrogates rest := by
  refine replaceSurrogates_append (fun b hb => ?_) rest
  rw [utf8Astral_eq hlt] at hb
  simp only [List.mem_cons, List.not_mem_nil, or_false] at hb
  rcases hb with rfl | rfl | rfl | rfl <;> rw [toNat_ofNat (by omega)] <;> omega

end Replaced

section Lone

private theorem threeByteLead (a : UInt8) (h : a.toNat &&& 0xF0 = 0xE0) :
    0xE0 ≤ a.toNat ∧ a.toNat < 0xF0 := by
  have hshift : a.toNat >>> 4 &&& 15 = 14 :=
    (@Nat.shiftRight_and_distrib 4 a.toNat 0xF0).symm.trans (congrArg (· >>> 4) h)
  rw [show a.toNat >>> 4 &&& 15 = a.toNat >>> 4 % 16 from Nat.and_two_pow_sub_one_eq_mod _ 4,
    Nat.shiftRight_eq_div_pow] at hshift
  have hlt := a.toNat_lt
  omega

theorem codeUnit_lowSurrogate {text : Text} {lo : Nat} (h : lowSurrogate text = some lo) :
    IsLowSurrogate lo ∧ ∃ a b c rest, text = a :: b :: c :: rest ∧ CodeUnit lo [a, b, c] := by
  unfold lowSurrogate at h
  split at h
  · rename_i a b c rest
    split at h
    · rename_i hbytes
      obtain ⟨hlead, htail, htail', hlow⟩ := hbytes
      obtain rfl := Option.some.inj h
      obtain ⟨hmin, hmax⟩ := threeByteLead a hlead
      have hcanon := hlow.1
      exact ⟨hlow, a, b, c, rest, rfl, .three hmin hmax htail htail' (by omega)⟩
    · exact absurd h (by simp)
  · exact absurd h (by simp)

/-- The cursor is at a low surrogate only when the next unit is one. -/
theorem lowSurrogate_of_unit {w : Nat} {ds : Text} (hunit : CodeUnit w ds)
    (hw : ¬IsLowSurrogate w) (s : Text) : lowSurrogate (ds ++ s) = none := by
  cases hnext : lowSurrogate (ds ++ s) with
  | none => rfl
  | some lo =>
    obtain ⟨hlow, a, b, c, rest, htext, hlo⟩ := codeUnit_lowSurrogate hnext
    have hsame : mutf8ToUtf16 1 ((ds ++ s).map UInt8.toNat) = [w] := by
      rw [List.map_append, mutf8ToUtf16_append hunit]
      rfl
    have hsame' : mutf8ToUtf16 1 ((ds ++ s).map UInt8.toNat) = [lo] := by
      rw [htext, show a :: b :: c :: rest = [a, b, c] ++ rest from rfl, List.map_append,
        mutf8ToUtf16_append hlo]
      rfl
    obtain rfl : w = lo := List.singleton_inj.mp (hsame.symm.trans hsame')
    exact absurd hlow hw

/-- A unit that starts no pair. -/
theorem mutf8ToUtf8LossyFrom_lone {u : Nat} {cs s : Text} (h : CodeUnit u cs)
    (hnext : IsHighSurrogate u → lowSurrogate s = none) (rounds : Nat) :
    mutf8ToUtf8LossyFrom (rounds + 1) (cs ++ s) = emitCp u ++ mutf8ToUtf8LossyFrom rounds s := by
  by_cases hwide : 0x80 ≤ u ∨ u = 0
  · rw [mutf8ToUtf8LossyFrom_append h hwide]
    by_cases hhigh : IsHighSurrogate u
    · simp only [hhigh, if_true, hnext hhigh]
    · simp only [hhigh, if_false]
  · rw [mutf8ToUtf8LossyFrom_unit h (by omega) (by omega), emitCp_plain h.lt (by omega)]

/-- The two decoders in lockstep over the units. -/
theorem mutf8ToUtf8LossyFrom_spelling {us : List Nat} {bs : Text} (hbs : Spelling us bs)
    (rounds : Nat) (hrounds : us.length ≤ rounds) :
    mutf8ToUtf8LossyFrom rounds bs = replaceSurrogates (utf16ToUtf8 us) := by
  induction us using utf16ToUtf8.induct generalizing bs rounds with
  | case1 =>
    cases hbs
    cases rounds <;> rfl
  | case2 u =>
    obtain ⟨rounds, rfl⟩ : ∃ k, rounds = k + 1 := ⟨rounds - 1, by simp at hrounds; omega⟩
    cases hbs with
    | cons hunit hrest =>
      cases hrest
      rw [mutf8ToUtf8LossyFrom_lone hunit (fun _ => rfl), utf16ToUtf8,
        ← List.append_nil (utf8Bmp u), replaceSurrogates_bmp hunit.lt]
      cases rounds <;> rfl
  | case3 high low us hpair ih =>
    obtain ⟨rounds, rfl⟩ : ∃ k, rounds = k + 1 := ⟨rounds - 1, by simp at hrounds; omega⟩
    cases hbs with
    | cons hunit hrest =>
      cases hrest with
      | cons hunit2 hrest =>
        have hlen : us.length ≤ rounds := by simp at hrounds; omega
        have hcp := (pairCodePoint_eq hpair.1 hpair.2).2.2
        rw [mutf8ToUtf8LossyFrom_pair hunit hunit2 hpair.1 hpair.2, ih hrest rounds hlen,
          utf16ToUtf8, if_pos hpair, replaceSurrogates_astral hcp]
  | case4 u w us hnone ih =>
    obtain ⟨rounds, rfl⟩ : ∃ k, rounds = k + 1 := ⟨rounds - 1, by simp at hrounds; omega⟩
    cases hbs with
    | @cons _ _ _ bs hunit hrest =>
      have hnext (hhigh : IsHighSurrogate u) : lowSurrogate bs = none := by
        cases hrest with
        | cons hunit2 _ => exact lowSurrogate_of_unit hunit2 (fun hlow => hnone ⟨hhigh, hlow⟩) _
      rw [mutf8ToUtf8LossyFrom_lone hunit hnext, ih hrest rounds (by simpa using hrounds),
        utf16ToUtf8, if_neg hnone, replaceSurrogates_bmp hunit.lt]

end Lone

/-- The lossy decoder is total and valid on every byte string; on canonical
Modified UTF-8 it differs from the other decoder in the lone surrogates only. -/
theorem mutf8_lossy_exact :
    (∀ x, Utf8.WellFormed (mutf8ToUtf8Lossy x)) ∧
      ∀ us x, Spelling us x → mutf8ToUtf8Lossy x = replaceSurrogates (mutf8ToUtf8 x) := by
  refine ⟨fun x => ?_, fun us x hx => ?_⟩
  · rw [mutf8ToUtf8Lossy_eq]
    exact wellFormed_mutf8ToUtf8LossyFrom _ x
  · rw [mutf8ToUtf8Lossy_eq, mutf8ToUtf8LossyFrom_spelling hx _ hx.length_le, mutf8ToUtf8,
      mutf8ToUtf16_spelling hx _ hx.length_le]

/-- `𐐀` between a lone low and a lone high surrogate. -/
theorem mutf8_lossy_exact_lone :
    mutf8ToUtf8Lossy (encode [0xDC00, 0xD801, 0xDC00, 0xD800]) =
      replaceSurrogates (mutf8ToUtf8 (encode [0xDC00, 0xD801, 0xDC00, 0xD800])) ∧
    mutf8ToUtf8Lossy (encode [0xDC00, 0xD801, 0xDC00, 0xD800]) =
      [0xEF, 0xBF, 0xBD, 0xF0, 0x90, 0x90, 0x80, 0xEF, 0xBF, 0xBD] :=
  ⟨mutf8_lossy_exact.2 _ _ (spelling_encode (by decide)), by decide⟩

end Dad

end Dexllm
