import Mathlib.Data.List.Lex
import Dexllm.CommentText
import Dexllm.Permissions.Signatures

/-!
Names in the two encodings of the permission join: code points in Python, MUTF-8 bytes
in C++. An ASCII character is one byte and no byte of another character, and the two
orders differ where a supplementary character meets one from U+E000 to U+FFFF.
-/

namespace Dexllm.Permissions

open Mutf8

def mutf8Char (c : Char) : List UInt8 := encode (Dad.utf16 c)

/-- The bytes of a text in the string pool. -/
def mutf8 (t : Text) : List UInt8 := t.flatMap mutf8Char

/-- What Python orders strings by. -/
def codePoints (t : Text) : List Nat := t.map Char.toNat

/-- What `std::string` orders strings by. -/
def byteValues (bs : List UInt8) : List Nat := bs.map UInt8.toNat

@[simp] theorem mutf8_nil : mutf8 [] = [] := rfl

@[simp] theorem mutf8_cons (c : Char) (t : Text) : mutf8 (c :: t) = mutf8Char c ++ mutf8 t := by
  simp [mutf8]

@[simp] theorem mutf8_append (s t : Text) : mutf8 (s ++ t) = mutf8 s ++ mutf8 t := by
  simp [mutf8]

@[simp] theorem byteValues_append (bs ds : List UInt8) :
    byteValues (bs ++ ds) = byteValues bs ++ byteValues ds := by
  simp [byteValues]

/-! The order of the code units. -/

theorem byteValues_encodeUnit {u : Nat} (h : u < 65536) :
    (0 < u ∧ u < 0x80 ∧ byteValues (encodeUnit u) = [u]) ∨
    (u = 0 ∧ byteValues (encodeUnit u) = [0xC0, 0x80]) ∨
    (0x80 ≤ u ∧ u < 0x800 ∧ byteValues (encodeUnit u) = [0xC0 + u / 64, 0x80 + u % 64]) ∨
    (0x800 ≤ u ∧ byteValues (encodeUnit u) =
      [0xE0 + u / 4096, 0x80 + u / 64 % 64, 0x80 + u % 64]) := by
  unfold encodeUnit byteValues
  obtain hone | rfl | htwo | hthree :
      (0 < u ∧ u < 0x80) ∨ u = 0 ∨ (0x80 ≤ u ∧ u < 0x800) ∨ 0x800 ≤ u := by omega
  · refine Or.inl ⟨hone.1, hone.2, ?_⟩
    rw [if_pos hone, List.map_singleton, toNat_ofNat (by omega)]
  · exact Or.inr (Or.inl ⟨rfl, rfl⟩)
  · refine Or.inr (Or.inr (Or.inl ⟨htwo.1, htwo.2, ?_⟩))
    rw [if_neg (by omega), if_pos htwo.2, List.map_cons, List.map_singleton,
      toNat_ofNat (by omega), toNat_ofNat (by omega)]
  · refine Or.inr (Or.inr (Or.inr ⟨hthree, ?_⟩))
    rw [if_neg (by omega), if_neg (by omega), List.map_cons, List.map_cons,
      List.map_singleton, toNat_ofNat (by omega), toNat_ofNat (by omega),
      toNat_ofNat (by omega)]

/-- The unit zero has two bytes, so it comes after the ASCII units. -/
theorem encodeUnit_lt_iff {u w : Nat} (hu : u < 65536) (hw : w < 65536) (hne : u ≠ w)
    (s t : List Nat) :
    byteValues (encodeUnit u) ++ s < byteValues (encodeUnit w) ++ t ↔
      (u < w ∧ ¬(u = 0 ∧ w < 0x80)) ∨ (w = 0 ∧ u < 0x80) := by
  obtain ⟨_, _, hbytes⟩ | ⟨_, hbytes⟩ | ⟨_, _, hbytes⟩ | ⟨_, hbytes⟩ :=
      byteValues_encodeUnit hu <;>
    obtain ⟨_, _, hbytes'⟩ | ⟨_, hbytes'⟩ | ⟨_, _, hbytes'⟩ | ⟨_, hbytes'⟩ :=
      byteValues_encodeUnit hw <;>
    rw [hbytes, hbytes'] <;>
    by_cases hst : s < t <;>
    simp only [List.cons_append, List.nil_append, List.cons_lt_cons_iff, hst, and_true,
      and_false, or_false] <;>
    omega

theorem append_lt_append_iff (bs s t : List Nat) : bs ++ s < bs ++ t ↔ s < t := by
  induction bs with
  | nil => rfl
  | cons b bs ih => simp [ih]

/-! The order of the characters. -/

/-- The code points are in this order and the bytes in the other. -/
def Swaps (low high : Char) : Prop :=
  (0xE000 ≤ low.toNat ∧ low.toNat < 0x10000 ∧ 0x10000 ≤ high.toNat) ∨
    (low.toNat = 0 ∧ 0 < high.toNat ∧ high.toNat < 0x80)

instance (low high : Char) : Decidable (Swaps low high) := inferInstanceAs (Decidable (_ ∨ _))

/-- The first characters in which the texts differ are ordered differently. -/
def Inverted : Text → Text → Prop
  | c :: s, d :: t => if c = d then Inverted s t else Swaps c d ∨ Swaps d c
  | _, _ => False

theorem mutf8Char_bmp {c : Char} (h : c.toNat < 0x10000) : mutf8Char c = encodeUnit c.toNat := by
  simp [mutf8Char, Dad.utf16, h, encode]

theorem mutf8Char_astral {c : Char} (h : 0x10000 ≤ c.toNat) :
    mutf8Char c =
      encodeUnit (0xD7C0 + c.toNat / 1024) ++ encodeUnit (0xDC00 + c.toNat % 1024) := by
  simp [mutf8Char, Dad.utf16, Nat.not_lt.mpr h, encode]

theorem mutf8Char_lt_iff {c d : Char} (hne : c ≠ d) (s t : List Nat) :
    byteValues (mutf8Char c) ++ s < byteValues (mutf8Char d) ++ t ↔
      (c.toNat < d.toNat ∧ ¬Swaps c d) ∨ Swaps d c := by
  have hne' : c.toNat ≠ d.toNat := fun heq => hne (Char.toNat_inj.mp heq)
  have hc := Utf8.toNat_lt c
  have hd := Utf8.toNat_lt d
  have hc' := Utf8.toNat_not_surrogate c
  have hd' := Utf8.toNat_not_surrogate d
  unfold Swaps
  obtain hcb | hca := Nat.lt_or_ge c.toNat 0x10000 <;>
    obtain hdb | hda := Nat.lt_or_ge d.toNat 0x10000
  · rw [mutf8Char_bmp hcb, mutf8Char_bmp hdb, encodeUnit_lt_iff hcb hdb hne']
    omega
  · rw [mutf8Char_bmp hcb, mutf8Char_astral hda, byteValues_append, List.append_assoc,
      encodeUnit_lt_iff hcb (by omega) (by omega)]
    omega
  · rw [mutf8Char_astral hca, mutf8Char_bmp hdb, byteValues_append, List.append_assoc,
      encodeUnit_lt_iff (by omega) hdb (by omega)]
    omega
  · rw [mutf8Char_astral hca, mutf8Char_astral hda, byteValues_append, byteValues_append,
      List.append_assoc, List.append_assoc]
    obtain hhigh | hhigh := eq_or_ne (c.toNat / 1024) (d.toNat / 1024)
    · rw [hhigh, append_lt_append_iff, encodeUnit_lt_iff (by omega) (by omega) (by omega)]
      omega
    · rw [encodeUnit_lt_iff (by omega) (by omega) (by omega)]
      omega

theorem mutf8Char_ne_nil (c : Char) : byteValues (mutf8Char c) ≠ [] := by
  obtain h | h := Nat.lt_or_ge c.toNat 0x10000
  · rw [mutf8Char_bmp h]
    obtain ⟨_, _, hbytes⟩ | ⟨_, hbytes⟩ | ⟨_, _, hbytes⟩ | ⟨_, hbytes⟩ :=
      byteValues_encodeUnit h <;> simp [hbytes]
  · have hunit : 0xD7C0 + c.toNat / 1024 < 65536 := by
      have := Utf8.toNat_lt c
      omega
    rw [mutf8Char_astral h, byteValues_append]
    obtain ⟨_, _, hbytes⟩ | ⟨_, hbytes⟩ | ⟨_, _, hbytes⟩ | ⟨_, hbytes⟩ :=
      byteValues_encodeUnit hunit <;> simp [hbytes]

/-- Code points and MUTF-8 bytes order two texts alike exactly when these are not
inverted. -/
theorem order_agrees_iff (s t : Text) :
    (codePoints s < codePoints t ↔ byteValues (mutf8 s) < byteValues (mutf8 t)) ↔
      ¬Inverted s t := by
  induction s generalizing t with
  | nil =>
    cases t with
    | nil => simp [Inverted, codePoints, byteValues]
    | cons d t =>
      obtain ⟨b, bs, hbytes⟩ := List.exists_cons_of_ne_nil (mutf8Char_ne_nil d)
      rw [mutf8_cons, byteValues_append, hbytes]
      simp [Inverted, codePoints, byteValues]
  | cons c s ih =>
    cases t with
    | nil => simp [Inverted, codePoints, byteValues]
    | cons d t =>
      rw [mutf8_cons, mutf8_cons, byteValues_append, byteValues_append, Inverted]
      obtain rfl | hne := eq_or_ne c d
      · rw [if_pos rfl, append_lt_append_iff, ← ih t]
        simp [codePoints]
      · have hne' : c.toNat ≠ d.toNat := fun heq => hne (Char.toNat_inj.mp heq)
        rw [if_neg hne, mutf8Char_lt_iff hne]
        have hcodes : codePoints (c :: s) < codePoints (d :: t) ↔ c.toNat < d.toNat := by
          simp [codePoints, List.cons_lt_cons_iff, hne']
        rw [hcodes]
        unfold Swaps
        omega

theorem codePoints_injective : Function.Injective codePoints :=
  List.map_injective_iff.mpr fun _ _ => Char.toNat_inj.mp

theorem byteValues_injective : Function.Injective byteValues :=
  List.map_injective_iff.mpr fun _ _ => UInt8.toNat_inj.mp

theorem mutf8_injective : Function.Injective mutf8 := by
  intro s
  induction s with
  | nil =>
    intro t h
    cases t with
    | nil => rfl
    | cons d t =>
      refine absurd ?_ (mutf8Char_ne_nil d)
      rw [mutf8_cons] at h
      rw [(List.append_eq_nil_iff.mp h.symm).1]
      rfl
  | cons c s ih =>
    intro t h
    cases t with
    | nil =>
      refine absurd ?_ (mutf8Char_ne_nil c)
      rw [mutf8_cons] at h
      rw [(List.append_eq_nil_iff.mp h).1]
      rfl
    | cons d t =>
      rw [mutf8_cons, mutf8_cons] at h
      obtain rfl | hne := eq_or_ne c d
      · rw [ih (List.append_cancel_left h)]
      · have hbytes := congrArg byteValues h
        rw [byteValues_append, byteValues_append] at hbytes
        have hne' : c.toNat ≠ d.toNat := fun heq => hne (Char.toNat_inj.mp heq)
        have hcd := mutf8Char_lt_iff hne (byteValues (mutf8 s)) (byteValues (mutf8 t))
        have hdc := mutf8Char_lt_iff hne.symm (byteValues (mutf8 t)) (byteValues (mutf8 s))
        rw [hbytes, lt_self_iff_false, false_iff, not_or] at hcd
        rw [hbytes, lt_self_iff_false, false_iff, not_or] at hdc
        unfold Swaps at hcd hdc
        omega

/-! ASCII in MUTF-8. -/

theorem mutf8Char_plain {c : Char} (hpos : 0 < c.toNat) (hlt : c.toNat < 0x80) :
    mutf8Char c = [UInt8.ofNat c.toNat] := by
  rw [mutf8Char_bmp (by omega), encodeUnit, if_pos ⟨hpos, hlt⟩]

theorem encodeUnit_wide {u : Nat} (hu : u < 65536) (h : u = 0 ∨ 0x80 ≤ u) :
    ∀ b ∈ encodeUnit u, 0x80 ≤ b.toNat := by
  intro b hb
  have hval : b.toNat ∈ byteValues (encodeUnit u) := List.mem_map_of_mem hb
  obtain ⟨hpos, hlt, _⟩ | ⟨_, hbytes⟩ | ⟨_, _, hbytes⟩ | ⟨_, hbytes⟩ :=
    byteValues_encodeUnit hu
  · omega
  all_goals
    simp only [hbytes, List.mem_cons, List.not_mem_nil, or_false] at hval
    omega

theorem mutf8Char_wide {c : Char} (h : c.toNat = 0 ∨ 0x80 ≤ c.toNat) :
    ∀ b ∈ mutf8Char c, 0x80 ≤ b.toNat := by
  have hc := Utf8.toNat_lt c
  obtain hbmp | hastral := Nat.lt_or_ge c.toNat 0x10000
  · rw [mutf8Char_bmp hbmp]
    exact encodeUnit_wide hbmp h
  · rw [mutf8Char_astral hastral]
    intro b hb
    obtain hb | hb := List.mem_append.mp hb
    · exact encodeUnit_wide (by omega) (by omega) b hb
    · exact encodeUnit_wide (by omega) (by omega) b hb

/-- An ASCII byte stands for its character only. -/
theorem ascii_byte_iff {c d : Char} {b : UInt8} (hb : b ∈ mutf8Char c) (hpos : 0 < d.toNat)
    (hlt : d.toNat < 0x80) : b = UInt8.ofNat d.toNat ↔ c = d := by
  have hd : (UInt8.ofNat d.toNat).toNat = d.toNat := toNat_ofNat (by omega)
  rw [← UInt8.toNat_inj, ← Char.toNat_inj, hd]
  by_cases hplain : 0 < c.toNat ∧ c.toNat < 0x80
  · rw [mutf8Char_plain hplain.1 hplain.2, List.mem_singleton] at hb
    rw [hb, toNat_ofNat (by omega)]
  · have := mutf8Char_wide (by omega) b hb
    omega

section Bytewise

variable {f : Char → Bool} {g : UInt8 → Bool}

theorem rtakeWhile_mutf8 (h : ∀ c, ∀ b ∈ mutf8Char c, g b = f c) (t : Text) :
    (mutf8 t).rtakeWhile g = mutf8 (t.rtakeWhile f) := by
  induction t using List.reverseRecOn with
  | nil => rfl
  | append_singleton t c ih =>
    have hone : mutf8 [c] = mutf8Char c := by simp
    rw [mutf8_append, hone, List.rtakeWhile_concat]
    by_cases hc : f c = true
    · have hall : ∀ b ∈ (mutf8Char c).reverse, g b = true := fun b hb =>
        (h c b (List.mem_reverse.mp hb)).trans hc
      rw [if_pos hc, mutf8_append, hone, ← ih]
      unfold List.rtakeWhile
      rw [List.reverse_append, List.takeWhile_append_of_pos hall, List.reverse_append,
        List.reverse_reverse]
    · obtain ⟨bs, b, hbytes⟩ : ∃ bs b, mutf8Char c = bs ++ [b] := by
        obtain hnil | hlast := List.eq_nil_or_concat' (mutf8Char c)
        · exact absurd (by rw [hnil]; rfl) (mutf8Char_ne_nil c)
        · exact hlast
      have hb : ¬g b = true := by
        rw [h c b (by simp [hbytes])]
        exact hc
      rw [if_neg hc, hbytes, ← List.append_assoc, List.rtakeWhile_concat, if_neg hb]
      rfl

theorem map_mutf8 {r : Char → Char} {q : UInt8 → UInt8}
    (h : ∀ c, (mutf8Char c).map q = mutf8Char (r c)) (t : Text) :
    (mutf8 t).map q = mutf8 (t.map r) := by
  simp only [mutf8, List.map_flatMap, List.flatMap_map, h]

end Bytewise

theorem mem_mutf8_iff {d : Char} (hpos : 0 < d.toNat) (hlt : d.toNat < 0x80) (t : Text) :
    UInt8.ofNat d.toNat ∈ mutf8 t ↔ d ∈ t := by
  unfold mutf8
  rw [List.mem_flatMap]
  constructor
  · rintro ⟨c, hc, hb⟩
    rwa [← (ascii_byte_iff hb hpos hlt).mp rfl]
  · intro hd
    exact ⟨d, hd, by rw [mutf8Char_plain hpos hlt]; exact List.mem_singleton_self _⟩

theorem mutf8_plain {t : Text} (h : ∀ c ∈ t, 0 < c.toNat ∧ c.toNat < 0x80) :
    mutf8 t = Utf8.encode t := by
  rw [Utf8.encode_ascii fun c hc => (h c hc).2, List.map_eq_flatMap]
  exact List.flatMap_congr fun c hc => mutf8Char_plain (h c hc).1 (h c hc).2

end Dexllm.Permissions
