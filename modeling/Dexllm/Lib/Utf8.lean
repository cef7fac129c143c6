import Mathlib.Data.List.Basic

/-!
UTF-8: a text is well formed when it is the encoding of a list of scalar values.
The encoding is injective, so the scalar values of a text are its own.
-/

namespace Utf8

/-- The encoding of a list of scalar values. -/
def encode (cs : List Char) : List UInt8 := cs.flatMap String.utf8EncodeChar

/-- Well-formed UTF-8. -/
def WellFormed (bs : List UInt8) : Prop := ∃ cs, bs = encode cs

@[simp] theorem encode_nil : encode [] = [] := rfl

@[simp] theorem encode_cons (c : Char) (cs : List Char) :
    encode (c :: cs) = String.utf8EncodeChar c ++ encode cs := rfl

@[simp] theorem encode_append (cs ds : List Char) : encode (cs ++ ds) = encode cs ++ encode ds :=
  List.flatMap_append

theorem WellFormed.nil : WellFormed [] := ⟨[], rfl⟩

theorem WellFormed.char (c : Char) : WellFormed (String.utf8EncodeChar c) := ⟨[c], by simp⟩

theorem WellFormed.append {bs ds : List UInt8} (hbs : WellFormed bs) (hds : WellFormed ds) :
    WellFormed (bs ++ ds) := by
  obtain ⟨cs, rfl⟩ := hbs
  obtain ⟨es, rfl⟩ := hds
  exact ⟨cs ++ es, (encode_append cs es).symm⟩

/-- A text is the encoding of one list of scalar values only. -/
theorem encode_injective {cs ds : List Char} (h : encode cs = encode ds) : cs = ds := by
  induction cs generalizing ds with
  | nil =>
    cases ds with
    | nil => rfl
    | cons d ds => simp [String.utf8EncodeChar_ne_nil] at h
  | cons c cs ih =>
    cases ds with
    | nil => simp [String.utf8EncodeChar_ne_nil] at h
    | cons d ds =>
      have hbytes : (String.utf8EncodeChar c).toByteArray ++ (encode cs).toByteArray =
          (String.utf8EncodeChar d).toByteArray ++ (encode ds).toByteArray := by
        simpa only [encode_cons, List.toByteArray_append] using congrArg List.toByteArray h
      have hdecode := congrArg (fun b => ByteArray.utf8DecodeChar? b 0) hbytes
      simp only [ByteArray.utf8DecodeChar?_utf8EncodeChar_append, Option.some.injEq] at hdecode
      subst hdecode
      rw [ih (List.append_cancel_left h)]

section Lengths

variable {c : Char}

theorem encodeChar_one (h : c.toNat < 0x80) :
    String.utf8EncodeChar c = [UInt8.ofNat c.toNat] := by
  simp only [String.utf8EncodeChar]
  rw [if_pos (show c.val.toNat ≤ 0x7f from Nat.le_of_lt_succ h)]
  rfl

theorem encodeChar_two (hmin : 0x80 ≤ c.toNat) (hmax : c.toNat < 0x800) :
    String.utf8EncodeChar c =
      [UInt8.ofNat (0xC0 + c.toNat / 64), UInt8.ofNat (0x80 + c.toNat % 64)] := by
  have hval : c.val.toNat = c.toNat := rfl
  simp only [String.utf8EncodeChar, hval]
  rw [if_neg (by omega), if_pos (by omega), Nat.mod_eq_of_lt (show c.toNat / 64 < 0x20 by omega),
    Nat.add_comm _ 0xc0, Nat.add_comm _ 0x80]

theorem encodeChar_three (hmin : 0x800 ≤ c.toNat) (hmax : c.toNat < 0x10000) :
    String.utf8EncodeChar c = [UInt8.ofNat (0xE0 + c.toNat / 4096),
      UInt8.ofNat (0x80 + c.toNat / 64 % 64), UInt8.ofNat (0x80 + c.toNat % 64)] := by
  have hval : c.val.toNat = c.toNat := rfl
  simp only [String.utf8EncodeChar, hval]
  rw [if_neg (by omega), if_neg (by omega), if_pos (by omega),
    Nat.mod_eq_of_lt (show c.toNat / 4096 < 0x10 by omega),
    Nat.add_comm _ 0xe0, Nat.add_comm _ 0x80, Nat.add_comm _ 0x80]

theorem toNat_lt (c : Char) : c.toNat < 0x110000 := by
  obtain h | ⟨_, h⟩ := c.valid
  · exact Nat.lt_trans h (by decide)
  · exact h

theorem encodeChar_four (hmin : 0x10000 ≤ c.toNat) :
    String.utf8EncodeChar c = [UInt8.ofNat (0xF0 + c.toNat / 262144),
      UInt8.ofNat (0x80 + c.toNat / 4096 % 64), UInt8.ofNat (0x80 + c.toNat / 64 % 64),
      UInt8.ofNat (0x80 + c.toNat % 64)] := by
  have hval : c.val.toNat = c.toNat := rfl
  have hlt := toNat_lt c
  simp only [String.utf8EncodeChar, hval]
  rw [if_neg (by omega), if_neg (by omega), if_neg (by omega),
    Nat.mod_eq_of_lt (show c.toNat / 262144 < 0x08 by omega),
    Nat.add_comm _ 0xf0, Nat.add_comm _ 0x80, Nat.add_comm _ 0x80, Nat.add_comm _ 0x80]

/-- A scalar value is no surrogate. -/
theorem toNat_not_surrogate (c : Char) : c.toNat < 0xD800 ∨ 0xDFFF < c.toNat := by
  obtain h | ⟨h, _⟩ := c.valid
  · exact Or.inl h
  · exact Or.inr h

theorem toNat_ofNat {n : Nat} (h : n < 0xD800 ∨ 0xDFFF < n) (hmax : n < 0x110000) :
    (Char.ofNat n).toNat = n := by
  have hvalid : n.isValidChar := by
    obtain h | h := h
    · exact Or.inl h
    · exact Or.inr ⟨h, hmax⟩
  rw [Char.ofNat, dif_pos hvalid]
  rfl

end Lengths

/-- A text of bytes below 0x80 is its own list of scalar values. -/
theorem encode_ascii {cs : List Char} (h : ∀ c ∈ cs, c.toNat < 0x80) :
    encode cs = cs.map fun c => UInt8.ofNat c.toNat := by
  induction cs with
  | nil => rfl
  | cons c cs ih =>
    rw [encode_cons, encodeChar_one (h c (by simp)), ih fun d hd => h d (by simp [hd])]
    rfl

/-- No byte of a wide character is below 0x80. -/
theorem encodeChar_wide {c : Char} (h : 0x80 ≤ c.toNat) :
    ∀ b ∈ String.utf8EncodeChar c, 0x80 ≤ b.toNat := by
  have hbyte (n : Nat) (hn : n < 256) : (UInt8.ofNat n).toNat = n := Nat.mod_eq_of_lt hn
  have hlt := toNat_lt c
  obtain htwo | htwo := Nat.lt_or_ge c.toNat 0x800
  · rw [encodeChar_two h htwo]
    simp only [List.mem_cons, List.not_mem_nil, or_false]
    rintro b (rfl | rfl) <;> rw [hbyte _ (by omega)] <;> omega
  obtain hthree | hthree := Nat.lt_or_ge c.toNat 0x10000
  · rw [encodeChar_three htwo hthree]
    simp only [List.mem_cons, List.not_mem_nil, or_false]
    rintro b (rfl | rfl | rfl) <;> rw [hbyte _ (by omega)] <;> omega
  · rw [encodeChar_four hthree]
    simp only [List.mem_cons, List.not_mem_nil, or_false]
    rintro b (rfl | rfl | rfl | rfl) <;> rw [hbyte _ (by omega)] <;> omega

/-- A run of wide bytes ends between two characters. -/
theorem takeWhile_encode (cs : List Char) :
    (encode cs).takeWhile (fun b => 0x80 ≤ b.toNat) =
        encode (cs.takeWhile fun c => 0x80 ≤ c.toNat) ∧
      (encode cs).dropWhile (fun b => 0x80 ≤ b.toNat) =
        encode (cs.dropWhile fun c => 0x80 ≤ c.toNat) := by
  induction cs with
  | nil => exact ⟨rfl, rfl⟩
  | cons c cs ih =>
    by_cases h : 0x80 ≤ c.toNat
    · have hall : ∀ b ∈ String.utf8EncodeChar c, decide (0x80 ≤ b.toNat) = true :=
        fun b hb => decide_eq_true (encodeChar_wide h b hb)
      rw [encode_cons, List.takeWhile_append_of_pos hall, List.dropWhile_append_of_pos hall,
        ih.1, ih.2]
      simp [h]
    · rw [encode_cons, encodeChar_one (Nat.lt_of_not_le h)]
      have hbyte : (UInt8.ofNat c.toNat).toNat = c.toNat := Nat.mod_eq_of_lt (by omega)
      simp [h, hbyte, encodeChar_one (Nat.lt_of_not_le h)]

end Utf8
