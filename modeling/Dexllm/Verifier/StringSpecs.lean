import Dexllm.Verifier.Strings
import Mathlib.Data.List.Lex

/-!
What the string routines do on a verified string: they stay before its
terminator, the comparator orders the UTF-16 units, and an accepted name or
descriptor has the shape its readers rely on.
-/

namespace Dexllm

open Guarded Bytes Leb128 Mutf8

/-- A byte that may stand in a member name or a class name. -/
def MemberByte (b : UInt8) : Prop := 0x80 ≤ b.toNat ∨ memberValidLowAscii b.toNat = true

/-- What `IsValidMemberName` accepts: member bytes, or a name in angle brackets
such as `<init>`. -/
def IsMemberName (bs : List UInt8) : Prop :=
  bs ≠ [] ∧ ((∀ b ∈ bs, MemberByte b) ∨
    ∃ mid, bs = 0x3c :: (mid ++ [0x3e]) ∧ ∀ b ∈ mid, MemberByte b)

/-- A class name: member bytes and separators. -/
def IsClassName (bs : List UInt8) : Prop := ∀ b ∈ bs, MemberByte b ∨ b = 0x2f

/-- What `IsValidDescriptor` accepts: dimensions, then a primitive letter or a
class name between `L` and `;`. -/
def IsDescriptor (bs : List UInt8) : Prop :=
  ∃ array core, bs = List.replicate array 0x5b ++ core ∧
    ((∃ c : UInt8, core = [c] ∧ c.toNat ∈ [0x42, 0x43, 0x44, 0x46, 0x49, 0x4a, 0x53, 0x5a, 0x56]) ∨
      ∃ name, core = 0x4c :: (name ++ [0x3b]) ∧ IsClassName name)

theorem leadBit (b : UInt8) :
    (b.toNat &&& 0x80 = 0 ↔ b.toNat < 0x80) ∧
      (0xC0 ≤ b.toNat → b.toNat < 0xE0 → b.toNat &&& 0x20 = 0) ∧
      (0xE0 ≤ b.toNat → b.toNat &&& 0x20 ≠ 0) ∧
      (0xE0 ≤ b.toNat → b.toNat < 0xF0 → b.toNat &&& 0x10 = 0) := by
  have hbytes : ∀ n < 256, (n &&& 0x80 = 0 ↔ n < 0x80) ∧
      (0xC0 ≤ n → n < 0xE0 → n &&& 0x20 = 0) ∧ (0xE0 ≤ n → n &&& 0x20 ≠ 0) ∧
      (0xE0 ≤ n → n < 0xF0 → n &&& 0x10 = 0) := by
    set_option maxRecDepth 8000 in decide
  exact hbytes b.toNat b.toNat_lt

/-- The decoder reads back one canonical unit. -/
theorem getUtf16FromUtf8_append {u : Nat} {cs : List UInt8} (h : CodeUnit u cs) (s : Memory) :
    getUtf16FromUtf8 (cs ++ s) = .ok (u, s) := by
  cases h with
  | one hpos hlt =>
    rename_i a
    have ha := (leadBit a).1.mpr hlt
    simp [getUtf16FromUtf8, deref, ha, pure, Except.pure]
  | two hlow hhigh htail hcanon =>
    rename_i a b
    have ha : a.toNat &&& 0x80 ≠ 0 := fun h => absurd ((leadBit a).1.mp h) (by omega)
    have ha' := (leadBit a).2.1 hlow hhigh
    simp [getUtf16FromUtf8, deref, ha, ha', pure, Except.pure]
  | three hlow hhigh htail htail' hcanon =>
    rename_i a b c
    have ha : a.toNat &&& 0x80 ≠ 0 := fun h => absurd ((leadBit a).1.mp h) (by omega)
    have ha' := (leadBit a).2.2.1 hlow
    have ha'' := (leadBit a).2.2.2 hlow hhigh
    simp [getUtf16FromUtf8, deref, ha, ha', ha'', pure, Except.pure]

/-- The comparator compares the two unit strings lexicographically. -/
theorem compareFrom_spelled {us vs : List Nat} {bs cs : List UInt8} (hbs : Spelling us bs)
    (hcs : Spelling vs cs) (r r' : Memory) (fuel : Nat) (hfuel : us.length < fuel) :
    ∃ n, compareFrom fuel (bs ++ 0 :: r) (cs ++ 0 :: r') = .ok n ∧ (n < 0 ↔ us < vs) ∧
      (n = 0 ↔ us = vs) := by
  induction hbs generalizing vs cs fuel with
  | nil =>
    obtain ⟨fuel, rfl⟩ : ∃ k, fuel = k + 1 := ⟨fuel - 1, by simp at hfuel; omega⟩
    cases hcs with
    | nil => exact ⟨0, by simp [compareFrom, deref, pure, Except.pure], by simp, by simp⟩
    | cons hunit hrest =>
      obtain ⟨c, ds, rfl, hc, _⟩ := hunit.head
      refine ⟨-1, ?_, by simp, by simp⟩
      simp [compareFrom, deref, pure, Except.pure, Nat.ne_of_gt hc]
  | cons hunit hrest ih =>
    rename_i u us es bs
    obtain ⟨fuel, rfl⟩ : ∃ k, fuel = k + 1 := ⟨fuel - 1, by simp at hfuel; omega⟩
    obtain ⟨c, ds, hes, hc, _⟩ := hunit.head
    cases hcs with
    | nil =>
      refine ⟨1, ?_, by simp, by simp⟩
      simp [compareFrom, deref, hes, pure, Except.pure, Nat.ne_of_gt hc]
    | cons hunit' hrest' =>
      rename_i w ws fs cs
      obtain ⟨d, ds', hfs, hd, _⟩ := hunit'.head
      have hget := getUtf16FromUtf8_append hunit (bs ++ 0 :: r)
      have hget' := getUtf16FromUtf8_append hunit' (cs ++ 0 :: r')
      have hu := hunit.lt
      have hw := hunit'.lt
      have hstep : compareFrom (fuel + 1) (es ++ bs ++ 0 :: r) (fs ++ cs ++ 0 :: r') =
          if u = w then compareFrom fuel (bs ++ 0 :: r) (cs ++ 0 :: r')
          else .ok ((u : Int) - w) := by
        rw [List.append_assoc, List.append_assoc]
        simp only [compareFrom, hget, hget', bind_ok]
        rw [hes, hfs]
        have hlead : getLeadingUtf16Char u = u := Nat.mod_eq_of_lt hu
        have hlead' : getLeadingUtf16Char w = w := Nat.mod_eq_of_lt hw
        simp only [List.cons_append, deref, bind_ok, Nat.ne_of_gt hc, Nat.ne_of_gt hd, if_false,
          hlead, hlead', pure, Except.pure]
        by_cases huw : u = w <;> simp [huw]
      rw [hstep]
      by_cases huw : u = w
      · subst huw
        have hlt : us.length < fuel := by simp at hfuel; omega
        obtain ⟨n, hn, hiff, hzero⟩ := ih hrest' fuel hlt
        refine ⟨n, by simpa using hn, ?_, ?_⟩
        · rw [hiff, List.cons_lt_cons_iff]
          simp
        · rw [hzero, List.cons_inj_right]
      · refine ⟨(u : Int) - w, by simp [huw], ?_, ?_⟩
        · rw [List.cons_lt_cons_iff]
          simp only [huw, false_and, or_false]
          omega
        · rw [List.cons_eq_cons]
          constructor
          · intro h
            omega
          · exact fun h => absurd h.1 huw

theorem compare_spelled {us vs : List Nat} {s1 s2 : Memory} (h1 : Spelled us s1)
    (h2 : Spelled vs s2) :
    ∃ n, compareModifiedUtf8ToModifiedUtf8AsUtf16CodePointValues s1 s2 = .ok n ∧
      (n < 0 ↔ us < vs) ∧ (n = 0 ↔ us = vs) := by
  obtain ⟨bs, r, hbs, rfl⟩ := h1
  obtain ⟨cs, r', hcs, rfl⟩ := h2
  apply compareFrom_spelled hbs hcs
  have hlen := hbs.length_le
  simp only [List.length_append, List.length_cons]
  omega

/-- One valid name character is one unit that is no surrogate or a surrogate
pair, spelled with member bytes. -/
theorem wp_isValidPartOfMemberNameUtf8 {u : Nat} {us : List Nat} {cs bs : List UInt8}
    (hunit : CodeUnit u cs) (hrest : Spelling us bs) (r : Memory) :
    wp (isValidPartOfMemberNameUtf8 (cs ++ (bs ++ 0 :: r))) fun result =>
      result.1 = true → ∃ ds us' bs', cs ++ bs = ds ++ bs' ∧ result.2 = bs' ++ 0 :: r ∧
        Spelling us' bs' ∧ us'.length ≤ us.length ∧ (Paired us' → Paired (u :: us)) ∧
        ∀ b ∈ ds, MemberByte b := by
  obtain ⟨c, ds, hcs, hpos, hascii, hwide⟩ := hunit.head
  by_cases hc : c.toNat < 0x80
  · obtain ⟨rfl, rfl⟩ := hascii hc
    subst hcs
    have hc' : c.toNat ≤ 127 := by omega
    simp only [isValidPartOfMemberNameUtf8, List.cons_append, List.nil_append, deref, bind_ok, hc',
      if_true, wp_pure]
    intro hvalid
    refine ⟨[c], us, bs, rfl, rfl, hrest, le_rfl, .unit hpos (.inl (by omega)), ?_⟩
    simpa [MemberByte] using Or.inr hvalid
  · have hc' : ¬c.toNat ≤ 127 := by omega
    have hmember : ∀ b ∈ cs, MemberByte b := fun b hb => .inl (hwide (by omega) b hb)
    have hslow : isValidPartOfMemberNameUtf8 (cs ++ (bs ++ 0 :: r)) =
        isValidPartOfMemberNameUtf8Slow (cs ++ (bs ++ 0 :: r)) := by
      simp only [isValidPartOfMemberNameUtf8, hcs, List.cons_append, deref, bind_ok, hc', if_false]
    have htrailing : getTrailingUtf16Char u = 0 := Nat.div_eq_of_lt hunit.lt
    have hone (hpos : 0 < u) (hplain : u < 0xD800 ∨ 0xDFFF < u) :
        ∃ ds us' bs', cs ++ bs = ds ++ bs' ∧ bs ++ 0 :: r = bs' ++ 0 :: r ∧ Spelling us' bs' ∧
          us'.length ≤ us.length ∧ (Paired us' → Paired (u :: us)) ∧ ∀ b ∈ ds, MemberByte b :=
      ⟨cs, us, bs, rfl, rfl, hrest, le_rfl, .unit hpos hplain, hmember⟩
    have hlead : getLeadingUtf16Char u = u := Nat.mod_eq_of_lt hunit.lt
    have hpage : u >>> 8 = u / 256 := Nat.shiftRight_eq_div_pow u 8
    rw [hslow]
    simp only [isValidPartOfMemberNameUtf8Slow, getUtf16FromUtf8_append hunit, bind_ok, htrailing,
      hlead, hpage, ne_eq, not_true_eq_false, if_false]
    split
    · simp only [wp_pure, decide_eq_true_eq]
      exact fun hlatin => hone (by omega) (.inl (by omega))
    split
    · rename_i hhigh
      cases hrest with
      | nil =>
        -- the high surrogate is the last unit: the next read is the terminator
        simp [getUtf16FromUtf8, deref, getLeadingUtf16Char, pure, Except.pure]
      | cons hunit2 hrest2 =>
        rename_i w ws es bs
        have hlead2 : getLeadingUtf16Char w = w := Nat.mod_eq_of_lt hunit2.lt
        rw [List.append_assoc, getUtf16FromUtf8_append hunit2]
        simp only [bind_ok, wp_pure, decide_eq_true_eq, hlead2]
        rintro ⟨_, hlow, hlow'⟩
        refine ⟨cs ++ es, ws, bs, by simp, rfl, hrest2, by simp,
          .pair ⟨by omega, by omega⟩ ⟨hlow, hlow'⟩, ?_⟩
        intro b hb
        rcases List.mem_append.mp hb with hb | hb
        · exact hmember b hb
        · obtain ⟨d, ds2, hes, _, hascii2, hwide2⟩ := hunit2.head
          refine .inl (hwide2 ?_ b hb)
          by_contra hd
          have hw := (hascii2 (by omega)).1
          omega
    split
    · simp
    have hplain : u < 0xD800 ∨ 0xDFFF < u := by omega
    have hpos : 0 < u := by omega
    split
    · split
      · exact fun _ => hone hpos hplain
      split
      · exact fun _ => hone hpos hplain
      split
      · simp
      · exact fun _ => hone hpos hplain
    · exact fun _ => hone hpos hplain

/-- The loop of `IsValidMemberName` accepts member bytes, closed by `>` inside
angle brackets. -/
theorem wp_isValidMemberNameFrom (angle : Bool) {us : List Nat} {bs : List UInt8}
    (hbs : Spelling us bs) (r : Memory) (fuel : Nat) (hfuel : us.length < fuel) :
    wp (isValidMemberNameFrom angle fuel (bs ++ 0 :: r)) fun ok => ok = true → Paired us ∧
      ∃ mid, bs = mid ++ (if angle then [0x3e] else []) ∧ ∀ b ∈ mid, MemberByte b := by
  induction fuel generalizing us bs with
  | zero => omega
  | succ fuel ih =>
    cases hbs with
    | nil =>
      simp only [isValidMemberNameFrom, List.nil_append, deref, bind_ok]
      cases angle <;> simp [Paired.nil]
    | cons hunit hrest =>
      rename_i u us cs bs
      obtain ⟨c, ds, hcs, hpos, hascii, _⟩ := hunit.head
      have hc : c.toNat ≠ 0 := by omega
      have hderef : deref (cs ++ bs ++ 0 :: r) = .ok (c.toNat, ds ++ bs ++ 0 :: r) := by
        rw [hcs]
        rfl
      simp only [isValidMemberNameFrom, hderef, bind_ok, hc, if_false]
      split
      · rename_i hclose
        obtain ⟨rfl, rfl⟩ := hascii (by omega)
        have hgt : c = 0x3e := UInt8.toNat_inj.mp hclose
        subst hcs hgt
        cases angle with
        | false => simp
        | true =>
          have hnext : bs ++ 0 :: r ≠ [] := by simp
          simp only [if_true, List.nil_append]
          cases hrest with
          | nil =>
            have hpaired : Paired [UInt8.toNat 0x3e] := .unit hpos (.inl (by decide)) .nil
            simpa [deref] using hpaired
          | cons hunit2 hrest2 =>
            obtain ⟨d, ds2, hes, hd, _⟩ := hunit2.head
            simp only [hes, List.cons_append, deref, bind_ok, wp_pure, decide_eq_true_eq]
            omega
      · rw [List.append_assoc, wp_bind]
        refine wp_mono (wp_isValidPartOfMemberNameUtf8 hunit hrest r) fun result hresult => ?_
        rw [wp_ite]
        refine ⟨fun hok => ?_, fun _ => by simp⟩
        obtain ⟨ds, us', bs', hsplit, hs, hspell, hlen, hpaired, hmember⟩ := hresult hok
        rw [hs]
        refine wp_mono (ih hspell (by simp at hfuel; omega)) fun ok hok hvalid => ?_
        obtain ⟨htail, mid, hmid, hall⟩ := hok hvalid
        refine ⟨hpaired htail, ds ++ mid, ?_, ?_⟩
        · rw [hsplit, hmid, List.append_assoc]
        · intro b hb
          rcases List.mem_append.mp hb with hb | hb
          · exact hmember b hb
          · exact hall b hb

/-- `IsValidMemberName` stays in a verified string and accepts only member
names without lone surrogates. -/
theorem wp_isValidMemberName {us : List Nat} {bs : List UInt8} (hbs : Spelling us bs)
    (r : Memory) :
    wp (isValidMemberName (bs ++ 0 :: r)) fun ok => ok = true →
      Paired us ∧ IsMemberName bs := by
  have hlen := hbs.length_le
  cases hbs with
  | nil => simp [isValidMemberName, deref]
  | cons hunit hrest =>
    rename_i u us cs bs
    obtain ⟨c, ds, hcs, hpos, hascii, _⟩ := hunit.head
    have hc : c.toNat ≠ 0 := by omega
    have hne : cs ++ bs ≠ [] := by simp [hcs]
    have hderef : deref (cs ++ bs ++ 0 :: r) = .ok (c.toNat, ds ++ bs ++ 0 :: r) := by
      rw [hcs]
      rfl
    simp only [isValidMemberName, hderef, bind_ok, hc, if_false]
    split
    · rename_i hopen
      obtain ⟨rfl, rfl⟩ := hascii (by omega)
      have hlt : c = 0x3c := UInt8.toNat_inj.mp hopen
      subst hcs hlt
      have hrestlen := hrest.length_le
      refine wp_mono (wp_isValidMemberNameFrom true hrest r _ (by simp; omega)) fun ok hok hvalid => ?_
      obtain ⟨htail, mid, hmid, hall⟩ := hok hvalid
      exact ⟨.unit hpos (.inl (by decide)) htail, hne, .inr ⟨mid, by simpa using hmid, hall⟩⟩
    · refine wp_mono (wp_isValidMemberNameFrom false (.cons hunit hrest) r _ ?_)
        fun ok hok hvalid => ?_
      · simp only [List.length_append, List.length_cons] at hlen ⊢
        omega
      · obtain ⟨hpaired, mid, hmid, hall⟩ := hok hvalid
        simp only [Bool.false_eq_true, if_false, List.append_nil] at hmid
        exact ⟨hpaired, hne, .inl (hmid ▸ hall)⟩

/-- The class name loop accepts a class name closed by `;`. -/
theorem wp_isValidClassNameFrom {us : List Nat} {bs : List UInt8} (hbs : Spelling us bs)
    (r : Memory) (fuel : Nat) (sepOrFirst : Bool) (hfuel : us.length < fuel) :
    wp (isValidClassNameFrom fuel sepOrFirst (bs ++ 0 :: r)) fun ok => ok = true → Paired us ∧
      ∃ name, bs = name ++ [0x3b] ∧ IsClassName name := by
  induction fuel generalizing us bs sepOrFirst with
  | zero => omega
  | succ fuel ih =>
    cases hbs with
    | nil => simp [isValidClassNameFrom, deref]
    | cons hunit hrest =>
      rename_i u us cs bs
      obtain ⟨c, ds, hcs, hpos, hascii, _⟩ := hunit.head
      have hc : c.toNat ≠ 0 := by omega
      have hfuel' : us.length < fuel := by simp at hfuel; omega
      have hderef : deref (cs ++ bs ++ 0 :: r) = .ok (c.toNat, ds ++ bs ++ 0 :: r) := by
        rw [hcs]
        rfl
      simp only [isValidClassNameFrom, hderef, bind_ok, hc, if_false]
      split
      · rename_i hclose
        obtain ⟨rfl, rfl⟩ := hascii (by omega)
        have hsemi : c = 0x3b := UInt8.toNat_inj.mp hclose
        subst hcs hsemi
        split
        · cases hrest with
          | nil =>
            have hpaired : Paired [UInt8.toNat 0x3b] := .unit hpos (.inl (by decide)) .nil
            simpa [deref, IsClassName] using hpaired
          | cons hunit2 hrest2 =>
            obtain ⟨d, ds2, hes, hd, _⟩ := hunit2.head
            simp only [hes, List.nil_append, List.cons_append, deref, bind_ok, wp_pure,
              decide_eq_true_eq]
            omega
        · simp
      split
      · rename_i hsep
        obtain ⟨rfl, rfl⟩ := hascii (by omega)
        have hslash : c = 0x2f := UInt8.toNat_inj.mp hsep
        subst hcs hslash
        split
        · simp
        · refine wp_mono (ih hrest true hfuel') fun ok hok hvalid => ?_
          obtain ⟨htail, name, hname, hall⟩ := hok hvalid
          refine ⟨.unit hpos (.inl (by decide)) htail, 0x2f :: name, by simp [hname], ?_⟩
          intro b hb
          rcases List.mem_cons.mp hb with rfl | hb
          · exact .inr rfl
          · exact hall b hb
      split
      · simp
      · rw [List.append_assoc, wp_bind]
        refine wp_mono (wp_isValidPartOfMemberNameUtf8 hunit hrest r) fun result hresult => ?_
        rw [wp_ite]
        refine ⟨fun hok => ?_, fun _ => by simp⟩
        obtain ⟨ds, us', bs', hsplit, hs, hspell, hlen, hpaired, hmember⟩ := hresult hok
        rw [hs]
        refine wp_mono (ih hspell false (by omega)) fun ok hok hvalid => ?_
        obtain ⟨htail, name, hname, hall⟩ := hok hvalid
        refine ⟨hpaired htail, ds ++ name, ?_, ?_⟩
        · rw [hsplit, hname, List.append_assoc]
        · intro b hb
          rcases List.mem_append.mp hb with hb | hb
          · exact .inl (hmember b hb)
          · exact hall b hb

/-- Skipping dimensions stops at the first byte that is not `[`. -/
theorem skipDimensions_spelled {us : List Nat} {bs : List UInt8} (hbs : Spelling us bs)
    (r : Memory) (array : Nat) :
    ∃ k us' bs', skipDimensions (bs ++ 0 :: r) array = .ok (array + k, bs' ++ 0 :: r) ∧
      bs = List.replicate k 0x5b ++ bs' ∧ Spelling us' bs' ∧ (Paired us' → Paired us) := by
  induction hbs generalizing array with
  | nil => exact ⟨0, [], [], by simp [skipDimensions], rfl, .nil, id⟩
  | cons hunit hrest ih =>
    rename_i u us cs bs
    obtain ⟨c, ds, hcs, hpos, hascii, _⟩ := hunit.head
    by_cases hopen : c.toNat = 0x5b
    · obtain ⟨hu, rfl⟩ := hascii (by omega)
      have hc : c = 0x5b := UInt8.toNat_inj.mp hopen
      obtain ⟨k, us', bs', hskip, hsplit, hspell, hpaired⟩ := ih (array + 1)
      refine ⟨k + 1, us', bs', ?_, ?_, hspell,
        fun htail => .unit (by omega) (.inl (by omega)) (hpaired htail)⟩
      · rw [hcs]
        simp only [List.cons_append, List.nil_append, skipDimensions, hopen, if_true, hskip]
        congr 2
        omega
      · rw [hcs, hc, hsplit, List.replicate_succ]
        rfl
    · refine ⟨0, u :: us, cs ++ bs, ?_, rfl, .cons hunit hrest, id⟩
      rw [hcs]
      simp [skipDimensions, hopen]

/-- `IsValidDescriptor` stays in a verified string and accepts only
descriptors without lone surrogates. -/
theorem wp_isValidDescriptor {us : List Nat} {bs : List UInt8} (hbs : Spelling us bs)
    (r : Memory) :
    wp (isValidDescriptor (bs ++ 0 :: r)) fun ok => ok = true →
      Paired us ∧ IsDescriptor bs := by
  obtain ⟨k, us', bs', hskip, hsplit, hspell, hpaired⟩ := skipDimensions_spelled hbs r 0
  simp only [isValidDescriptor, hskip, bind_ok, wp_ite]
  refine ⟨fun _ => by simp, fun _ => ?_⟩
  cases hspell with
  | nil => simp [deref]
  | cons hunit hrest =>
    rename_i u ws cs es
    obtain ⟨c, ds, hcs, hpos, hascii, _⟩ := hunit.head
    have hderef : deref (cs ++ es ++ 0 :: r) = .ok (c.toNat, ds ++ es ++ 0 :: r) := by
      rw [hcs]
      rfl
    -- a single letter: the next byte must be the terminator
    have hletter : c.toNat ∈ [0x42, 0x43, 0x44, 0x46, 0x49, 0x4a, 0x53, 0x5a, 0x56] →
        wp (do let next ← deref (ds ++ es ++ 0 :: r); pure (decide (next.1 = 0)))
          fun ok => ok = true → Paired us ∧ IsDescriptor bs := by
      intro hmem
      have hlt : c.toNat < 0x80 := by
        revert hmem
        simp only [List.mem_cons, List.not_mem_nil, or_false]
        omega
      obtain ⟨hu, rfl⟩ := hascii hlt
      cases hrest with
      | nil =>
        simp only [List.nil_append, deref, bind_ok, wp_pure, decide_eq_true_eq]
        intro _
        refine ⟨hpaired (.unit (by omega) (.inl (by omega)) .nil), k, [c], ?_, .inl ⟨c, rfl, hmem⟩⟩
        rw [hsplit, hcs]
        rfl
      | cons hunit2 hrest2 =>
        obtain ⟨d, ds2, hes, hd, _⟩ := hunit2.head
        simp only [hes, List.nil_append, List.cons_append, deref, bind_ok, wp_pure,
          decide_eq_true_eq]
        omega
    simp only [hderef, bind_ok]
    split
    · rename_i hmem
      apply hletter
      revert hmem
      simp only [List.mem_cons, List.not_mem_nil, or_false]
      omega
    split
    · rename_i hvoid
      split
      · exact hletter (by simp [hvoid])
      · simp
    split
    · rename_i hclass
      obtain ⟨hu, rfl⟩ := hascii (by omega)
      have hc : c = 0x4c := UInt8.toNat_inj.mp hclass
      have hlen := hrest.length_le
      simp only [List.nil_append]
      refine wp_mono (wp_isValidClassNameFrom hrest r _ true ?_) fun ok hok hvalid => ?_
      · simp only [List.length_append, List.length_cons]
        omega
      · obtain ⟨htail, name, hname, hall⟩ := hok hvalid
        refine ⟨hpaired (.unit (by omega) (.inl (by omega)) htail), k, 0x4c :: (name ++ [0x3b]), ?_,
          .inr ⟨name, rfl, hall⟩⟩
        rw [hsplit, hcs, hc, hname]
        rfl
    · simp

/-- A spelling spells one string of units. -/
theorem spelling_units_unique {us vs : List Nat} {bs : List UInt8} (h : Spelling us bs)
    (h' : Spelling vs bs) : us = vs := by
  induction h generalizing vs with
  | nil =>
    generalize hnil : ([] : List UInt8) = bs at h'
    cases h' with
    | nil => rfl
    | cons hunit' _ =>
      obtain ⟨c, ds, hcs, _⟩ := hunit'.head
      simp [hcs] at hnil
  | cons hunit hrest ih =>
    rename_i u us cs bs
    generalize hall : cs ++ bs = all at h'
    cases h' with
    | nil =>
      obtain ⟨c, ds, hcs, _⟩ := hunit.head
      simp [hcs] at hall
    | cons hunit' hrest' =>
      rename_i w ws ds es
      have hget := getUtf16FromUtf8_append hunit bs
      rw [hall, getUtf16FromUtf8_append hunit' es] at hget
      obtain ⟨rfl, rfl⟩ := Prod.mk.inj (Except.ok.inj hget)
      rw [ih hrest']

theorem spelled_cons {u : Nat} {us : List Nat} {cs : List UInt8} {mem : Memory}
    (hunit : CodeUnit u cs) (h : Spelled us mem) : Spelled (u :: us) (cs ++ mem) := by
  obtain ⟨bs, rest, hbs, rfl⟩ := h
  exact ⟨cs ++ bs, rest, .cons hunit hbs, by simp⟩

/-- Skipping the length at `p` lands after its last byte. -/
theorem skipUleb_drop {mem : Memory} {p value q : Nat} (h : UlebAt mem p value q) :
    skipUleb (mem.drop p) = .ok (mem.drop q) := by
  obtain ⟨n, ⟨hpos, hmore, hlast⟩, _, _, rfl, hq⟩ := h
  have hskip : ∀ i j, i + j + 1 = n →
      skipUleb (mem.drop (p + i)) = .ok (mem.drop (p + n)) := by
    intro i j
    induction j generalizing i with
    | zero =>
      intro hi
      obtain ⟨b, hb, hdrop⟩ := drop_eq_cons (show p + i < mem.length by omega)
      rw [show n - 1 = i by omega, ← hb] at hlast
      simp [hdrop, skipUleb, hlast, show p + i + 1 = p + n by omega]
    | succ j ih =>
      intro hi
      obtain ⟨b, hb, hdrop⟩ := drop_eq_cons (show p + i < mem.length by omega)
      have hcont := hmore i (by omega)
      rw [← hb] at hcont
      simp only [hdrop, skipUleb, ne_eq, hcont, not_false_eq_true, if_true]
      exact ih (i + 1) (by omega)
  exact hskip 0 (n - 1) (by omega)

namespace Verifier

variable {v : Verifier}

/-- `VerifyMutf8` reads before the end of the data range, and what it accepts
is a canonically spelled, terminated string, with its units counted. -/
theorem wp_verifyMutf8From (room p units : Nat) (hunits : units < 2 ^ 32) :
    wp (v.verifyMutf8From room p units) fun total =>
      ∃ us, Spelled us (v.image.drop p) ∧ total = (units + us.length) % 2 ^ 32 := by
  have hend := v.endOfFile_le
  induction room generalizing p units with
  | zero => simp [verifyMutf8From]
  | succ room ih =>
    have hnext : (units + 1) % 2 ^ 32 < 2 ^ 32 := Nat.mod_lt _ (by decide)
    have hcount (us : List Nat) : ((units + 1) % 2 ^ 32 + us.length) % 2 ^ 32 =
        (units + (us.length + 1)) % 2 ^ 32 := by omega
    simp only [verifyMutf8From, wp_bind, wp_failIf, wp_readU1]
    intro hp
    refine ⟨by omega, ?_⟩
    obtain ⟨a, ha, hdrop⟩ := drop_eq_cons (show p < v.image.length by omega)
    rw [← ha, hdrop, wp_ite]
    constructor
    · intro hzero
      have ha0 : a = 0 := UInt8.toNat_inj.mp hzero
      exact ⟨[], ⟨[], _, .nil, by rw [ha0]; rfl⟩, (Nat.mod_eq_of_lt hunits).symm⟩
    intro hnonzero
    rw [wp_ite]
    constructor
    · intro hascii
      refine wp_mono (ih (p + 1) _ hnext) fun _ h => ?_
      obtain ⟨us, hus, rfl⟩ := h
      exact ⟨_, spelled_cons (.one (by omega) hascii) hus, hcount us⟩
    intro hlow
    simp only [wp_ite, wp_fail, implies_true, true_and, wp_bind, wp_failIf, wp_readU1, and_true]
    intro hlead
    constructor
    · intro htwo hp1
      refine ⟨by omega, ?_⟩
      obtain ⟨b, hb, hdrop1⟩ := drop_eq_cons (show p + 1 < v.image.length by omega)
      rw [← hb, hdrop1]
      intro htail hcanon
      refine wp_mono (ih (p + 2) _ hnext) fun _ h => ?_
      obtain ⟨us, hus, rfl⟩ := h
      exact ⟨_, spelled_cons (.two (by omega) htwo (by omega) (by omega)) hus, hcount us⟩
    · intro htwo hthree hp1
      refine ⟨by omega, ?_⟩
      obtain ⟨b, hb, hdrop1⟩ := drop_eq_cons (show p + 1 < v.image.length by omega)
      rw [← hb, hdrop1]
      intro htail hp2
      refine ⟨by omega, ?_⟩
      obtain ⟨c, hc, hdrop2⟩ := drop_eq_cons (show p + 1 + 1 < v.image.length by omega)
      rw [← hc, hdrop2]
      intro htail' hcanon
      refine wp_mono (ih (p + 3) _ hnext) fun _ h => ?_
      obtain ⟨us, hus, rfl⟩ := h
      exact ⟨_, spelled_cons (.three (by omega) hthree (by omega) (by omega) (by omega)) hus, hcount us⟩

/-- The string data at `off` is a length and the terminated string `us`. -/
def StringDataOk (v : Verifier) (off : Nat) (us : List Nat) : Prop :=
  off ≠ 0 ∧ ∃ utf16Len q, UlebAt v.image (v.offsetToPtr off) utf16Len q ∧
    Spelled us (v.image.drop q)

theorem wp_verifyStringData {off : Nat} :
    wp (v.verifyStringData off) fun _ => ∃ us, v.StringDataOk off us := by
  simp only [verifyStringData, wp_bind, wp_failIf]
  intro hoff
  apply wp_readUlebOrFail
  intro utf16Len p huleb _ _
  simp only [verifyMutf8, wp_bind, wp_failIf]
  refine wp_mono (wp_verifyMutf8From _ p 0 (by decide)) fun _ h _ => ?_
  obtain ⟨us, hus, _⟩ := h
  exact ⟨us, by omega, utf16Len, p, huleb, hus⟩

/-- String `idx` of a verified dex is `us`. -/
def StringAt (v : Verifier) (idx : Nat) (us : List Nat) : Prop :=
  ∃ s, v.stringContent idx = .ok s ∧ Spelled us s

/-- Type `idx` of a verified dex has the descriptor `us`. -/
def TypeAt (v : Verifier) (idx : Nat) (us : List Nat) : Prop :=
  ∃ s, v.typeDesc idx = .ok s ∧ Spelled us s

theorem wp_verifyTypeDescriptor {idx : Nat} {err : String} {pred : Nat → Bool} {us : List Nat}
    (htype : v.TypeAt idx us) :
    wp (v.verifyTypeDescriptor idx err pred) fun _ => ∃ c t, v.typeDesc idx = .ok (c :: t) ∧
      isValidDescriptor (c :: t) = .ok true ∧ pred c.toNat = true := by
  obtain ⟨s, hs, bs, rest, hbs, rfl⟩ := htype
  obtain ⟨c, t, hct⟩ : ∃ c t, bs ++ 0 :: rest = c :: t := by
    cases bs with
    | nil => exact ⟨0, rest, rfl⟩
    | cons b bs => exact ⟨b, bs ++ 0 :: rest, rfl⟩
  have hdesc := wp_isValidDescriptor hbs rest
  rw [hct] at hs hdesc
  simp only [verifyTypeDescriptor, hs, bind_ok, wp_bind]
  cases hvalid : isValidDescriptor (c :: t) with
  | error e =>
    rw [hvalid] at hdesc
    exact wp_error hdesc
  | ok ok =>
    rw [wp_except_ok, wp_ite]
    refine ⟨fun hok => ?_, fun _ => trivial⟩
    subst hok
    simp only [deref, bind_ok, wp_failIf]
    exact fun hpred => ⟨c, t, rfl, hvalid, by simpa using hpred⟩

end Verifier

end Dexllm
