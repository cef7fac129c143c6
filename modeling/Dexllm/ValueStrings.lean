import Dexllm.CheckModes

/-!
What the lenient pass makes of a string table that is out of order. It accepts it
by the identifier strings alone, and no later check reads another string.
-/

namespace Dexllm

open Guarded Bytes Mutf8

/-- Loops with the same rounds. -/
theorem loop_congr {σ : Type} {n : Nat} {s : σ} {f g : Nat → σ → Run σ}
    (h : ∀ i, i < n → ∀ s, f i s = g i s) : loop n s f = loop n s g := by
  induction n with
  | zero => rfl
  | succ n ih =>
    rw [loop_succ, loop_succ, ih fun i hi => h i (by omega)]
    congr 1
    funext t
    exact h n (by omega) t

theorem forUpTo_congr {n : Nat} {f g : Nat → Run Unit} (h : ∀ i, i < n → f i = g i) :
    forUpTo n f = forUpTo n g := loop_congr fun i hi _ => h i hi

namespace Verifier

variable {v : Verifier} {methodHandleCount : Nat}

/-- The checks of `CheckInterSection` behind the one of the string table. -/
def checkInterIds (v : Verifier) : Run Unit := do
  forUpTo v.header.typeIdsSize v.checkInterTypeId
  forUpTo (v.header.protoIdsSize - 1) v.checkInterProtoId
  forUpTo v.header.fieldIdsSize v.checkInterFieldId
  forUpTo v.header.methodIdsSize v.checkInterMethodId
  v.verifyClassDefs

/-- The identifier strings are ordered by content and so distinct, and only the
first string may be empty. -/
structure StringsAcceptable (v : Verifier) : Prop where
  ordered : ∀ a b us vs, v.IsIdentifier a → v.IsIdentifier b → a < b → v.StringAt a us →
    v.StringAt b vs → us < vs
  distinct : ∀ a b us, v.IsIdentifier a → v.IsIdentifier b → v.StringAt a us → v.StringAt b us →
    a = b
  emptyFirst : ∀ i, i < v.header.stringIdsSize → v.StringAt i [] → i = 0

section Strings

/-- A loop that marks one index in each round marks these and nothing else. -/
private theorem exists_markLoop {n count : Nat} {ident : List Nat}
    {f : Nat → List Nat → Run (List Nat)} (index : Nat → Nat)
    (hf : ∀ i ident, i < count → f i ident = markIdentifier n (index i) ident)
    (hlt : ∀ i, i < count → index i < n) :
    ∃ ident', loop count ident f = .ok ident' ∧
      ∀ x, x ∈ ident' ↔ x ∈ ident ∨ ∃ i, i < count ∧ index i = x := by
  refine exists_loop (fun j ident' => ∀ x, x ∈ ident' ↔ x ∈ ident ∨ ∃ i, i < j ∧ index i = x)
    (by simp) ?_
  intro j ident' hj hinv
  refine ⟨index j :: ident', by rw [hf j ident' hj, markIdentifier, if_pos (hlt j hj)], fun x => ?_⟩
  rw [List.mem_cons, hinv]
  constructor
  · rintro (rfl | hold | ⟨i, hi, rfl⟩)
    · exact Or.inr ⟨j, by omega, rfl⟩
    · exact Or.inl hold
    · exact Or.inr ⟨i, by omega, rfl⟩
  · rintro (hold | ⟨i, hi, rfl⟩)
    · exact Or.inr (Or.inl hold)
    · rcases Nat.lt_succ_iff_lt_or_eq.mp hi with hlt | rfl
      · exact Or.inr (Or.inr ⟨i, hlt, rfl⟩)
      · exact Or.inl rfl

theorem isIdentifier_iff {idx : Nat} : v.IsIdentifier idx ↔
    (((∃ i, i < v.header.typeIdsSize ∧ v.descriptorIdxAt i = idx) ∨
      ∃ i, i < v.header.protoIdsSize ∧ (protoIdAt v.image (v.protoIdAddr i)).shortyIdx = idx) ∨
      ∃ i, i < v.header.fieldIdsSize ∧ (fieldIdAt v.image (v.fieldIdAddr i)).nameIdx = idx) ∨
      ∃ i, i < v.header.methodIdsSize ∧ (methodIdAt v.image (v.methodIdAddr i)).nameIdx = idx := by
  constructor
  · intro hident
    cases hident with
    | type i hi heq => exact Or.inl (Or.inl (Or.inl ⟨i, hi, heq⟩))
    | shorty i hi heq => exact Or.inl (Or.inl (Or.inr ⟨i, hi, heq⟩))
    | field i hi heq => exact Or.inl (Or.inr ⟨i, hi, heq⟩)
    | method i hi heq => exact Or.inr ⟨i, hi, heq⟩
  · rintro (((⟨i, hi, heq⟩ | ⟨i, hi, heq⟩) | ⟨i, hi, heq⟩) | ⟨i, hi, heq⟩)
    · exact .type i hi heq
    · exact .shorty i hi heq
    · exact .field i hi heq
    · exact .method i hi heq

/-- The identifier loops mark the identifiers. -/
theorem exists_identifierStrings (h : v.IntraOk methodHandleCount) :
    ∃ ident, v.identifierStrings = .ok ident ∧ ∀ idx, idx ∈ ident ↔ v.IsIdentifier idx := by
  obtain ⟨types, htypes, hmem1⟩ := @exists_markLoop v.header.stringIdsSize v.header.typeIdsSize []
    (fun i ident => do
      let descriptor ← v.descriptorIdx i
      markIdentifier v.header.stringIdsSize descriptor ident) v.descriptorIdxAt
    (fun i ident hi => by rw [descriptorIdx_eq h.tables hi, bind_ok]) h.type
  obtain ⟨shorties, hshorties, hmem2⟩ := @exists_markLoop v.header.stringIdsSize
    v.header.protoIdsSize types
    (fun i ident => do
      let pr ← v.readProtoId i
      markIdentifier v.header.stringIdsSize pr.shortyIdx ident)
    (fun i => (protoIdAt v.image (v.protoIdAddr i)).shortyIdx)
    (fun i ident hi => by rw [readProtoId_eq h.tables hi, bind_ok])
    fun i hi => (h.proto i hi).shorty
  obtain ⟨fields, hfields, hmem3⟩ := @exists_markLoop v.header.stringIdsSize
    v.header.fieldIdsSize shorties
    (fun i ident => do
      let f ← v.readFieldId i
      markIdentifier v.header.stringIdsSize f.nameIdx ident)
    (fun i => (fieldIdAt v.image (v.fieldIdAddr i)).nameIdx)
    (fun i ident hi => by rw [readFieldId_eq h.tables hi, bind_ok]) fun i hi => (h.field i hi).name
  obtain ⟨methods, hmethods, hmem4⟩ := @exists_markLoop v.header.stringIdsSize
    v.header.methodIdsSize fields
    (fun i ident => do
      let m ← v.readMethodId i
      markIdentifier v.header.stringIdsSize m.nameIdx ident)
    (fun i => (methodIdAt v.image (v.methodIdAddr i)).nameIdx)
    (fun i ident hi => by rw [readMethodId_eq h.tables hi, bind_ok])
    fun i hi => (h.method i hi).name
  refine ⟨methods, ?_, fun idx => ?_⟩
  · simp only [identifierStrings]
    rw [htypes, bind_ok, hshorties, bind_ok, hfields, bind_ok, hmethods]
  · rw [hmem4, hmem3, hmem2, hmem1, isIdentifier_iff]
    simp only [List.not_mem_nil, false_or]

variable {units : Nat → List Nat}
  (hunits : ∀ i, i < v.header.stringIdsSize → v.StringAt i (units i))

include hunits

theorem emptyStringAfterFirst_eq {i : Nat} (hi : i < v.header.stringIdsSize) :
    v.emptyStringAfterFirst i = .ok (decide (i ≠ 0 ∧ units i = [])) := by
  unfold emptyStringAfterFirst
  split
  · rename_i hne
    obtain ⟨s, hs, bs, r, hbs, rfl⟩ := hunits i hi
    cases bs with
    | nil =>
      have hempty : units i = [] := spelling_units_unique hbs .nil
      simp [hs, hne, hempty, deref]
    | cons b bs =>
      have hb := hbs.ne_zero b List.mem_cons_self
      have hfull : units i ≠ [] := by
        intro hempty
        rw [hempty] at hbs
        cases hbs
      have hzero : b.toNat ≠ 0 := fun hz => hb (UInt8.toNat_inj.mp hz)
      simp [hs, hfull, deref, hzero, pure_eq_ok]
  · rename_i hzero
    simp [pure_eq_ok, not_not.mp hzero]

/-- The string loop accepts ordered identifiers when no later string is empty. -/
theorem acceptStringsFrom_eq_true {ident : List Nat} (rounds i : Nat) (prev : Option Nat)
    (hrounds : i + rounds = v.header.stringIdsSize)
    (hordered : ∀ a b, a ∈ ident → b ∈ ident → a < b → b < v.header.stringIdsSize →
      units a < units b)
    (hempty : ∀ k, i ≤ k → k < v.header.stringIdsSize → units k = [] → k = 0)
    (hprev : ∀ j, prev = some j → j ∈ ident ∧ j < i) :
    v.acceptStringsFrom ident rounds i prev = .ok true := by
  induction rounds generalizing i prev with
  | zero => rfl
  | succ rounds ih =>
    have hi : i < v.header.stringIdsSize := by omega
    have hfull : ¬(i ≠ 0 ∧ units i = []) := fun h => h.1 (hempty i (Nat.le_refl i) hi h.2)
    have hrest : ∀ k, i + 1 ≤ k → k < v.header.stringIdsSize → units k = [] → k = 0 :=
      fun k hk => hempty k (by omega)
    simp only [acceptStringsFrom, emptyStringAfterFirst_eq hunits hi, bind_ok,
      decide_eq_false hfull]
    rw [if_neg (by simp)]
    by_cases hident : i ∈ ident
    · rw [if_neg (not_not.mpr hident)]
      have hnext : ∀ j, some i = some j → j ∈ ident ∧ j < i + 1 := by
        intro j hj
        obtain rfl := Option.some.inj hj
        exact ⟨hident, by omega⟩
      cases prev with
      | none => exact ih (i + 1) _ (by omega) hrest hnext
      | some j =>
        obtain ⟨hj, hji⟩ := hprev j rfl
        have hjlt : j < v.header.stringIdsSize := by omega
        obtain ⟨n, hn, hiff⟩ := compareStrings_eq hunits hjlt hi
        have hneg := hiff.mpr (hordered j i hj hident hji hi)
        simp only [hn, bind_ok]
        rw [if_neg (by omega)]
        exact ih (i + 1) _ (by omega) hrest hnext
    · rw [if_pos hident]
      refine ih (i + 1) _ (by omega) hrest fun j hj => ?_
      obtain ⟨hmem, hlt⟩ := hprev j hj
      exact ⟨hmem, by omega⟩

/-- What it accepts has no later string empty. -/
theorem nonempty_of_acceptStringsFrom {ident : List Nat} (rounds i : Nat) (prev : Option Nat)
    (hrounds : i + rounds = v.header.stringIdsSize)
    (h : v.acceptStringsFrom ident rounds i prev = .ok true) :
    ∀ k, i ≤ k → k < v.header.stringIdsSize → units k = [] → k = 0 := by
  induction rounds generalizing i prev with
  | zero =>
    intro k hk hlt
    omega
  | succ rounds ih =>
    have hi : i < v.header.stringIdsSize := by omega
    simp only [acceptStringsFrom, emptyStringAfterFirst_eq hunits hi, bind_ok] at h
    split at h
    · cases h
    · rename_i hfull
      have hstep : (∃ prev', v.acceptStringsFrom ident rounds (i + 1) prev' = .ok true) := by
        split at h
        · exact ⟨_, h⟩
        · split at h
          · exact ⟨_, h⟩
          · obtain ⟨order, -, h⟩ := bind_eq_ok.mp h
            split at h
            · cases h
            · exact ⟨_, h⟩
      obtain ⟨prev', hstep⟩ := hstep
      intro k hk hlt hempty
      rcases Nat.eq_or_lt_of_le hk with rfl | hlater
      · by_contra hne
        exact hfull (decide_eq_true ⟨hne, hempty⟩)
      · exact ih (i + 1) prev' (by omega) hstep k hlater hlt hempty

/-- A lenient pass counts the pairs that are not strictly increasing. -/
theorem exists_countOutOfOrder (hlenient : v.checkInsns = false) :
    ∃ outOfOrder, v.countOutOfOrder = .ok outOfOrder ∧
      (outOfOrder = 0 ↔ ∀ i, i + 1 < v.header.stringIdsSize → units i < units (i + 1)) := by
  obtain ⟨outOfOrder, hrun, hiff⟩ := exists_loop (n := v.header.stringIdsSize - 1) (s := 0)
    (f := fun i outOfOrder => do
      let order ← v.compareStrings i (i + 1)
      if 0 ≤ order then do
        failIf (v.checkInsns = true) "Out-of-order string_ids"
        pure (outOfOrder + 1)
      else pure outOfOrder)
    (fun j outOfOrder => outOfOrder = 0 ↔ ∀ i, i < j → units i < units (i + 1)) (by simp) (by
      intro j outOfOrder hj hinv
      obtain ⟨n, hn, hiff⟩ := compareStrings_eq hunits (show j < v.header.stringIdsSize by omega)
        (show j + 1 < v.header.stringIdsSize by omega)
      have hpass : failIf (v.checkInsns = true) "Out-of-order string_ids" = .ok () :=
        failIf_eq_ok.mpr (by simp [hlenient])
      simp only [hn, bind_ok, hpass]
      split
      · rename_i horder
        refine ⟨_, rfl, ?_⟩
        have hnot : ¬units j < units (j + 1) := fun hlt => by
          have := hiff.mpr hlt
          omega
        simp only [Nat.add_eq_zero_iff, one_ne_zero, and_false, false_iff, not_forall]
        exact ⟨j, by omega, hnot⟩
      · rename_i horder
        refine ⟨_, rfl, hinv.trans ?_⟩
        have hlt := hiff.mp (by omega)
        constructor
        · intro hall i hi
          rcases Nat.lt_succ_iff_lt_or_eq.mp hi with h | rfl
          · exact hall i h
          · exact hlt
        · exact fun hall i hi => hall i (by omega))
  refine ⟨outOfOrder, hrun, hiff.trans ?_⟩
  exact forall_congr' fun i => ⟨fun h hi => h (by omega), fun h hi => h (by omega)⟩

/-- The rule on the strings, on their code units. -/
theorem stringsAcceptable_iff (h : v.IntraOk methodHandleCount) : v.StringsAcceptable ↔
    (∀ a b, v.IsIdentifier a → v.IsIdentifier b → a < b → units a < units b) ∧
      ∀ i, i < v.header.stringIdsSize → units i = [] → i = 0 := by
  have hat {a : Nat} {us : List Nat} (ha : v.IsIdentifier a) (hus : v.StringAt a us) :
      us = units a := hus.unique (hunits a (h.identifier_lt ha))
  constructor
  · intro hstrings
    refine ⟨fun a b ha hb hab => ?_, fun i hi hempty => ?_⟩
    · exact hstrings.ordered a b _ _ ha hb hab (hunits a (h.identifier_lt ha))
        (hunits b (h.identifier_lt hb))
    · exact hstrings.emptyFirst i hi (hempty ▸ hunits i hi)
  · rintro ⟨hordered, hempty⟩
    constructor
    · intro a b us vs ha hb hab hus hvs
      rw [hat ha hus, hat hb hvs]
      exact hordered a b ha hb hab
    · intro a b us ha hb hus hvs
      have hsame : units a = units b := (hat ha hus).symm.trans (hat hb hvs)
      rcases Nat.lt_trichotomy a b with hlt | heq | hgt
      · exact absurd hsame (ne_of_lt (hordered a b ha hb hlt))
      · exact heq
      · exact absurd hsame.symm (ne_of_lt (hordered b a hb ha hgt))
    · exact fun i hi hnil => hempty i hi ((hunits i hi).unique hnil)

end Strings

/-- The code units of all strings. -/
theorem IntraOk.exists_units (h : v.IntraOk methodHandleCount) :
    ∃ units : Nat → List Nat, ∀ i, i < v.header.stringIdsSize → v.StringAt i (units i) := by
  have hchoice : ∀ i, ∃ us, i < v.header.stringIdsSize → v.StringAt i us := by
    intro i
    by_cases hi : i < v.header.stringIdsSize
    · obtain ⟨us, hus⟩ := h.stringAt hi
      exact ⟨us, fun _ => hus⟩
    · exact ⟨[], fun hlt => absurd hlt hi⟩
  exact Classical.axiomOfChoice hchoice

/-- A lenient pass accepts the string table by the identifiers and the empty
string. -/
theorem checkInterStringIds_iff (h : v.IntraOk methodHandleCount)
    (hlenient : v.checkInsns = false) :
    (∃ deviations, v.checkInterStringIds = .ok deviations) ↔ v.StringsAcceptable := by
  obtain ⟨units, hunits⟩ := h.exists_units
  obtain ⟨outOfOrder, hcount, hzero⟩ := exists_countOutOfOrder hunits hlenient
  rw [stringsAcceptable_iff hunits h]
  simp only [checkInterStringIds, hcount, bind_ok]
  split
  · obtain ⟨ident, hident, hmem⟩ := exists_identifierStrings h
    simp only [acceptUnsortedValueStrings, hident, bind_ok]
    constructor
    · rintro ⟨deviations, hrun⟩
      obtain ⟨accepted, haccept, hrun⟩ := bind_eq_ok.mp hrun
      obtain ⟨⟨⟩, htrue, -⟩ := bind_eq_ok.mp hrun
      have htrue : accepted = true := by simpa using failIf_eq_ok.mp htrue
      rw [htrue] at haccept
      have hstart : AcceptedBefore ident units 0 none :=
        ⟨by intro a b _ _ _ hb; omega, by intro a _ ha; omega, by intro j hj; cases hj⟩
      have hordered := post_of_ok (wp_acceptStringsFrom hunits _ 0 none (Nat.zero_add _) hstart)
        haccept rfl
      refine ⟨fun a b ha hb hab => ?_, ?_⟩
      · exact hordered a b ((hmem a).mpr ha) ((hmem b).mpr hb) hab (h.identifier_lt hb)
      · exact fun i => nonempty_of_acceptStringsFrom hunits _ 0 none (Nat.zero_add _) haccept i
          (Nat.zero_le i)
    · rintro ⟨hordered, hempty⟩
      have haccept := acceptStringsFrom_eq_true hunits v.header.stringIdsSize 0 none
        (Nat.zero_add _) (fun a b ha hb hab _ => hordered a b ((hmem a).mp ha) ((hmem b).mp hb) hab)
        (fun k _ => hempty k) (fun j hj => by cases hj)
      rw [haccept]
      exact ⟨_, rfl⟩
  · rename_i hsorted
    have hadjacent := hzero.mp (not_not.mp hsorted)
    have hordered := strict_of_adjacent (r := fun a b => units a < units b) (fun _ _ _ => lt_trans)
      hadjacent
    refine iff_of_true ⟨_, rfl⟩ ⟨fun a b ha hb hab => ?_, fun i hi hempty => ?_⟩
    · exact hordered a b hab (h.identifier_lt hb)
    · by_contra hne
      have hlt := hordered 0 i (by omega) hi
      rw [hempty] at hlt
      exact List.not_lt_nil _ hlt

/-- The same verifier with another table of strings. -/
def withStringIds (v : Verifier) (off : Nat) : Verifier :=
  { v with header := { v.header with stringIdsOff := off } }

section OtherStrings

variable {off : Nat} (h : v.IntraOk methodHandleCount) {methodHandleCount' : Nat}
  (h' : (v.withStringIds off).IntraOk methodHandleCount')
  (hsame : ∀ i, v.IsIdentifier i →
    (v.withStringIds off).stringDataOffAt i = v.stringDataOffAt i)

theorem withStringIds_compareParams : (v.withStringIds off).compareParams = v.compareParams := by
  funext cn pt ct rounds k
  induction rounds generalizing k with
  | zero => rfl
  | succ rounds ih =>
    simp only [compareParams, ih]
    rfl

theorem withStringIds_checkInterProtoId :
    (v.withStringIds off).checkInterProtoId = v.checkInterProtoId := by
  funext i
  simp only [checkInterProtoId, withStringIds_compareParams]
  rfl

theorem withStringIds_isIdentifier {i : Nat} :
    (v.withStringIds off).IsIdentifier i ↔ v.IsIdentifier i := by
  rw [isIdentifier_iff, isIdentifier_iff]
  rfl

include h h' hsame

theorem withStringIds_stringContent {i : Nat} (hi : v.IsIdentifier i) :
    (v.withStringIds off).stringContent i = v.stringContent i := by
  have hlt := h.identifier_lt hi
  simp only [stringContent, stringDataOff_eq h.tables hlt, stringDataOff_eq h'.tables hlt,
    hsame i hi]
  rfl

theorem withStringIds_verifyTypeDescriptor {i : Nat} (hi : i < v.header.typeIdsSize) :
    (v.withStringIds off).verifyTypeDescriptor i = v.verifyTypeDescriptor i := by
  have hcontent := withStringIds_stringContent h h' hsame (.type i hi rfl)
  have hdesc : (v.withStringIds off).typeDesc i = v.typeDesc i := by
    have hread : (v.withStringIds off).descriptorIdx i = v.descriptorIdx i := rfl
    simp only [typeDesc, hread, descriptorIdx_eq h.tables hi, bind_ok, hcontent]
  funext err pred
  simp only [verifyTypeDescriptor, hdesc]

theorem withStringIds_checkInterFieldId {i : Nat} (hi : i < v.header.fieldIdsSize) :
    (v.withStringIds off).checkInterFieldId i = v.checkInterFieldId i := by
  have hf := h.field i hi
  have hread : (v.withStringIds off).readFieldId = v.readFieldId := rfl
  have hname := withStringIds_stringContent h h' hsame (.field i hi rfl)
  simp only [checkInterFieldId, hread, readFieldId_eq h.tables hi, bind_ok,
    withStringIds_verifyTypeDescriptor h h' hsame hf.cls,
    withStringIds_verifyTypeDescriptor h h' hsame hf.type, hname]

theorem withStringIds_checkInterMethodId {i : Nat} (hi : i < v.header.methodIdsSize) :
    (v.withStringIds off).checkInterMethodId i = v.checkInterMethodId i := by
  have hm := h.method i hi
  have hread : (v.withStringIds off).readMethodId = v.readMethodId := rfl
  have hname := withStringIds_stringContent h h' hsame (.method i hi rfl)
  simp only [checkInterMethodId, hread, readMethodId_eq h.tables hi, bind_ok,
    withStringIds_verifyTypeDescriptor h h' hsame hm.cls, hname]

theorem withStringIds_checkInterfaces {cls interfacesOff : Nat}
    (hlist : TypeListOk v.image v.endOfFile v.header.typeIdsSize (v.offsetToPtr interfacesOff)) :
    (v.withStringIds off).checkInterfaces cls interfacesOff =
      v.checkInterfaces cls interfacesOff := by
  have hin := v.endOfFile_le
  have hspan := hlist.span
  have hsize : readU4 v.image (v.offsetToPtr interfacesOff) =
      .ok (u4At v.image (v.offsetToPtr interfacesOff)) := read_of_le (by omega)
  have hptr : (v.withStringIds off).offsetToPtr interfacesOff = v.offsetToPtr interfacesOff := rfl
  have himage : (v.withStringIds off).image = v.image := rfl
  simp only [checkInterfaces, hptr, himage, hsize, bind_ok]
  refine forUpTo_congr fun i hi => ?_
  have hentry : readU2 v.image (v.offsetToPtr interfacesOff + 4 + i * 2) =
      .ok (u2At v.image (v.offsetToPtr interfacesOff + 4 + i * 2)) := read_of_le (by omega)
  simp only [checkInterface, himage, hentry, bind_ok,
    withStringIds_verifyTypeDescriptor h h' hsame (hlist.index i hi)]

theorem withStringIds_verifyClassDef {c : Nat} (hc : c < v.header.classDefsSize)
    (table : List (Nat × Nat)) :
    (v.withStringIds off).verifyClassDef c table = v.verifyClassDef c table := by
  have hcd := h.classDef c hc
  have hread : (v.withStringIds off).readClassDef c = v.readClassDef c := rfl
  have hdefiners : (v.withStringIds off).checkClassDataDefiners = v.checkClassDataDefiners := rfl
  have hheader : (v.withStringIds off).header.typeIdsSize = v.header.typeIdsSize := rfl
  simp only [verifyClassDef, hread, readClassDef_eq h.tables hc, bind_ok, hdefiners, hheader]
  generalize classDefAt v.image (v.classDefAddr c) = cd at hcd ⊢
  rw [withStringIds_verifyTypeDescriptor h h' hsame hcd.cls]
  have hsuper : onlyIf (cd.superclassIdx ≠ kNoIndex)
      ((v.withStringIds off).checkSuperclass c cd.classIdx cd.superclassIdx table) =
      onlyIf (cd.superclassIdx ≠ kNoIndex)
        (v.checkSuperclass c cd.classIdx cd.superclassIdx table) := by
    by_cases hsome : cd.superclassIdx ≠ kNoIndex
    · simp only [checkSuperclass, hheader,
        withStringIds_verifyTypeDescriptor h h' hsame (hcd.superclass hsome)]
    · simp only [onlyIf, if_neg hsome]
  have hinterfaces : onlyIf (cd.interfacesOff ≠ 0)
      ((v.withStringIds off).checkInterfaces cd.classIdx cd.interfacesOff) =
      onlyIf (cd.interfacesOff ≠ 0) (v.checkInterfaces cd.classIdx cd.interfacesOff) := by
    by_cases hsome : cd.interfacesOff ≠ 0
    · rw [withStringIds_checkInterfaces h h' hsame (hcd.interfaces hsome)]
    · simp only [onlyIf, if_neg hsome]
  rw [hsuper, hinterfaces]

/-- The later checks read identifier strings only. -/
theorem withStringIds_checkInterIds :
    (v.withStringIds off).checkInterIds = v.checkInterIds := by
  have htypes : forUpTo v.header.typeIdsSize (v.withStringIds off).checkInterTypeId =
      forUpTo v.header.typeIdsSize v.checkInterTypeId := by
    refine forUpTo_congr fun i hi => ?_
    have hread : (v.withStringIds off).descriptorIdx = v.descriptorIdx := rfl
    simp only [checkInterTypeId, hread, withStringIds_verifyTypeDescriptor h h' hsame hi]
  have hfields : forUpTo v.header.fieldIdsSize (v.withStringIds off).checkInterFieldId =
      forUpTo v.header.fieldIdsSize v.checkInterFieldId :=
    forUpTo_congr fun i hi => withStringIds_checkInterFieldId h h' hsame hi
  have hmethods : forUpTo v.header.methodIdsSize (v.withStringIds off).checkInterMethodId =
      forUpTo v.header.methodIdsSize v.checkInterMethodId :=
    forUpTo_congr fun i hi => withStringIds_checkInterMethodId h h' hsame hi
  have hclasses : (v.withStringIds off).verifyClassDefs = v.verifyClassDefs := by
    have hloop : loop v.header.classDefsSize [] (v.withStringIds off).verifyClassDef =
        loop v.header.classDefsSize [] v.verifyClassDef :=
      loop_congr fun c hc table => withStringIds_verifyClassDef h h' hsame hc table
    exact congrArg (· >>= fun _ => pure ()) hloop
  have hprotos := @withStringIds_checkInterProtoId v off
  unfold checkInterIds
  rw [hprotos, hclasses]
  exact congrArg₂ _ htypes (funext fun _ => congrArg₂ _ rfl (funext fun _ =>
    congrArg₂ _ hfields (funext fun _ => congrArg₂ _ hmethods rfl)))

end OtherStrings

theorem checkInterSection_iff : (∃ deviations, v.checkInterSection = .ok deviations) ↔
    (∃ deviations, v.checkInterStringIds = .ok deviations) ∧ v.checkInterIds = .ok () := by
  have hsection : v.checkInterSection = (do
      let deviations ← v.checkInterStringIds
      v.checkInterIds
      pure deviations) := by
    simp only [checkInterSection, checkInterIds, bind_assoc]
  rw [hsection]
  constructor
  · rintro ⟨deviations, hrun⟩
    obtain ⟨found, hstrings, hrun⟩ := bind_eq_ok.mp hrun
    obtain ⟨⟨⟩, hids, -⟩ := bind_eq_ok.mp hrun
    exact ⟨⟨found, hstrings⟩, hids⟩
  · rintro ⟨⟨deviations, hstrings⟩, hids⟩
    exact ⟨deviations, by rw [hstrings, bind_ok, hids, bind_ok]; rfl⟩

end Verifier

section Lenient

variable {image : Memory} {headerOff methodHandleCount : Nat} {st : VerifyImageState} {v : Verifier}

/-- A dex that passes the intra-section checks and the inter-section checks behind
the string table: the lenient pass accepts it exactly when its identifier strings are
ordered and distinct and no string but the first is empty. An accepted dex stays
accepted under any other table of strings with the same identifiers, as long as
no other string of that table is empty. -/
theorem lenient_accepts_iff (hopen : openVerifier image headerOff true = .ok v)
    (hheader : v.checkHeader = .ok ())
    (hmap : (v.checkMap (st.seed image.length)).1 = .ok methodHandleCount)
    (hintra : v.checkIntraSection methodHandleCount = .ok ())
    (hids : v.checkInterIds = .ok ()) :
    ((verifyDex image false headerOff st).1.ok = true ↔ v.StringsAcceptable) ∧
    ((verifyDex image false headerOff st).1.ok = true →
      ∀ off, (∃ n, (v.lenient.withStringIds off).IntraOk n) →
        (∀ i, v.IsIdentifier i →
          (v.lenient.withStringIds off).stringDataOffAt i = v.stringDataOffAt i) →
        ((∃ deviations, (v.lenient.withStringIds off).checkInterSection = .ok deviations) ↔
          ∀ i, i < v.header.stringIdsSize →
            (v.lenient.withStringIds off).StringAt i [] → i = 0)) := by
  have hlenient : openVerifier image headerOff false = .ok v.lenient := by
    rw [@openVerifier_lenient _ _ true, hopen]
    rfl
  have hopenSpec := post_of_ok (wp_openVerifier image headerOff false) hlenient
  have htables : v.lenient.TablesOk := by
    have hspec := @Verifier.wp_checkHeader v.lenient hopenSpec.1
    rw [show v.lenient.checkHeader = .ok () from hheader] at hspec
    exact hspec
  have hintra' : v.lenient.checkIntraSection methodHandleCount = .ok () :=
    Verifier.below_checkIntraSection _ _ hintra
  have hok : v.lenient.IntraOk methodHandleCount := by
    have hspec := @Verifier.wp_checkIntraSection _ methodHandleCount htables
    rw [hintra'] at hspec
    exact hspec
  have hids' : v.lenient.checkInterIds = .ok () := by
    have hsame : v.lenient.checkInterIds = v.checkInterIds := by
      simp only [Verifier.checkInterIds, Verifier.lenient_checkInterProtoId]
      rfl
    rw [hsame, hids]
  have hverdict : (verifyDex image false headerOff st).1.ok = true ↔
      v.lenient.StringsAcceptable := by
    rw [← Verifier.checkInterStringIds_iff hok rfl]
    constructor
    · intro haccept
      obtain ⟨w, n, deviations, h⟩ := accepted_of_verifyDex haccept
      obtain rfl : v.lenient = w := Except.ok.inj (hlenient.symm.trans h.opened)
      exact (Verifier.checkInterSection_iff.mp ⟨_, h.inter⟩).1
    · intro hstrings
      obtain ⟨deviations, hinter⟩ := Verifier.checkInterSection_iff.mpr ⟨hstrings, hids'⟩
      have haccepted : Accepted image headerOff false st v.lenient methodHandleCount deviations :=
        ⟨hlenient, hheader, by rw [Verifier.lenient_checkMap, hmap], hintra', hinter⟩
      exact verifyDex_ok_iff.mpr ⟨_, verify_of_accepted haccepted⟩
  have hident {i : Nat} : v.lenient.IsIdentifier i ↔ v.IsIdentifier i := by
    rw [Verifier.isIdentifier_iff, Verifier.isIdentifier_iff]
    rfl
  have hstrict : v.lenient.StringsAcceptable ↔ v.StringsAcceptable := by
    constructor
    · intro h
      exact ⟨fun a b us vs ha hb => h.ordered a b us vs (hident.mpr ha) (hident.mpr hb),
        fun a b us ha hb => h.distinct a b us (hident.mpr ha) (hident.mpr hb), h.emptyFirst⟩
    · intro h
      exact ⟨fun a b us vs ha hb => h.ordered a b us vs (hident.mp ha) (hident.mp hb),
        fun a b us ha hb => h.distinct a b us (hident.mp ha) (hident.mp hb), h.emptyFirst⟩
  refine ⟨hverdict.trans hstrict, ?_⟩
  rintro haccept off ⟨n, hother⟩ hsame
  have hacceptable := hverdict.mp haccept
  have hsame' : ∀ i, v.lenient.IsIdentifier i →
      (v.lenient.withStringIds off).stringDataOffAt i = v.lenient.stringDataOffAt i :=
    fun i hi => hsame i (hident.mp hi)
  have hkept {i : Nat} {us : List Nat} (hi : (v.lenient.withStringIds off).IsIdentifier i)
      (hus : (v.lenient.withStringIds off).StringAt i us) : v.lenient.StringAt i us := by
    have hcontent := Verifier.withStringIds_stringContent hok hother hsame'
      (Verifier.withStringIds_isIdentifier.mp hi)
    unfold Verifier.StringAt at hus ⊢
    rwa [hcontent] at hus
  rw [Verifier.checkInterSection_iff, Verifier.withStringIds_checkInterIds hok hother hsame',
    Verifier.checkInterStringIds_iff hother rfl]
  constructor
  · exact fun h => h.1.emptyFirst
  · intro hempty
    refine ⟨⟨fun a b us vs ha hb hab hus hvs => ?_, fun a b us ha hb hus hvs => ?_, hempty⟩, hids'⟩
    · exact hacceptable.ordered a b us vs (Verifier.withStringIds_isIdentifier.mp ha)
        (Verifier.withStringIds_isIdentifier.mp hb) hab (hkept ha hus) (hkept hb hvs)
    · exact hacceptable.distinct a b us (Verifier.withStringIds_isIdentifier.mp ha)
        (Verifier.withStringIds_isIdentifier.mp hb) (hkept ha hus) (hkept hb hvs)

end Lenient

/-- One type `LA;` and the value strings `b` and `a`, in this order. -/
def swappedDex : Memory := [
  100, 101, 120, 10, 48, 51, 53, 0, 0, 0, 0, 0, 0, 0, 0, 0, 0, 0, 0, 0, 0, 0, 0, 0,
  0, 0, 0, 0, 0, 0, 0, 0, 192, 0, 0, 0, 112, 0, 0, 0, 120, 86, 52, 18, 0, 0, 0, 0,
  0, 0, 0, 0, 140, 0, 0, 0, 3, 0, 0, 0, 112, 0, 0, 0, 1, 0, 0, 0, 124, 0, 0, 0,
  0, 0, 0, 0, 0, 0, 0, 0, 0, 0, 0, 0, 0, 0, 0, 0, 0, 0, 0, 0, 0, 0, 0, 0,
  0, 0, 0, 0, 0, 0, 0, 0, 0, 0, 0, 0, 0, 0, 0, 0, 128, 0, 0, 0, 133, 0, 0, 0,
  136, 0, 0, 0, 0, 0, 0, 0, 3, 76, 65, 59, 0, 1, 98, 0, 1, 97, 0, 0, 4, 0, 0, 0,
  0, 0, 0, 0, 1, 0, 0, 0, 0, 0, 0, 0, 1, 0, 0, 0, 3, 0, 0, 0, 112, 0, 0, 0,
  2, 0, 0, 0, 1, 0, 0, 0, 124, 0, 0, 0, 0, 16, 0, 0, 1, 0, 0, 0, 140, 0, 0, 0]

set_option maxRecDepth 20000 in
def swappedVerifier : Verifier :=
  ⟨swappedDex, 0, headerAt swappedDex 0, ⟨0, 192, by decide⟩, true⟩

set_option maxRecDepth 2000 in
theorem swappedDex_open : openVerifier swappedDex 0 true = .ok swappedVerifier := by
  rfl

set_option maxRecDepth 20000 in
/-- The strict pass rejects the order of the value strings. -/
theorem lenient_accepts_iff_swappedDex : (verifyDex swappedDex true 0 {}).1.ok = false ∧
    ((verifyDex swappedDex false 0 {}).1.ok = true ↔ swappedVerifier.StringsAcceptable) ∧
    ((verifyDex swappedDex false 0 {}).1.ok = true →
      ∀ off, (∃ n, (swappedVerifier.lenient.withStringIds off).IntraOk n) →
        (∀ i, swappedVerifier.IsIdentifier i →
          (swappedVerifier.lenient.withStringIds off).stringDataOffAt i =
            swappedVerifier.stringDataOffAt i) →
        ((∃ deviations,
          (swappedVerifier.lenient.withStringIds off).checkInterSection = .ok deviations) ↔
          ∀ i, i < swappedVerifier.header.stringIdsSize →
            (swappedVerifier.lenient.withStringIds off).StringAt i [] → i = 0)) :=
  ⟨by decide, @lenient_accepts_iff _ _ 0 {} _ swappedDex_open (by decide)
    (by decide) (by decide) (by decide)⟩

end Dexllm
