import Dexllm.HandleMemo

/-!
The two check modes of a verifier. The strict mode adds checks to the lenient
one and touches nothing else: both leave the same scratch, and what the strict
mode accepts the lenient mode accepts without a deviation.
-/

namespace Dexllm

open Guarded Bytes

namespace Verifier

/-- The same verifier in lenient mode. -/
def lenient (v : Verifier) : Verifier := { v with checkInsns := false }

variable {v : Verifier}

section SameChecks

theorem lenient_handleItem : v.lenient.handleItem = v.handleItem := by
  funext rounds i cursor
  induction rounds generalizing i cursor with
  | zero => rfl
  | succ rounds ih =>
    simp only [handleItem, ih]
    rfl

theorem lenient_checkMapItems : v.lenient.checkMapItems = v.checkMapItems := by
  funext rounds i cursor
  induction rounds generalizing i cursor with
  | zero => rfl
  | succ rounds ih =>
    simp only [checkMapItems, ih]
    rfl

theorem lenient_checkMap : v.lenient.checkMap = v.checkMap := by
  simp only [checkMap, lenient_checkMapItems]
  rfl

theorem lenient_verifyMutf8From : v.lenient.verifyMutf8From = v.verifyMutf8From := by
  funext room p units
  induction room generalizing p units with
  | zero => rfl
  | succ room ih =>
    simp only [verifyMutf8From, ih]
    rfl

theorem lenient_verifyStringData : v.lenient.verifyStringData = v.verifyStringData := by
  funext off
  simp only [verifyStringData, verifyMutf8, lenient_verifyMutf8From]
  rfl

theorem lenient_acceptStringsFrom : v.lenient.acceptStringsFrom = v.acceptStringsFrom := by
  funext ident rounds i prev
  induction rounds generalizing i prev with
  | zero => rfl
  | succ rounds ih =>
    simp only [acceptStringsFrom, ih]
    rfl

theorem lenient_verifyEncodedValue : v.lenient.verifyEncodedValue = v.verifyEncodedValue := by
  funext methodHandleCount left
  induction left with
  | zero => rfl
  | succ left ih =>
    funext p
    simp only [verifyEncodedValue, ih]
    rfl

theorem lenient_compareParams : v.lenient.compareParams = v.compareParams := by
  funext cn pt ct rounds k
  induction rounds generalizing k with
  | zero => rfl
  | succ rounds ih =>
    simp only [compareParams, ih]
    rfl

theorem lenient_checkInterProtoId : v.lenient.checkInterProtoId = v.checkInterProtoId := by
  funext i
  simp only [checkInterProtoId, lenient_compareParams]
  rfl

theorem lenient_verifyEncodedArrayAt :
    v.lenient.verifyEncodedArrayAt = v.verifyEncodedArrayAt := by
  funext methodHandleCount off
  simp only [verifyEncodedArrayAt, lenient_verifyEncodedValue]
  rfl

theorem lenient_checkStaticValues : v.lenient.checkStaticValues = v.checkStaticValues := by
  funext methodHandleCount off
  simp only [checkStaticValues, lenient_verifyEncodedArrayAt]

theorem lenient_verifyAnnotationItem :
    v.lenient.verifyAnnotationItem = v.verifyAnnotationItem := by
  funext methodHandleCount off seen
  simp only [verifyAnnotationItem, lenient_verifyEncodedValue]
  rfl

theorem lenient_verifyAnnotationSet :
    v.lenient.verifyAnnotationSet = v.verifyAnnotationSet := by
  funext methodHandleCount off seen
  simp only [verifyAnnotationSet, lenient_verifyAnnotationItem]
  rfl

theorem lenient_verifyAnnotationSetRefList :
    v.lenient.verifyAnnotationSetRefList = v.verifyAnnotationSetRefList := by
  funext methodHandleCount off seen
  simp only [verifyAnnotationSetRefList, lenient_verifyAnnotationSet]
  rfl

theorem lenient_verifyAnnotationsDirectory :
    v.lenient.verifyAnnotationsDirectory = v.verifyAnnotationsDirectory := by
  funext methodHandleCount off seen
  simp only [verifyAnnotationsDirectory, verifyClassAnnotations, lenient_verifyAnnotationSet,
    lenient_verifyAnnotationSetRefList]
  rfl

end SameChecks

section Monotone

theorem below_verifyCodeItem (off : Nat) :
    Below (v.verifyCodeItem off) (v.lenient.verifyCodeItem off) := by
  refine below_bind (below_refl _) fun _ => below_bind (below_refl _) fun code => ?_
  refine below_bind (below_refl _) fun _ => below_bind (below_refl _) fun _ => ?_
  refine below_bind (below_refl _) fun _ => below_bind ?_ fun _ => below_refl _
  intro _ _
  rfl

theorem below_walkMethods {bad : String} {check check' : Nat → Nat → Run Unit}
    (h : ∀ idx codeOff, Below (check idx codeOff) (check' idx codeOff)) (n p : Nat) :
    Below (v.walkMethods bad check n p) (v.walkMethods bad check' n p) := by
  refine below_bind (below_loop (fun _ s => ?_) _ _) fun _ => below_refl _
  refine below_bind (below_refl _) fun _ => below_bind (below_refl _) fun _ => ?_
  refine below_bind (below_refl _) fun _ => below_bind (below_refl _) fun _ => ?_
  exact below_bind (h _ _) fun _ => below_refl _

theorem below_verifyClassData (off : Nat) :
    Below (v.verifyClassData off) (v.lenient.verifyClassData off) := by
  have hcode (idx codeOff : Nat) : Below (onlyIf (codeOff ≠ 0) (v.verifyCodeItem codeOff))
      (onlyIf (codeOff ≠ 0) (v.lenient.verifyCodeItem codeOff)) :=
    below_onlyIf (below_verifyCodeItem codeOff)
  refine below_bind (below_refl _) fun _ => ?_
  refine below_bind (below_refl _) fun _ => below_bind (below_refl _) fun _ => ?_
  refine below_bind (below_refl _) fun _ => below_bind (below_refl _) fun _ => ?_
  refine below_bind (below_refl _) fun _ => below_bind (below_refl _) fun _ => ?_
  refine below_bind (below_walkMethods hcode _ _) fun _ => ?_
  exact below_bind (below_walkMethods hcode _ _) fun _ => below_refl _

theorem below_checkIntraClassDef (methodHandleCount c : Nat) (seen : SeenAnnotations) :
    Below (v.checkIntraClassDef methodHandleCount c seen)
      (v.lenient.checkIntraClassDef methodHandleCount c seen) := by
  simp only [checkIntraClassDef, lenient_checkStaticValues, lenient_verifyAnnotationsDirectory]
  refine below_bind (below_refl _) fun cd => below_bind (below_refl _) fun _ => ?_
  refine below_bind (below_refl _) fun _ => below_bind (below_refl _) fun _ => ?_
  refine below_bind (below_refl _) fun _ => ?_
  exact below_bind (below_onlyIf (below_verifyClassData _)) fun _ => below_refl _

theorem below_checkIntraSection (methodHandleCount : Nat) :
    Below (v.checkIntraSection methodHandleCount) (v.lenient.checkIntraSection methodHandleCount) := by
  simp only [checkIntraSection, lenient_verifyStringData]
  refine below_bind (below_refl _) fun _ => below_bind (below_refl _) fun _ => ?_
  refine below_bind (below_refl _) fun _ => below_bind (below_refl _) fun _ => ?_
  refine below_bind (below_refl _) fun _ => ?_
  exact below_bind (below_loop (fun c seen => below_checkIntraClassDef _ c seen) _ _)
    fun _ => below_refl _

theorem below_countOutOfOrder : Below v.countOutOfOrder v.lenient.countOutOfOrder := by
  refine below_loop (fun i outOfOrder => below_bind (below_refl _) fun order => ?_) _ _
  refine below_ite (below_bind ?_ fun _ => below_refl _) (below_refl _)
  intro _ _
  rfl

theorem below_checkInterStringIds :
    Below v.checkInterStringIds v.lenient.checkInterStringIds := by
  refine below_bind below_countOutOfOrder fun outOfOrder => ?_
  simp only [acceptUnsortedValueStrings, lenient_acceptStringsFrom]
  exact below_refl _

theorem below_checkInterSection : Below v.checkInterSection v.lenient.checkInterSection := by
  simp only [checkInterSection, lenient_checkInterProtoId]
  exact below_bind below_checkInterStringIds fun _ => below_refl _

end Monotone

end Verifier

/-- Opening differs between the modes in the mode alone. -/
theorem openVerifier_lenient {image : Memory} {headerOff : Nat} {checkInsns : Bool} :
    openVerifier image headerOff false =
      (openVerifier image headerOff checkInsns).map Verifier.lenient := by
  simp only [openVerifier]
  split
  · cases failIf (image.length - headerOff < kV40Size) "Empty or truncated file" with
    | error e => rfl
    | ok _ =>
      simp only [bind_ok]
      cases read kV40Size headerAt image headerOff with
      | error e => rfl
      | ok header =>
        simp only [bind_ok]
        cases computeDataRange image headerOff (by assumption) header <;> rfl
  · rfl

/-- A run that passes every phase returns. -/
theorem verify_of_accepted {image : Memory} {headerOff : Nat} {checkInsns : Bool}
    {st : VerifyImageState} {v : Verifier} {methodHandleCount : Nat} {deviations : List String}
    (h : Accepted image headerOff checkInsns st v methodHandleCount deviations) :
    (verify image headerOff checkInsns st).1 = .ok deviations := by
  have hmap := h.map
  rcases hcheck : v.checkMap (st.seed image.length) with ⟨r, st'⟩
  rw [hcheck] at hmap
  obtain rfl : r = .ok methodHandleCount := hmap
  simp only [verify, Verifier.verifyPhases]
  rw [Scratch.lift_bind_apply, h.opened, Scratch.andThen_ok, Scratch.lift_bind_apply, h.header,
    Scratch.andThen_ok, Scratch.bind_of_ok hcheck]
  exact bind_eq_ok.mpr ⟨(), h.intra, h.inter⟩

/-- An accepting strict run is an accepting lenient run without a deviation. -/
theorem Accepted.lenient {image : Memory} {headerOff : Nat} {st : VerifyImageState} {v : Verifier}
    {methodHandleCount : Nat} {deviations : List String}
    (h : Accepted image headerOff true st v methodHandleCount deviations) :
    Accepted image headerOff false st v.lenient methodHandleCount [] where
  opened := by rw [@openVerifier_lenient _ _ true, h.opened]; rfl
  header := h.header
  map := by rw [Verifier.lenient_checkMap, h.map]
  intra := Verifier.below_checkIntraSection _ _ h.intra
  inter := Verifier.below_checkInterSection _ (h.deviations_eq_nil rfl ▸ h.inter)

/-- What the strict pass accepts the lenient pass accepts over the same
scratch, without a deviation. -/
theorem verifyDex_lenient_of_strict {image : Memory} {headerOff : Nat} {st : VerifyImageState}
    (h : (verifyDex image true headerOff st).1.ok = true) :
    (verifyDex image false headerOff st).1 = { ok := true } := by
  obtain ⟨v, methodHandleCount, deviations, haccepted⟩ := accepted_of_verifyDex h
  simp only [verifyDex, verify_of_accepted haccepted.lenient, resultOf]

section Scratch

variable {image : Memory} {headerOff : Nat}

/-- Both modes are asked to walk the same section. -/
theorem walkedSection_lenient :
    walkedSection image ⟨headerOff, false⟩ =
      (walkedSection image ⟨headerOff, true⟩).map fun (v, item) => (v.lenient, item) := by
  simp only [walkedSection]
  rw [@openVerifier_lenient _ _ true]
  cases openVerifier image headerOff true with
  | error e => rfl
  | ok v =>
    have hheader : v.lenient.checkHeader = v.checkHeader := rfl
    have hcount : v.lenient.readMapCount = v.readMapCount := rfl
    simp only [Except.map, bind_ok, Verifier.lenient_handleItem, hheader, hcount]
    cases v.checkHeader with
    | error e => rfl
    | ok _ =>
      simp only [bind_ok]
      cases v.readMapCount with
      | error e => rfl
      | ok count =>
        simp only [bind_ok]
        cases v.handleItem count 0 {} with
        | error e => rfl
        | ok found => cases found <;> rfl

theorem sectionVerdict_lenient (st : VerifyImageState) :
    sectionVerdict image st ⟨headerOff, false⟩ = sectionVerdict image st ⟨headerOff, true⟩ := by
  simp only [sectionVerdict, walkedSection_lenient, Option.map_map]
  rfl

/-- Both modes leave the same scratch. -/
theorem verifyDex_lenient_scratch (st : VerifyImageState) :
    (verifyDex image false headerOff st).2 = (verifyDex image true headerOff st).2 := by
  have hlenient := @verifyDex_scratch image ⟨headerOff, false⟩ st
  have hstrict := @verifyDex_scratch image ⟨headerOff, true⟩ st
  rw [walkedSection_lenient] at hlenient
  rw [hlenient, hstrict]
  cases walkedSection image ⟨headerOff, true⟩ <;> rfl

/-- `CheckMap` passes when its items and the required sections do. -/
theorem checkMap_eq_ok {v : Verifier} {st : VerifyImageState} {n : Nat} :
    (v.checkMap st).1 = .ok n ↔ ∃ count cursor, v.readMapCount = .ok count ∧
      (v.checkMapItems count 0 {} st).1 = .ok cursor ∧
        v.checkRequiredSections cursor.usedBits = .ok () ∧ cursor.methodHandleCount = n := by
  rw [Verifier.checkMap, Scratch.lift_bind_apply]
  cases v.readMapCount with
  | error e => simp
  | ok count =>
    rw [Scratch.andThen_ok, Scratch.bind_apply]
    rcases hitems : v.checkMapItems count 0 {} st with ⟨r, st'⟩
    cases r with
    | error e => simp [hitems]
    | ok cursor =>
      rw [Scratch.andThen_ok, Scratch.lift_bind_apply]
      cases hrequired : v.checkRequiredSections cursor.usedBits <;>
        simp [hitems, hrequired]

variable {call : VerifyCall} {st st' : VerifyImageState} {v : Verifier} {methodHandleCount : Nat}
  {deviations : List String}

/-- An accepting run accepts its section. -/
theorem sectionVerdict_of_accepted
    (h : Accepted image call.headerOff call.checkInsns st v methodHandleCount deviations) :
    sectionVerdict image st call ≠ some false := by
  intro hfalse
  obtain ⟨⟨w, item⟩, hwalked, hverdict⟩ := Option.map_eq_some_iff.mp hfalse
  obtain ⟨hopen, _, count, hcount, hitem⟩ := walkedSection_eq_some.mp hwalked
  obtain rfl := Except.ok.inj (hopen.symm.trans h.opened)
  obtain ⟨count', cursor, hcount', hitems, _⟩ := checkMap_eq_ok.mp h.map
  obtain rfl := Except.ok.inj (hcount.symm.trans hcount')
  have hok := Verifier.section_isOk_of_checkMapItems hitems hitem
  exact absurd (hok.symm.trans hverdict) (by decide)

/-- A run reads the scratch for its section alone. -/
theorem accepted_congr
    (h : Accepted image call.headerOff call.checkInsns st v methodHandleCount deviations)
    (hverdict : sectionVerdict image st' call ≠ some false) :
    Accepted image call.headerOff call.checkInsns st' v methodHandleCount deviations := by
  obtain ⟨count, cursor, hcount, hitems, hrequired⟩ := checkMap_eq_ok.mp h.map
  refine { h with map := checkMap_eq_ok.mpr ⟨count, cursor, hcount, ?_, hrequired⟩ }
  refine Verifier.checkMapItems_congr hitems fun item hitem => ?_
  have hwalked := walkedSection_eq_some.mpr ⟨h.opened, h.header, count, hcount, hitem⟩
  rw [sectionVerdict, hwalked, Option.map_some] at hverdict
  simpa using hverdict

end Scratch

end Dexllm
