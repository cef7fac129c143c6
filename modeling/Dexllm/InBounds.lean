import Dexllm.ConsumerBounds

/-!
When the consumers of an accepted dex stay in bounds.
-/

namespace Dexllm

open Guarded Bytes Leb128 LinearSweep

section Listings

variable {image : Memory} {headerOff methodHandleCount : Nat} {checkInsns : Bool}
  {st : VerifyImageState} {v : Verifier} {deviations : List String} {item : DexItem}
  {caches : ListingCaches} {fp : Nat → Bool → Text} {indent : Text}

/-- The source file of an accepted class_def is a string of the table. -/
theorem Accepted.sourceFile
    (h : Accepted image headerOff checkInsns st v methodHandleCount deviations) {c : Nat}
    (hc : c < v.header.classDefsSize) (hsome : (v.classDefView c).sourceFileIdx ≠ kNoIndex) :
    (v.classDefView c).sourceFileIdx < v.header.stringIdsSize := by
  have hintra := h.intra
  simp only [Verifier.checkIntraSection, bind_eq_ok] at hintra
  obtain ⟨_, _, _, _, _, _, _, _, _, _, _, hloop, _⟩ := hintra
  refine loop_invariant (fun j _ => ∀ c < j, (v.classDefView c).sourceFileIdx ≠ kNoIndex →
    (v.classDefView c).sourceFileIdx < v.header.stringIdsSize) hloop ?_ ?_ c hc hsome
  · intro c hc
    omega
  · intro j s s' hj hinv hround c hcj hsome
    rcases Nat.lt_succ_iff_lt_or_eq.mp hcj with hlt | rfl
    · exact hinv c hlt hsome
    · simp only [Verifier.checkIntraClassDef, Verifier.readClassDef_eq h.tablesOk hj, bind_ok,
        bind_eq_ok, failIf_eq_ok] at hround
      obtain ⟨_, _, _, _, _, hsource, _⟩ := hround
      exact Nat.lt_of_not_le fun hle => hsource ⟨hsome, hle⟩

variable (hl : Loaded v item) (hintra : v.IntraOk methodHandleCount)
include hl

theorem wp_renderInterfaces {cd : ClassDef} (hcd : v.ClassDefOk methodHandleCount cd) :
    wp (item.renderInterfaces cd.interfacesOff) fun _ => True := by
  unfold DexItem.renderInterfaces
  rw [wp_ite]
  refine ⟨fun hsome => ?_, fun _ => trivial⟩
  have hlist := hcd.interfaces hsome
  have hspan := hlist.span
  have hend := v.endOfFile_le
  rw [wp_bind]
  apply wp_dataPtr hl.reader
  rw [hl.reader.image, wp_bind, wp_readU4]
  refine ⟨by omega, ?_⟩
  rw [wp_bind]
  refine wp_mono (@wp_collect _ _ _ (fun _ _ => True) fun i hi => ?_) fun _ _ => trivial
  rw [wp_bind, wp_readU2]
  refine ⟨by omega, ?_⟩
  rw [(hl.typeNameOrEmpty (hlist.index i hi)).2]
  trivial

include hintra

theorem wp_renderFields {fieldIds : List Nat} (h : ∀ f ∈ fieldIds, f < v.header.fieldIdsSize) :
    wp (item.renderFields caches fieldIds) fun _ => True := by
  induction fieldIds with
  | nil => trivial
  | cons f fieldIds ih =>
    have hline : wp (item.renderField caches f) fun _ => True := by
      unfold DexItem.renderField
      rw [wp_ite]
      refine ⟨fun _ => ?_, fun _ => trivial⟩
      have hf := h f List.mem_cons_self
      obtain ⟨-, hname, htype⟩ := fieldParts_spec hl hintra hf
      rw [fieldId_eq hl hintra hf, bind_ok, vectorAt_eq_ok.mpr hname, bind_ok,
        vectorAt_eq_ok.mpr htype]
      trivial
    rw [DexItem.renderFields, wp_bind]
    refine wp_mono hline fun _ _ => ?_
    rw [wp_bind]
    exact wp_mono (ih fun f hf => h f (List.mem_cons_of_mem _ hf)) fun _ _ => trivial

variable (hin : ∀ m c, item.getMethodCode caches.codes m = some c → c.Inside)
include hin

theorem wp_renderMethods (hfits : caches.CodeFits item) (methodIds : List Nat) :
    wp (item.renderMethods fp caches methodIds) fun _ => True := by
  induction methodIds with
  | nil => trivial
  | cons m methodIds ih =>
    obtain ⟨ref, href⟩ := exists_formatMethodRef hl hintra m
    rw [DexItem.renderMethods, href, bind_ok, wp_bind]
    refine wp_mono (wp_renderCode hl hintra fun c hc => ⟨hin m c hc, hfits m c hc⟩) fun _ _ => ?_
    rw [wp_bind]
    exact wp_mono ih fun _ _ => trivial

theorem wp_renderMethodSmali (hfits : caches.CodeFits item) (m : Nat) :
    wp (item.renderMethodSmali fp caches m indent) fun _ => True := by
  unfold DexItem.renderMethodSmali
  rw [wp_ite]
  refine ⟨fun _ => trivial, fun _ => ?_⟩
  obtain ⟨ref, href⟩ := exists_formatMethodRef hl hintra m
  rw [href, bind_ok, wp_bind]
  exact wp_mono (wp_renderCode hl hintra fun c hc => ⟨hin m c hc, hfits m c hc⟩) fun _ _ => trivial

/-- The listing of one method tells of its code. -/
theorem fits_of_wp_renderMethodSmali (hcodes : CodesOk v caches.codes) {m : Nat} {c : CodeItem}
    (hcode : item.getMethodCode caches.codes m = some c)
    (hshort : ∀ k ∈ c.boundaries, ¬c.Overlong k)
    (h : wp (item.renderMethodSmali fp caches m indent) fun _ => True) : c.Fits := by
  have hlt : m < v.header.methodIdsSize := by
    by_contra hge
    have hnone : caches.codes.getD m none = none :=
      List.getD_eq_default _ _ (by rw [hcodes.1]; omega)
    rw [DexItem.getMethodCode, hnone] at hcode
    cases hcode
  obtain ⟨ref, href⟩ := exists_formatMethodRef hl hintra m
  rw [DexItem.renderMethodSmali, hl.reader.header, if_neg (by omega), href, bind_ok, hcode,
    wp_bind] at h
  exact fits_of_wp_renderCode hl hintra (hin m c hcode) hshort (wp_mono h fun _ _ => trivial)

end Listings

/-- The class_def table of a loaded dex is no negative offset. -/
theorem classTable_of_loadDexItem {image : Memory} {headerOff : Nat} {item : DexItem}
    (hload : loadDexItem image headerOff = .ok item) :
    item.reader.header.classDefsOff < 2 ^ 31 := by
  simp only [loadDexItem, initBaseCache, Reader.viewTables, bind_eq_ok, slicerCheck_eq_ok]
    at hload
  obtain ⟨r, -, _, ⟨_, -, _, -, _, -, _, -, _, -, hclasses⟩, _, -, _, -, _, -, _, -, hitem⟩ := hload
  obtain rfl := Except.ok.inj hitem
  exact hclasses

section Accepted

variable {image : Memory} {headerOff methodHandleCount : Nat} {checkInsns : Bool}
  {st : VerifyImageState} {v : Verifier} {deviations : List String} {item : DexItem}
  {caches : ListingCaches} {fp : Nat → Bool → Text}
  (h : Accepted image headerOff checkInsns st v methodHandleCount deviations)
  (hload : loadDexItem image headerOff = .ok item)
  (hcaches : item.listingCaches = .ok caches)
include h hload hcaches

theorem inside_of_getMethodCode {m : Nat} {c : CodeItem}
    (hcode : item.getMethodCode caches.codes m = some c) : c.Inside := by
  obtain ⟨off, hok, rfl⟩ := codeItem_of_getMethodCode (loaded_of_loadDexItem h hload)
    (cachesOk_of_listingCaches h hload hcaches).codes hcode
  exact Verifier.inside_of_verifyCodeItem hok

/-- In strict mode the verifier has seen every instruction end inside the code. -/
theorem codeFits_of_strict (hstrict : checkInsns = true) : caches.CodeFits item := by
  intro m c hcode
  obtain ⟨off, hok, rfl⟩ := codeItem_of_getMethodCode (loaded_of_loadDexItem h hload)
    (cachesOk_of_listingCaches h hload hcaches).codes hcode
  exact Verifier.fits_of_verifyCodeItem (h.openSpec.2.2.2.trans hstrict) hok

theorem wp_renderClassSmali (hsuper : v.SuperclassesNamed) (hfits : caches.CodeFits item)
    (t : Nat) : wp (item.renderClassSmali fp caches t) fun _ => True := by
  have hl := loaded_of_loadDexItem h hload
  have hintra := h.intraOk
  have hok := cachesOk_of_listingCaches h hload hcaches
  have hin := fun m c => @inside_of_getMethodCode _ _ _ _ _ _ _ _ _ h hload hcaches m c
  unfold DexItem.renderClassSmali
  rw [wp_ite]
  refine ⟨fun _ => trivial, fun ht => ?_⟩
  rw [hl.typeCount] at ht
  have ht : t < v.header.typeIdsSize := Nat.lt_of_not_le ht
  have hdef : t < caches.typeDefs.length := hok.typeDefs ▸ ht
  rw [wp_bind, vectorAt, List.getElem?_eq_getElem hdef, wp_except_ok]
  split
  · trivial
  next c hfound =>
    have hc : c < v.header.classDefsSize :=
      hok.typeDef t c (by rw [List.getElem?_eq_getElem hdef, hfound])
    have hcd := hintra.classDef c hc
    rw [wp_bind]
    refine wp_classDef hl hintra ?_
    change v.ClassDefOk methodHandleCount (v.classDefView c) at hcd
    have hsuperLt := hcd.superclass (hsuper c hc)
    have hsource : wp (item.renderSource (v.classDefView c).sourceFileIdx) fun _ => True := by
      unfold DexItem.renderSource
      rw [wp_ite]
      refine ⟨fun hsome => ?_, fun _ => trivial⟩
      obtain ⟨source, -, hget⟩ := vectorAt_eq (hl.stringCount ▸ h.sourceFile hc hsome)
      rw [hget]
      trivial
    obtain ⟨fields, hfields, hfieldsGet⟩ := vectorAt_eq (hok.fieldLists ▸ ht)
    obtain ⟨methods, -, hmethodsGet⟩ := vectorAt_eq (hl.methodsCount ▸ ht)
    rw [(hl.typeNameOrEmpty ht).2, bind_ok, (hl.typeNameOrEmpty hsuperLt).2, bind_ok, wp_bind]
    refine wp_mono hsource fun _ _ => ?_
    rw [wp_bind]
    refine wp_mono (wp_renderInterfaces hl hcd) fun _ _ => ?_
    rw [hfieldsGet, bind_ok, wp_bind]
    refine wp_mono (wp_renderFields hl hintra (hok.field t fields hfields)) fun _ _ => ?_
    rw [hmethodsGet, bind_ok, wp_bind]
    exact wp_mono (wp_renderMethods hl hintra hin hfits methods) fun _ _ => trivial

/-- The listing of a class tells of its superclass. -/
theorem superclassesNamed_of_wp
    (hclass : ∀ t, wp (item.renderClassSmali fp caches t) fun _ => True) :
    v.SuperclassesNamed := by
  have hl := loaded_of_loadDexItem h hload
  have hintra := h.intraOk
  have hok := cachesOk_of_listingCaches h hload hcaches
  intro c hc hnone
  have hcls : (v.classDefView c).classIdx < v.header.typeIdsSize := (hintra.classDef c hc).cls
  have hrun := hclass (v.classDefView c).classIdx
  have hlimit := h.tablesOk.typeLimit
  have hdef : item.reader.classDef c = .ok (v.classDefView c) := by
    have hsection := @sectionAt_eq _ _ hl.reader _ _ _ _ _ classDefAt
      (hl.reader.header ▸ classTable_of_loadDexItem hload) hintra.tables.classDefs hc
    rw [Reader.classDef, hl.reader.header]
    exact hsection
  have hpast : vectorAt item.typeNames (v.classDefView c).superclassIdx = .error .oob := by
    rw [vectorAt, List.getElem?_eq_none]
    rw [hl.typeCount, hnone]
    unfold kNoIndex at hlimit ⊢
    omega
  rw [DexItem.renderClassSmali, if_neg (by rw [hl.typeCount]; omega),
    vectorAt_eq_ok.mpr (hok.classDef c hc), bind_ok] at hrun
  simp only [hdef, bind_ok, (hl.typeNameOrEmpty hcls).2, hpast, bind_error] at hrun
  exact hrun

end Accepted

/-- The consumers stay in bounds if every class names a superclass and no code item is
cut short. Cut short code has a fault found by the listing of its method, unless an
overlong register list stops the listing before; in strict mode there is no such
code. -/
theorem consumers_in_bounds_iff {image : Memory} {headerOff : Nat} {checkInsns : Bool}
    {st : VerifyImageState} {v : Verifier} {item : DexItem} {caches : ListingCaches}
    (hopen : openVerifier image headerOff checkInsns = .ok v)
    (hok : (verifyDex image checkInsns headerOff st).1.ok = true)
    (hload : loadDexItem image headerOff = .ok item)
    (hcaches : item.listingCaches = .ok caches) :
    (v.SuperclassesNamed ∧ caches.CodeFits item → ConsumersInBounds item caches) ∧
    (caches.NoOverlong item → ConsumersInBounds item caches →
      v.SuperclassesNamed ∧ caches.CodeFits item) ∧
    (checkInsns = true → (ConsumersInBounds item caches ↔ v.SuperclassesNamed)) := by
  obtain ⟨w, methodHandleCount, deviations, h⟩ := accepted_of_verifyDex hok
  obtain rfl : v = w := Except.ok.inj (hopen.symm.trans h.opened)
  have hl := loaded_of_loadDexItem h hload
  have hin := fun m c => @inside_of_getMethodCode _ _ _ _ _ _ _ _ _ h hload hcaches m c
  have henough (hsuper : v.SuperclassesNamed) (hfits : caches.CodeFits item) :
      ConsumersInBounds item caches := by
    constructor
    · exact fun _ m _ => wp_renderMethodSmali hl h.intraOk hin hfits m
    · exact fun _ => wp_renderClassSmali h hload hcaches hsuper hfits
    · intro m c hcode
      rw [CodeItem.guardedInvokeSites_eq (hfits m c hcode)]
      trivial
    · intro m c hcode
      rw [CodeItem.guardedFieldSites_eq (hfits m c hcode)]
      trivial
    · intro m c depth hcode
      rw [CodeItem.guardedAnalyze_eq (hfits m c hcode)]
      trivial
  have hnamed (hbounds : ConsumersInBounds item caches) : v.SuperclassesNamed :=
    superclassesNamed_of_wp h hload hcaches (hbounds.type fun _ _ => [])
  refine ⟨fun ⟨hsuper, hfits⟩ => henough hsuper hfits, fun hshort hbounds =>
    ⟨hnamed hbounds, fun m c hcode => ?_⟩, fun hstrict => ⟨hnamed, fun hsuper => ?_⟩⟩
  · exact fits_of_wp_renderMethodSmali hl h.intraOk hin
      (cachesOk_of_listingCaches h hload hcaches).codes hcode (hshort m c hcode)
      (hbounds.method (fun _ _ => []) m [])
  · exact henough hsuper (codeFits_of_strict h hload hcaches hstrict)

/-- A dex of the one class `LA;`, which names no superclass. -/
def rootlessDex : Bytes.Memory :=
  [100, 101, 120, 10, 48, 51, 53, 0, 0, 0, 0, 0, 0, 0, 0, 0, 0, 0, 0, 0, 0, 0, 0, 0, 0, 0, 0, 0,
    0, 0, 0, 0, 236, 0, 0, 0, 112, 0, 0, 0, 120, 86, 52, 18, 0, 0, 0, 0, 0, 0, 0, 0, 160, 0, 0, 0,
    1, 0, 0, 0, 112, 0, 0, 0, 1, 0, 0, 0, 116, 0, 0, 0, 0, 0, 0, 0, 0, 0, 0, 0, 0, 0, 0, 0, 0, 0,
    0, 0, 0, 0, 0, 0, 0, 0, 0, 0, 1, 0, 0, 0, 120, 0, 0, 0, 0, 0, 0, 0, 0, 0, 0, 0, 152, 0, 0, 0,
    0, 0, 0, 0, 0, 0, 0, 0, 1, 0, 0, 0, 255, 255, 255, 255, 0, 0, 0, 0, 255, 255, 255, 255, 0, 0,
    0, 0, 0, 0, 0, 0, 0, 0, 0, 0, 3, 76, 65, 59, 0, 0, 0, 0, 6, 0, 0, 0, 0, 0, 0, 0, 1, 0, 0, 0,
    0, 0, 0, 0, 1, 0, 0, 0, 1, 0, 0, 0, 112, 0, 0, 0, 2, 0, 0, 0, 1, 0, 0, 0, 116, 0, 0, 0, 6, 0,
    0, 0, 1, 0, 0, 0, 120, 0, 0, 0, 2, 32, 0, 0, 1, 0, 0, 0, 152, 0, 0, 0, 0, 16, 0, 0, 1, 0, 0,
    0, 160, 0, 0, 0]

/-- What the consumers get of `rootlessDex`. -/
def rootlessRun : Run (Verifier × DexItem × ListingCaches) := do
  let v ← openVerifier rootlessDex 0 true
  let item ← loadDexItem rootlessDex 0
  let caches ← item.listingCaches
  pure (v, item, caches)

set_option maxRecDepth 20000 in
theorem rootlessDex_runs : (verifyDex rootlessDex true 0 {}).1.ok = true ∧
    rootlessRun.map (fun run => (run.1.header.classDefsSize,
      (run.1.classDefView 0).superclassIdx)) = .ok (1, kNoIndex) := by
  decide

theorem consumers_in_bounds_iff_rootlessDex : ∃ v item caches,
    rootlessRun = .ok (v, item, caches) ∧ ¬v.SuperclassesNamed ∧
    (ConsumersInBounds item caches ↔ v.SuperclassesNamed) := by
  obtain ⟨hok, hrun⟩ := rootlessDex_runs
  cases hdex : rootlessRun with
  | error e =>
    rw [hdex] at hrun
    cases hrun
  | ok run =>
    rw [hdex] at hrun
    obtain ⟨hsize, hsuper⟩ := Prod.mk.inj (Except.ok.inj hrun)
    have hparts := hdex
    simp only [rootlessRun, bind_eq_ok] at hparts
    obtain ⟨v, hopen, item, hload, caches, hcaches, hrun⟩ := hparts
    obtain rfl := Except.ok.inj hrun
    refine ⟨v, item, caches, rfl, fun hnamed => ?_,
      (consumers_in_bounds_iff hopen hok hload hcaches).2.2 rfl⟩
    exact hnamed 0 (by rw [hsize]; decide) hsuper

end Dexllm
