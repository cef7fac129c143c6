import Dexllm.SmaliRender
import Dexllm.Flow.AnalyzeFits
import Dexllm.ClassOrder

/-!
The listings of an accepted dex read its tables where it has entries, and its code
where the code is, superclasses apart.
-/

namespace Dexllm

open Guarded Bytes LinearSweep

section Refs

variable {v : Verifier} {item : DexItem} {methodHandleCount : Nat} (hl : Loaded v item)
  (hintra : v.IntraOk methodHandleCount)
include hl hintra

theorem exists_formatProto (protoIdx : Nat) : ∃ text, item.formatProto protoIdx = .ok text := by
  unfold DexItem.formatProto
  rw [hl.reader.header]
  split
  · exact ⟨_, rfl⟩
  next hidx =>
    have hlt : protoIdx < v.header.protoIdsSize := Nat.lt_of_not_le hidx
    have hproto := hintra.proto protoIdx hlt
    have hparams : ∃ text,
        item.formatParams (protoIdAt v.image (v.protoIdAddr protoIdx)).parametersOff =
          .ok text := by
      unfold DexItem.formatParams
      split
      next hsome =>
        have hlist := hproto.parameters hsome
        have hspan := hlist.span
        have hend := v.endOfFile_le
        have hptr := @dataPtr_eq _ _ hl.reader _ 4 (hl.protoParams _ hlt) hsome
        have hsize := @read_of_le _ 4 u4At v.image
          (v.offsetToPtr (protoIdAt v.image (v.protoIdAddr protoIdx)).parametersOff) (by omega)
        rw [hptr, bind_ok, hl.reader.image, readU4, hsize, bind_ok, collect_eq fun i hi => ?_]
        · exact ⟨_, rfl⟩
        · exact fun i => smaliIdent (item.typeNameOrEmpty (u2At v.image
            (v.offsetToPtr (protoIdAt v.image (v.protoIdAddr protoIdx)).parametersOff + 4 + i * 2)))
        · have hentry := @read_of_le _ 2 u2At v.image (v.offsetToPtr
            (protoIdAt v.image (v.protoIdAddr protoIdx)).parametersOff + 4 + i * 2) (by omega)
          rw [readU2, hentry, bind_ok, (hl.typeNameOrEmpty (hlist.index i hi)).2]
          rfl
      next => exact ⟨_, rfl⟩
    obtain ⟨params, hparams⟩ := hparams
    rw [protoId_eq hl hintra hlt, bind_ok, hparams, bind_ok,
      (hl.typeNameOrEmpty hproto.returnType).2]
    exact ⟨_, rfl⟩

theorem exists_formatMethodRef (methodIdx : Nat) :
    ∃ text, item.formatMethodRef methodIdx = .ok text := by
  unfold DexItem.formatMethodRef
  rw [hl.reader.header]
  split
  · exact ⟨_, rfl⟩
  next hidx =>
    have hlt : methodIdx < v.header.methodIdsSize := Nat.lt_of_not_le hidx
    have hid := hintra.method methodIdx hlt
    obtain ⟨name, -, hname⟩ := vectorAt_eq (hl.stringCount ▸ hid.name)
    obtain ⟨proto, hproto⟩ := exists_formatProto hl hintra
      (methodIdAt v.image (v.methodIdAddr methodIdx)).protoIdx
    rw [methodId_eq hl hintra hlt, bind_ok, (hl.typeNameOrEmpty hid.cls).2, bind_ok, hname, bind_ok,
      hproto]
    exact ⟨_, rfl⟩

theorem exists_formatFieldRef (fieldIdx : Nat) :
    ∃ text, item.formatFieldRef fieldIdx = .ok text := by
  unfold DexItem.formatFieldRef
  rw [hl.reader.header]
  split
  · exact ⟨_, rfl⟩
  next hidx =>
    have hlt : fieldIdx < v.header.fieldIdsSize := Nat.lt_of_not_le hidx
    obtain ⟨hcls, hname, htype⟩ := fieldParts_spec hl hintra hlt
    rw [fieldId_eq hl hintra hlt, bind_ok, vectorAt_eq_ok.mpr hcls, bind_ok,
      vectorAt_eq_ok.mpr hname, bind_ok, vectorAt_eq_ok.mpr htype]
    exact ⟨_, rfl⟩

theorem exists_emitIndex (kind : InstructionIndexType) (i : Nat) :
    ∃ text, item.emitIndex kind i = .ok text := by
  have hvector {l : List (List UInt8)} (hi : i < l.length) :
      ∃ bs, vectorAt l i = .ok bs := by
    obtain ⟨bs, -, hget⟩ := vectorAt_eq hi
    exact ⟨bs, hget⟩
  cases kind with
  | kIndexStringRef =>
    simp only [DexItem.emitIndex]
    split
    next hi =>
      obtain ⟨s, hs⟩ := hvector hi
      rw [hs]
      exact ⟨_, rfl⟩
    next => exact ⟨_, rfl⟩
  | kIndexTypeRef =>
    simp only [DexItem.emitIndex]
    split
    next hi =>
      obtain ⟨name, hname⟩ := hvector hi
      rw [hname]
      exact ⟨_, rfl⟩
    next => exact ⟨_, rfl⟩
  | kIndexFieldRef => exact exists_formatFieldRef hl hintra i
  | kIndexMethodRef | kIndexMethodAndProtoRef => exact exists_formatMethodRef hl hintra i
  | kIndexProtoRef => exact exists_formatProto hl hintra i
  | _ => exact ⟨_, rfl⟩

theorem exists_formatOperands (fp : Nat → Bool → Text) (opcode : Nat) (insn : Instruction) :
    ∃ text, item.formatOperands fp opcode insn = .ok text := by
  obtain ⟨refB, hrefB⟩ := exists_emitIndex hl hintra (getIndexTypeFromOpcode opcode) insn.vB
  obtain ⟨refC, hrefC⟩ := exists_emitIndex hl hintra (getIndexTypeFromOpcode opcode) insn.vC
  obtain ⟨proto, hproto⟩ := exists_formatProto hl hintra (insn.arg.getD 4 0)
  unfold DexItem.formatOperands
  cases getFormatFromOpcode opcode <;>
    simp only [hrefB, hrefC, hproto, bind_ok] <;>
    exact ⟨_, rfl⟩

end Refs

namespace CodeItem

variable {c : CodeItem} {k : Nat}

/-- The code of a method lies in its image. -/
def Inside (c : CodeItem) : Prop := c.insns + 2 * c.insnsSize ≤ c.mem.length

/-- The decoder trips over its own check on the call or array at unit `k`: more than
five registers in its list. -/
def Overlong (c : CodeItem) (k : Nat) : Prop :=
  getFormatFromOpcode (c.opcode k) = .k35c ∧ 5 < c.unit k >>> 12

instance : DecidablePred c.Overlong := fun _ => inferInstanceAs (Decidable (_ ∧ _))

/-- A boundary that fits has all the units its format names. -/
theorem format_fits (h : k + c.unitsAt k ≤ c.insnsSize) :
    k + getWidthFromFormat (getFormatFromOpcode (c.opcode k)) ≤ c.insnsSize := by
  have hpos := c.unitsAt_pos k
  by_cases hpayload : isPayload (c.unit k) = true
  · have hop : getWidthFromFormat (getFormatFromOpcode 0) = 1 := rfl
    rw [opcode_of_isPayload hpayload, hop]
    omega
  · rwa [unitsAt, if_neg hpayload] at h

theorem wp_decode (hin : c.Inside) (h : k + c.unitsAt k ≤ c.insnsSize) :
    wp (decodeInstruction c.mem (c.insns + 2 * k)) fun _ => True := by
  have hfits := format_fits h
  apply wp_decodeInstruction
  change c.insns + 2 * k + 2 * getWidthFromFormat (getFormatFromOpcode (c.opcode k)) ≤ _
  unfold Inside at hin
  omega

set_option maxRecDepth 20000 in
/-- No instruction of the table has a format the decoder checks otherwise. -/
theorem format_ne (opcode : Nat) : getFormatFromOpcode opcode ≠ .k35ms ∧
    getFormatFromOpcode opcode ≠ .k35mi := by
  have hall : ∀ d ∈ gInstructionDescriptors, d.format ≠ .k35ms ∧ d.format ≠ .k35mi := by decide
  unfold getFormatFromOpcode descriptorOf
  rw [List.getD_eq_getElem?_getD]
  cases hget : gInstructionDescriptors[opcode]? with
  | none => exact ⟨by decide, by decide⟩
  | some d => exact hall d (List.mem_of_getElem? hget)

theorem exists_decodeRegList {inst vB regList : Nat} (h : inst >>> 12 ≤ 5) :
    ∃ d, decodeRegList .k35c inst vB regList = .ok d := by
  have hcount : instB inst ≤ 5 := h
  unfold decodeRegList
  interval_cases instB inst <;> exact ⟨_, rfl⟩

theorem exists_decode (hin : c.Inside) (h : k + c.unitsAt k ≤ c.insnsSize)
    (hshort : ¬c.Overlong k) : ∃ d, decodeInstruction c.mem (c.insns + 2 * k) = .ok d := by
  have hfits := format_fits h
  obtain ⟨hms, hmi⟩ := format_ne (c.opcode k)
  have hread : ∀ j, j < getWidthFromFormat (getFormatFromOpcode (c.opcode k)) →
      unitAt c.mem (c.insns + 2 * k) j = .ok (u2At c.mem (c.insns + 2 * k + 2 * j)) := by
    intro j hj
    unfold Inside at hin
    exact read_of_le (by omega)
  have hfirst := hread 0 (one_le_width _)
  have hop : opcodeFromBytecode (u2At c.mem (c.insns + 2 * k)) = c.opcode k := rfl
  unfold Overlong at hshort
  unfold decodeInstruction
  rw [hfirst, bind_ok, Nat.mul_zero, Nat.add_zero, hop]
  cases hformat : getFormatFromOpcode (c.opcode k) with
  | k35ms => exact absurd hformat hms
  | k35mi => exact absurd hformat hmi
  | k35c =>
    rw [hformat] at hread
    simp only [hread 1 (by decide), hread 2 (by decide), bind_ok]
    exact exists_decodeRegList (Nat.le_of_not_lt fun hlong => hshort ⟨hformat, hlong⟩)
  | _ =>
    rw [hformat] at hread
    simp (disch := decide) only [fetchU8, fetchU4, hread, bind_ok, pure_eq_ok]
    exact ⟨_, rfl⟩

end CodeItem

end Dexllm

/-!
The consumers of a loaded dex: the listings, the two site walks and the argument
analysis. They read inside the tables and the code when every class names a
superclass and no code item is cut short; the verifier checks the second in strict
mode only, the first never.
-/

namespace Dexllm

open Guarded Bytes Leb128 LinearSweep

/-- Every class_def names a superclass. -/
def Verifier.SuperclassesNamed (v : Verifier) : Prop :=
  ∀ c, c < v.header.classDefsSize → (v.classDefView c).superclassIdx ≠ kNoIndex

/-- No consumer reads a code unit outside the code of a method, or indexes a table
past its end, whatever method, type, indent and depth it is asked for. -/
structure ConsumersInBounds (item : DexItem) (caches : ListingCaches) : Prop where
  method : ∀ fp m indent, wp (item.renderMethodSmali fp caches m indent) fun _ => True
  type : ∀ fp t, wp (item.renderClassSmali fp caches t) fun _ => True
  invokeSites : ∀ m c, item.getMethodCode caches.codes m = some c →
    wp c.guardedInvokeSites fun _ => True
  fieldSites : ∀ m c, item.getMethodCode caches.codes m = some c →
    wp c.guardedFieldSites fun _ => True
  analysis : ∀ m c depth, item.getMethodCode caches.codes m = some c →
    wp (c.guardedAnalyze depth) fun _ => True

/-- The code of every method ends with what the linear decode meets. -/
def ListingCaches.CodeFits (caches : ListingCaches) (item : DexItem) : Prop :=
  ∀ m c, item.getMethodCode caches.codes m = some c → c.Fits

/-- No list of registers trips the decoder. -/
def ListingCaches.NoOverlong (caches : ListingCaches) (item : DexItem) : Prop :=
  ∀ m c, item.getMethodCode caches.codes m = some c → ∀ k ∈ c.boundaries, ¬c.Overlong k

section Lines

variable {v : Verifier} {item : DexItem} {methodHandleCount : Nat} (hl : Loaded v item)
  (hintra : v.IntraOk methodHandleCount) {fp : Nat → Bool → Text} {indent : Text} {c : CodeItem}
  {k : Nat}
include hl hintra

theorem wp_renderInsn (hin : c.Inside) (h : k + c.unitsAt k ≤ c.insnsSize) :
    wp (item.renderInsn fp indent c k) fun _ => True := by
  rw [DexItem.renderInsn, CodeItem.touch_unitsFrom (CodeItem.format_fits h), bind_ok, wp_bind]
  refine wp_mono (CodeItem.wp_decode hin h) fun insn _ => ?_
  obtain ⟨ops, hops⟩ := exists_formatOperands hl hintra fp (c.opcode k) insn
  rw [hops]
  trivial

theorem exists_renderInsn (hin : c.Inside) (h : k + c.unitsAt k ≤ c.insnsSize)
    (hshort : ¬c.Overlong k) : ∃ line, item.renderInsn fp indent c k = .ok line := by
  obtain ⟨insn, hinsn⟩ := CodeItem.exists_decode hin h hshort
  obtain ⟨ops, hops⟩ := exists_formatOperands hl hintra fp (c.opcode k) insn
  rw [DexItem.renderInsn, CodeItem.touch_unitsFrom (CodeItem.format_fits h), bind_ok, hinsn,
    bind_ok, hops]
  exact ⟨_, rfl⟩

omit hl hintra in
theorem renderInsn_eq_oob (hpayload : isPayload (c.unit k) = false)
    (hpast : c.insnsSize < k + c.unitsAt k) :
    item.renderInsn fp indent c k = .error .oob := by
  have hunits : c.unitsAt k = getWidthFromFormat (getFormatFromOpcode (c.opcode k)) :=
    if_neg (by rw [hpayload]; decide)
  have hpos := c.unitsAt_pos k
  have hlast : k + c.unitsAt k - 1 ∈
      CodeItem.unitsFrom k (getWidthFromFormat (getFormatFromOpcode (c.opcode k))) :=
    CodeItem.mem_unitsFrom.mpr (by omega)
  rw [DexItem.renderInsn, CodeItem.touch_eq_oob hlast (by omega), bind_error]

theorem wp_renderCode {code : Option CodeItem} (h : ∀ c, code = some c → c.Inside ∧ c.Fits) :
    wp (item.renderCode fp indent code) fun _ => True := by
  cases code with
  | none => trivial
  | some c =>
    obtain ⟨hin, hfits⟩ := h c rfl
    simp only [DexItem.renderCode, wp_bind]
    refine wp_mono (CodeItem.wp_guardedWalkFrom hfits fun k hk => ?_) fun _ _ => trivial
    exact wp_renderInsn hl hintra hin (hfits k hk)

/-- A listing of code that is cut short faults. -/
theorem fits_of_wp_renderCode (hin : c.Inside) (hshort : ∀ k ∈ c.boundaries, ¬c.Overlong k)
    (h : wp (item.renderCode fp indent (some c)) fun _ => True) : c.Fits := by
  intro last hlast
  by_contra hpast
  have hwalk : c.guardedWalk (item.renderInsn fp indent c) = .error .oob := by
    refine CodeItem.guardedWalkFrom_eq_oob hlast (by omega) (fun k hk hfits => ?_)
      fun hpayload => ?_
    · exact exists_renderInsn hl hintra hin hfits (hshort k hk)
    · exact renderInsn_eq_oob hpayload (by omega)
  rw [DexItem.renderCode, hwalk, bind_error] at h
  exact h

end Lines

/-- The instructions of an accepted code item lie in its image. -/
theorem Verifier.inside_of_verifyCodeItem {v : Verifier} {off : Nat}
    (h : v.verifyCodeItem off = .ok ()) : (v.codeItem off).Inside := by
  unfold verifyCodeItem at h
  simp only [bind_eq_ok, read_eq_ok, failIf_eq_ok] at h
  obtain ⟨⟨⟩, -, code, ⟨-, rfl⟩, -, -, -, -, ⟨⟩, hspan, -⟩ := h
  have hrun : wp (v.checkListSize (v.offsetToPtr off + Code.bytes)
      (codeAt v.image (v.offsetToPtr off)).insnsSize 2 "insns") fun _ =>
        v.offsetToPtr off + Code.bytes + (codeAt v.image (v.offsetToPtr off)).insnsSize * 2 ≤
          v.endOfFile :=
    wp_checkListSize (by decide) fun _ hend => hend
  have hspan := post_of_ok hrun hspan
  have hend := v.endOfFile_le
  change v.offsetToPtr off + Code.bytes +
    2 * (codeAt v.image (v.offsetToPtr off)).insnsSize ≤ v.image.length
  omega

theorem Verifier.fits_of_verifyCodeItem {v : Verifier} {off : Nat} (hstrict : v.checkInsns = true)
    (h : v.verifyCodeItem off = .ok ()) : (v.codeItem off).Fits := by
  intro k hk
  have hwidth := (Verifier.decodes_of_verifyCodeItem hstrict h).width k hk
  have hle := (v.codeItem off).unitsAt_le_width k
  omega

section Caches

/-- What the caches of a listing hold of an accepted dex. -/
structure CachesOk (v : Verifier) (caches : ListingCaches) : Prop where
  codes : CodesOk v caches.codes
  typeDefs : caches.typeDefs.length = v.header.typeIdsSize
  typeDef : ∀ t c : Nat, caches.typeDefs[t]? = some (some c) → c < v.header.classDefsSize
  classDef : ∀ c, c < v.header.classDefsSize →
    caches.typeDefs[(v.classDefView c).classIdx]? = some (some c)
  fieldLists : caches.classFieldIds.length = v.header.typeIdsSize
  field : ∀ (t : Nat) fields, caches.classFieldIds[t]? = some fields →
    ∀ f ∈ fields, f < v.header.fieldIdsSize

variable {v : Verifier} {item : DexItem} {methodHandleCount : Nat}

theorem wp_classDef (hl : Loaded v item) (hintra : v.IntraOk methodHandleCount) {c : Nat}
    {post : ClassDef → Prop} (h : post (v.classDefView c)) :
    wp (item.reader.classDef c) post := by
  rw [Reader.classDef]
  apply wp_sectionAt hl.reader (hl.reader.header ▸ hintra.tables.classDefs)
  intro _
  rw [hl.reader.header]
  exact h

/-- The class_defs before `j`, each under its type. -/
def DefsBefore (v : Verifier) (j : Nat) (defs : List (Option Nat)) : Prop :=
  defs.length = v.header.typeIdsSize ∧ (∀ t c : Nat, defs[t]? = some (some c) → c < j) ∧
    ∀ c < j, defs[(v.classDefView c).classIdx]? = some (some c)

theorem wp_typeDefs (hl : Loaded v item) (hintra : v.IntraOk methodHandleCount)
    (hinter : v.InterOk) : wp item.typeDefs (DefsBefore v v.header.classDefsSize) := by
  unfold DexItem.typeDefs
  rw [hl.reader.header]
  refine wp_loop (DefsBefore v) ⟨List.length_replicate, fun t c ht => ?_, by omega⟩ ?_
  · rw [List.getElem?_replicate] at ht
    split at ht <;> simp at ht
  · rintro c defs hc ⟨hlen, hbefore, hfound⟩
    rw [wp_bind]
    refine wp_classDef hl hintra ?_
    have hcls : (v.classDefView c).classIdx < defs.length := hlen ▸ (hintra.classDef c hc).cls
    rw [wp_bind, vectorAt, List.getElem?_eq_getElem hcls]
    refine ⟨by rw [List.length_set, hlen], fun t d ht => ?_, fun d hd => ?_⟩
    · rw [List.getElem?_set] at ht
      split at ht
      · obtain rfl := Option.some.inj (Option.some.inj ht)
        omega
      · exact Nat.lt_succ_of_lt (hbefore t d ht)
    · rcases Nat.lt_succ_iff_lt_or_eq.mp hd with hlt | rfl
      · have hne : (v.classDefView c).classIdx ≠ (v.classDefView d).classIdx :=
          (hinter.classDefDistinct c d hlt hc).symm
        rw [List.getElem?_set_ne hne]
        exact hfound d hlt
      · exact List.getElem?_set_self hcls

theorem wp_classFieldIds (hl : Loaded v item) (hintra : v.IntraOk methodHandleCount)
    {defs : List (Option Nat)} (hdefs : defs.length = v.header.typeIdsSize) :
    wp (item.classFieldIds defs) fun ids => ids.length = v.header.typeIdsSize ∧
      ∀ (t : Nat) fields, ids[t]? = some fields → ∀ f ∈ fields, f < v.header.fieldIdsSize := by
  simp only [DexItem.classFieldIds, wp_bind, hl.reader.header]
  refine wp_mono (wp_loop (fun j ids => ids.length = v.header.typeIdsSize ∧
    ∀ (t : Nat) fields, ids[t]? = some fields → ∀ f ∈ fields, f < j)
      ⟨List.length_replicate, fun t fields ht => ?_⟩ ?_) fun ids hids => ?_
  · rw [List.getElem?_replicate] at ht
    split at ht
    · obtain rfl := Option.some.inj ht
      exact fun f hf => absurd hf List.not_mem_nil
    · cases ht
  · rintro i ids hi ⟨hlen, hbefore⟩
    rw [wp_bind, fieldId_eq hl hintra hi]
    have hcls : (fieldIdAt v.image (v.fieldIdAddr i)).classIdx < ids.length :=
      hlen ▸ (hintra.field i hi).cls
    rw [wp_except_ok, wp_bind, vectorAt, List.getElem?_eq_getElem hcls]
    refine ⟨by rw [List.length_set, hlen], fun t fields ht f hf => ?_⟩
    rw [List.getElem?_set] at ht
    split at ht
    · obtain rfl := Option.some.inj ht
      rcases List.mem_append.mp hf with hold | hnew
      · exact Nat.lt_succ_of_lt (hbefore _ _ (List.getElem?_eq_getElem hcls) f hold)
      · rw [List.mem_singleton.mp hnew]
        omega
    · exact Nat.lt_succ_of_lt (hbefore t fields ht f hf)
  · obtain ⟨hlen, hbefore⟩ := hids
    refine ⟨by rw [List.length_zipWith, hlen, hdefs, Nat.min_self], fun t fields ht f hf => ?_⟩
    rw [List.getElem?_zipWith] at ht
    split at ht
    next fields' found hfields hfound =>
      obtain rfl := Option.some.inj ht
      split at hf
      · exact hbefore t fields' hfields f hf
      · cases hf
    next => cases ht

theorem cachesOk_of_listingCaches {image : Memory} {headerOff : Nat} {checkInsns : Bool}
    {st : VerifyImageState} {deviations : List String} {caches : ListingCaches}
    (h : Accepted image headerOff checkInsns st v methodHandleCount deviations)
    (hload : loadDexItem image headerOff = .ok item)
    (hcaches : item.listingCaches = .ok caches) : CachesOk v caches := by
  have hl := loaded_of_loadDexItem h hload
  simp only [DexItem.listingCaches, bind_eq_ok] at hcaches
  obtain ⟨codes, hcodes, defs, hdefs, ids, hids, declared, -, hpure⟩ := hcaches
  obtain rfl := Except.ok.inj hpure
  have hdefsOk := post_of_ok (wp_typeDefs hl h.intraOk h.interOk) hdefs
  have hidsOk := post_of_ok (wp_classFieldIds hl h.intraOk hdefsOk.1) hids
  exact ⟨codesOk_of_methodCodes h hload hcodes, hdefsOk.1, hdefsOk.2.1, hdefsOk.2.2, hidsOk.1,
    hidsOk.2⟩

end Caches

end Dexllm
