import Dexllm.FieldSites
import Dexllm.CallSitesSpecs
import Dexllm.Lib.Association

/-!
The rows of a field are its access instructions, each once and in order, whatever
dexes the core moved the lists of its index to.
-/

namespace Dexllm

open Guarded Bytes Keyed LinearSweep Association

namespace CodeItem

variable {c : CodeItem}

theorem enumerateFieldFrom_eq {fuel k : Nat}
    (hpos : ∀ j ∈ sweepFrom c.getBytecodeWidth c.insnsSize fuel k, 0 < c.getBytecodeWidth j) :
    c.enumerateFieldFrom fuel k = (sweepFrom c.getBytecodeWidth c.insnsSize fuel k).flatMap
      fun j => (c.fieldSiteAt j).toList := by
  induction fuel generalizing k with
  | zero => rfl
  | succ fuel ih =>
    unfold enumerateFieldFrom
    unfold sweepFrom at hpos ⊢
    split
    · rename_i hk
      rw [if_pos hk] at hpos
      have hposk := hpos k List.mem_cons_self
      rw [if_neg (by omega), List.flatMap_cons,
        ih fun j hj => hpos j (List.mem_cons_of_mem _ hj)]
    · rfl

theorem enumerateFieldAccessSites_eq (hc : c.Decodes) :
    c.enumerateFieldAccessSites = c.boundaries.filterMap c.fieldSiteAt := by
  rw [List.filterMap_eq_flatMap_toList]
  exact enumerateFieldFrom_eq fun j hj => (hc.width j hj).1

/-- The accesses of a body, in the order of their instructions. -/
theorem mem_fieldSites (hc : c.Decodes) (hsize : c.codeBytes < 2 ^ 32) {writers : Bool} {f : Nat}
    {s : FieldSite} : (s ∈ c.enumerateFieldAccessSites ∧ s.fieldIdx = f ∧
      isFieldReadOpcode s.opcode ≠ writers) ↔
    ∃ k, c.AccessesField writers k f ∧ s = ⟨f, 2 * k, c.opcode k⟩ := by
  have hoff {k : Nat} (hk : k ∈ c.boundaries) : 2 * k % 2 ^ 32 = 2 * k := by
    have hlt := boundary_lt hk
    rw [codeBytes] at hsize
    exact Nat.mod_eq_of_lt (by omega)
  rw [enumerateFieldAccessSites_eq hc, List.mem_filterMap]
  constructor
  · rintro ⟨⟨k, hk, hs⟩, rfl, hdirection⟩
    unfold fieldSiteAt at hs
    split at hs
    · rename_i haccess
      obtain rfl := Option.some.inj hs
      refine ⟨k, ⟨hk, haccess, ?_, rfl⟩, by rw [hoff hk]⟩
      exact Bool.eq_not_of_ne hdirection
    · cases hs
  · rintro ⟨k, ⟨hk, haccess, hdirection, rfl⟩, rfl⟩
    refine ⟨⟨k, hk, ?_⟩, rfl, ?_⟩
    · rw [fieldSiteAt, if_pos haccess, hoff hk]
    · rw [hdirection]
      cases writers <;> decide

/-- They are at different offsets. -/
theorem fieldOffsets_nodup (hc : c.Decodes) (hsize : c.codeBytes < 2 ^ 32) :
    (c.enumerateFieldAccessSites.map fun s => Verifier.toS4 s.bytecodeOffset).Nodup := by
  have hoff {k : Nat} (hk : k ∈ c.boundaries) {s : FieldSite} (hs : c.fieldSiteAt k = some s) :
      s.bytecodeOffset = 2 * k ∧ 2 * k < 2 ^ 32 := by
    have hlt := boundary_lt hk
    rw [codeBytes] at hsize
    unfold fieldSiteAt at hs
    split at hs
    · obtain rfl := Option.some.inj hs
      exact ⟨Nat.mod_eq_of_lt (by omega), by omega⟩
    · cases hs
  have hkeys :
      ((c.boundaries.filterMap c.fieldSiteAt).map fun s => s.bytecodeOffset / 2).Nodup := by
    apply nodup_filterMap
    · intro k hk s hs
      have := hoff hk hs
      omega
    · exact hc.boundaries_pairwise.imp Nat.ne_of_lt
  rw [enumerateFieldAccessSites_eq hc]
  unfold List.Nodup at hkeys ⊢
  rw [List.pairwise_map] at hkeys ⊢
  apply List.Pairwise.imp_of_mem _ hkeys
  intro s s' hs hs' hne heq
  obtain ⟨k, hk, hs⟩ := List.mem_filterMap.mp hs
  obtain ⟨k', hk', hs'⟩ := List.mem_filterMap.mp hs'
  have hlow := hoff hk hs
  have hlow' := hoff hk' hs'
  unfold Verifier.toS4 at heq
  split at heq <;> split at heq <;> omega

end CodeItem

section Operand

theorem fieldFormat_of_access {op : Nat} (h : isFieldAccessOpcode op = true) :
    (getFormatFromOpcode op = .k22c ∨ getFormatFromOpcode op = .k21c) ∧
      getIndexTypeFromOpcode op = .kIndexFieldRef := by
  have hall : ∀ op < 0x6e, isFieldAccessOpcode op = true →
      (getFormatFromOpcode op = .k22c ∨ getFormatFromOpcode op = .k21c) ∧
        getIndexTypeFromOpcode op = .kIndexFieldRef := by
    decide
  have hop : op < 0x6e := by
    simp only [isFieldAccessOpcode, Bool.and_eq_true, decide_eq_true_eq] at h
    omega
  exact hall op hop h

/-- The field index the verifier checks is the second unit. -/
theorem decodeInstruction_field {mem : Memory} {p : Nat} {d : Instruction}
    (hformat : getFormatFromOpcode (opcodeFromBytecode (u2At mem p)) = .k22c ∨
      getFormatFromOpcode (opcodeFromBytecode (u2At mem p)) = .k21c)
    (h : decodeInstruction mem p = .ok d) :
    (if getFormatFromOpcode (opcodeFromBytecode (u2At mem p)) = .k22c ∨
      getFormatFromOpcode (opcodeFromBytecode (u2At mem p)) = .k22cs then d.vC else d.vB) =
        u2At mem (p + 2) := by
  simp only [decodeInstruction, unitAt, bind_eq_ok, readU2, read_eq_ok, Nat.mul_zero,
    Nat.add_zero, Nat.mul_one] at h
  obtain ⟨inst, ⟨-, rfl⟩, h⟩ := h
  rcases hformat with hformat | hformat <;>
  · simp only [hformat, bind_eq_ok, read_eq_ok] at h ⊢
    obtain ⟨index, ⟨-, rfl⟩, h⟩ := h
    cases h
    rfl

/-- An access in a code item the strict verifier accepts names a field of the
table. -/
theorem Verifier.field_lt {v : Verifier} {off k : Nat} (hstrict : v.checkInsns = true)
    (h : v.verifyCodeItem off = .ok ()) (hk : k ∈ (v.codeItem off).boundaries)
    (haccess : isFieldAccessOpcode ((v.codeItem off).opcode k) = true) :
    (v.codeItem off).unit (k + 1) < v.header.fieldIdsSize := by
  obtain ⟨hformat, hindex⟩ := fieldFormat_of_access haccess
  obtain ⟨registersSize, hall⟩ := Verifier.insns_of_verifyCodeItem hstrict h
  have hpayload : isPayload ((v.codeItem off).unit k) = false := by
    by_contra hpay
    have hop : (v.codeItem off).opcode k = 0 := by
      simp only [isPayload, Bool.not_eq_false, Bool.or_eq_true, beq_iff_eq] at hpay
      rcases hpay with (hunit | hunit) | hunit <;> rw [CodeItem.opcode, hunit] <;> rfl
    rw [hop] at haccess
    exact absurd haccess (by decide)
  have hinsn := (hall k hk).2 hpayload
  simp only [Verifier.verifyInsn, bind_eq_ok] at hinsn
  obtain ⟨d, hd, ⟨⟩, -, ⟨⟩, hindices, -⟩ := hinsn
  have hop : opcodeFromBytecode ((v.codeItem off).unit k) = (v.codeItem off).opcode k := rfl
  have hoperand := decodeInstruction_field hformat hd
  have hunit : (v.codeItem off).unit (k + 1) =
      u2At (v.codeItem off).mem ((v.codeItem off).insns + 2 * k + 2) := by
    rw [CodeItem.unit, Nat.mul_add, Nat.mul_one]
    rfl
  simp only [Verifier.verifyIndices, hop, bind_eq_ok] at hindices
  obtain ⟨⟨⟩, -, hindices⟩ := hindices
  rw [hindex] at hindices
  have hlt := failIf_eq_ok.mp hindices
  rw [hunit, ← hoperand]
  exact Nat.lt_of_not_le hlt

end Operand

/-- The parts of a printed field descriptor. -/
structure FieldParts where
  cls : List UInt8
  name : List UInt8
  type : List UInt8

namespace FieldParts

/-- The parts as they are printed: `Class->name:Type`. -/
def text (p : FieldParts) : List UInt8 := p.cls ++ 0x2d :: 0x3e :: (p.name ++ 0x3a :: p.type)

structure WellFormed (p : FieldParts) : Prop where
  cls : IsDescriptor p.cls
  type : IsDescriptor p.type

end FieldParts

theorem MemberByte.ne_colon {b : UInt8} (h : MemberByte b) : b ≠ 0x3a := by
  rintro rfl
  rcases h with h | h <;> exact absurd h (by decide)

theorem IsDescriptor.not_colon {bs : List UInt8} (h : IsDescriptor bs) : 0x3a ∉ bs := by
  obtain ⟨array, core, rfl, hcore⟩ := h
  intro hmem
  rcases List.mem_append.mp hmem with hmem | hmem
  · exact absurd (List.eq_of_mem_replicate hmem) (by decide)
  rcases hcore with ⟨c, rfl, hc⟩ | ⟨name, rfl, hname⟩
  · rw [← List.mem_singleton.mp hmem] at hc
    simp at hc
  · simp only [List.mem_cons, List.mem_append, List.not_mem_nil, or_false] at hmem
    rcases hmem with hmem | hmem | hmem
    · exact absurd hmem (by decide)
    · rcases hname _ hmem with hmember | heq
      · exact hmember.ne_colon rfl
      · exact absurd heq (by decide)
    · exact absurd hmem (by decide)

/-- Well-formed parts can be read off the printed text: the class ends at the
arrow, the type starts behind the last colon. -/
theorem FieldParts.text_injective {p q : FieldParts} (hp : p.WellFormed) (hq : q.WellFormed)
    (heq : p.text = q.text) : p = q := by
  obtain ⟨cls, name, type⟩ := p
  obtain ⟨cls', name', type'⟩ := q
  obtain ⟨hcls, hrest⟩ := descriptors_prefixFree.append_inj hp.cls hq.cls heq
  have hrest : name ++ 0x3a :: type = name' ++ 0x3a :: type' :=
    (List.cons.inj (List.cons.inj hrest).2).2
  have hback : type.reverse ++ 0x3a :: name.reverse = type'.reverse ++ 0x3a :: name'.reverse := by
    have := congrArg List.reverse hrest
    simpa using this
  have hnot {t : List UInt8} (h : IsDescriptor t) : 0x3a ∉ t.reverse := fun hmem =>
    h.not_colon (List.mem_reverse.mp hmem)
  obtain ⟨htype, hname⟩ := Delimited.delimited_inj (hnot hp.type) (hnot hq.type) hback
  obtain rfl : cls = cls' := hcls
  obtain rfl : name = name' := List.reverse_inj.mp hname
  obtain rfl : type = type' := List.reverse_inj.mp htype
  rfl

namespace Verifier

variable {v : Verifier} {i j : Nat}

/-- Fields with the same class, name and type are one field. -/
theorem InterOk.field_unique (h : v.InterOk) (hi : i < v.header.fieldIdsSize)
    (hj : j < v.header.fieldIdsSize)
    (heq : fieldIdAt v.image (v.fieldIdAddr i) = fieldIdAt v.image (v.fieldIdAddr j)) :
    i = j := by
  have hstrict := strict_of_adjacent (r := fun a b =>
    TripleLess (fieldTriple (fieldIdAt v.image (v.fieldIdAddr a)))
      (fieldTriple (fieldIdAt v.image (v.fieldIdAddr b))))
    (fun _ _ _ => TripleLess.trans) h.fieldOrder
  have hirrefl (t : Nat × Nat × Nat) : ¬TripleLess t t := by
    unfold TripleLess
    omega
  rcases Nat.lt_trichotomy i j with hlt | hij | hgt
  · exact absurd (heq ▸ hstrict i j hlt hj) (hirrefl _)
  · exact hij
  · exact absurd (heq ▸ hstrict j i hgt hi) (hirrefl _)

end Verifier

section Item

variable {v : Verifier} {item : DexItem} {methodHandleCount f f' : Nat}
  {text fd cls rest : List UInt8}

/-- The parts of field_id `f`. -/
def fieldPartsOf (item : DexItem) (f : FieldId) : FieldParts :=
  ⟨item.typeNameOrEmpty f.classIdx, item.strings.getD f.nameIdx [], item.typeNameOrEmpty f.typeIdx⟩

variable (hl : Loaded v item) (hintra : v.IntraOk methodHandleCount)
include hl hintra

/-- The strings a field_id names. -/
theorem fieldParts_spec (hf : f < v.header.fieldIdsSize) :
    let id := fieldIdAt v.image (v.fieldIdAddr f)
    item.typeNames[id.classIdx]? = some (fieldPartsOf item id).cls ∧
      item.strings[id.nameIdx]? = some (fieldPartsOf item id).name ∧
      item.typeNames[id.typeIdx]? = some (fieldPartsOf item id).type := by
  have hid := hintra.field f hf
  obtain ⟨name, hname, -⟩ := vectorAt_eq (hl.stringCount ▸ hid.name)
  refine ⟨(hl.typeNameOrEmpty hid.cls).1, ?_, (hl.typeNameOrEmpty hid.type).1⟩
  rw [fieldPartsOf, List.getD_eq_getElem?_getD, hname, Option.getD_some]

theorem buildFieldDescriptor_eq (hf : f < v.header.fieldIdsSize) :
    item.buildFieldDescriptor f =
      .ok (fieldPartsOf item (fieldIdAt v.image (v.fieldIdAddr f))).text := by
  obtain ⟨hcls, hname, htype⟩ := fieldParts_spec hl hintra hf
  rw [DexItem.buildFieldDescriptor, hl.reader.header, if_neg (by omega), fieldId_eq hl hintra hf,
    bind_ok, vectorAt_eq_ok.mpr hcls, bind_ok, vectorAt_eq_ok.mpr hname, bind_ok,
    vectorAt_eq_ok.mpr htype, bind_ok, FieldParts.text]
  simp [pure, Except.pure]

theorem describesField_iff : item.DescribesField f text ↔ f < v.header.fieldIdsSize ∧
    (fieldPartsOf item (fieldIdAt v.image (v.fieldIdAddr f))).text = text := by
  rw [DexItem.DescribesField, hl.reader.header]
  constructor
  · rintro ⟨hf, hbuild⟩
    rw [buildFieldDescriptor_eq hl hintra hf] at hbuild
    exact ⟨hf, Except.ok.inj hbuild⟩
  · rintro ⟨hf, rfl⟩
    exact ⟨hf, buildFieldDescriptor_eq hl hintra hf⟩

variable (hinter : v.InterOk)
include hinter

theorem fieldParts_wellFormed (hf : f < v.header.fieldIdsSize) :
    (fieldPartsOf item (fieldIdAt v.image (v.fieldIdAddr f))).WellFormed := by
  obtain ⟨hcls, -, htype⟩ := fieldParts_spec hl hintra hf
  have hdesc {i : Nat} {bs : List UInt8} (hget : item.typeNames[i]? = some bs) :
      IsDescriptor bs :=
    hinter.isDescriptor hintra (hl.typeName_lt hget) (hl.typeName_text hget)
  exact ⟨hdesc hcls, hdesc htype⟩

/-- Two fields of a dex that print alike are one. -/
theorem describesField_unique (h : item.DescribesField f text)
    (h' : item.DescribesField f' text) : f = f' := by
  obtain ⟨hf, htext⟩ := (describesField_iff hl hintra).mp h
  obtain ⟨hf', htext'⟩ := (describesField_iff hl hintra).mp h'
  have hparts := FieldParts.text_injective (fieldParts_wellFormed hl hintra hinter hf)
    (fieldParts_wellFormed hl hintra hinter hf') (htext.trans htext'.symm)
  obtain ⟨hcls, hname, htype⟩ := fieldParts_spec hl hintra hf
  obtain ⟨hcls', hname', htype'⟩ := fieldParts_spec hl hintra hf'
  rw [hparts] at hcls hname htype
  have hsame := hl.typeName_unique hinter hcls hcls'
  have hsameName := hinter.identifier_unique (.field f hf rfl) (.field f' hf' rfl)
    (hl.string _ _ hname) (hl.string _ _ hname')
  have hsameType := hl.typeName_unique hinter htype htype'
  apply hinter.field_unique hf hf'
  cases hid : fieldIdAt v.image (v.fieldIdAddr f)
  cases hid' : fieldIdAt v.image (v.fieldIdAddr f')
  rw [hid, hid'] at hsame hsameName hsameType
  simp only at hsame hsameName hsameType
  rw [hsame, hsameName, hsameType]

/-- The class of a printed field ends at its first arrow. -/
theorem splitArrow_field (h : item.DescribesField f text) : ∃ rest, splitArrow text =
    some ((fieldPartsOf item (fieldIdAt v.image (v.fieldIdAddr f))).cls, rest) := by
  obtain ⟨hf, rfl⟩ := (describesField_iff hl hintra).mp h
  have hwell := fieldParts_wellFormed hl hintra hinter hf
  exact ⟨_, splitArrow_append fun hmem => hwell.cls.not_punctuation hmem (by decide)⟩

/-- The field loop finds the first field that prints as the descriptor. -/
theorem findField_eq (hsplit : splitArrow fd = some (cls, rest)) (fids : List Nat)
    (hfids : ∀ i ∈ fids, i < v.header.fieldIdsSize) :
    item.findField cls fd fids = .ok (fids.find? fun i =>
      (fieldPartsOf item (fieldIdAt v.image (v.fieldIdAddr i))).text = fd) := by
  induction fids with
  | nil => rfl
  | cons i fids ih =>
    have hi := hfids i List.mem_cons_self
    have hrest := ih fun j hj => hfids j (List.mem_cons_of_mem i hj)
    have hcls := (fieldParts_spec hl hintra hi).1
    have hbuild := buildFieldDescriptor_eq hl hintra hi
    rw [DexItem.findField, fieldId_eq hl hintra hi, bind_ok, List.find?_cons, hcls, hbuild,
      bind_ok, hrest]
    by_cases htext : (fieldPartsOf item (fieldIdAt v.image (v.fieldIdAddr i))).text = fd
    · obtain ⟨rest', hsplit'⟩ := splitArrow_field hl hintra hinter
        ((describesField_iff hl hintra).mpr ⟨hi, htext⟩)
      have hsame := (Prod.mk.inj (Option.some.inj (hsplit'.symm.trans hsplit))).1
      simp [hsame, htext, pure, Except.pure]
    · simp [htext]

/-- Looking a descriptor up in a dex finds the field that prints as it, if there is
one. -/
theorem findField_spec (hsplit : splitArrow fd = some (cls, rest)) :
    ∃ r, item.findField cls fd (List.range item.reader.header.fieldIdsSize) = .ok r ∧
      ∀ f, r = some f ↔ item.DescribesField f fd := by
  have hlt {i : Nat} (hi : i ∈ List.range item.reader.header.fieldIdsSize) :
      i < v.header.fieldIdsSize := by
    rw [hl.reader.header] at hi
    exact List.mem_range.mp hi
  refine ⟨_, findField_eq hl hintra hinter hsplit _ fun i hi => hlt hi, fun f => ?_⟩
  have hfound {f : Nat} (h : (List.range item.reader.header.fieldIdsSize).find? (fun i =>
      (fieldPartsOf item (fieldIdAt v.image (v.fieldIdAddr i))).text = fd) = some f) :
      item.DescribesField f fd := by
    have htext := List.find?_some h
    rw [decide_eq_true_eq] at htext
    exact (describesField_iff hl hintra).mpr ⟨hlt (List.mem_of_find?_eq_some h), htext⟩
  refine ⟨hfound, fun h => ?_⟩
  obtain ⟨hf, htext⟩ := (describesField_iff hl hintra).mp h
  cases hfind : (List.range item.reader.header.fieldIdsSize).find? (fun i =>
      (fieldPartsOf item (fieldIdAt v.image (v.fieldIdAddr i))).text = fd) with
  | none =>
    have hnone := List.find?_eq_none.mp hfind f (List.mem_range.mpr h.1)
    exact absurd (decide_eq_true htext) hnone
  | some f' => rw [describesField_unique hl hintra hinter (hfound hfind) h]

end Item

/-- The body of a method is a code item the verifier accepted. -/
theorem codeItem_of_getMethodCode {v : Verifier} {item : DexItem} {codes : List (Option Nat)}
    (hl : Loaded v item) (hcodes : CodesOk v codes) {m : Nat} {c : CodeItem}
    (hcode : item.getMethodCode codes m = some c) :
    ∃ off, v.verifyCodeItem off = .ok () ∧ c = v.codeItem off := by
  unfold DexItem.getMethodCode at hcode
  obtain ⟨a, ha, hitemCode⟩ := Option.map_eq_some_iff.mp hcode
  have hget : codes[m]? = some (some a) := by
    rw [List.getD_eq_getElem?_getD] at ha
    cases hm : codes[m]? with
    | none => simp [hm] at ha
    | some code =>
      rw [hm, Option.getD_some] at ha
      rw [ha]
  obtain ⟨off, rfl, haccept⟩ := hcodes.2 m a hget
  refine ⟨off, haccept, ?_⟩
  rw [← hitemCode, DexItem.codeItem, Verifier.codeItem, hl.reader.image]

section Session

variable {kit : DexKit} {codes : MethodCodes} {accessors : AccessorIds} {writers : Bool}
  {fd : List UInt8} {locs : List (Nat × Nat)} (h : CodeSession kit codes)
include h

theorem CodeSession.field_unique {dexId f f' : Nat} {item : DexItem} {text : List UInt8}
    (hitem : kit.dexItems[dexId]? = some item) (hf : item.DescribesField f text)
    (hf' : item.DescribesField f' text) : f = f' := by
  obtain ⟨v, methodHandleCount, hl, hintra, hinter, -, -⟩ := h.checked hitem
  exact describesField_unique hl hintra hinter hf hf'

/-- An accessed field is one of the table, and prints. -/
theorem CodeSession.accessed {o m g : Nat} (haccess : kit.Accesses codes writers o m g) :
    ∃ item text, kit.dexItems[o]? = some item ∧ m < item.reader.header.methodIdsSize ∧
      item.DescribesField g text := by
  obtain ⟨item, c, k, hitem, hcode, hk⟩ := haccess
  have hm := (h.code hitem hcode).2.2.1
  obtain ⟨v, methodHandleCount, hl, hintra, -, ⟨image, headerOff, hopen⟩, hcodes⟩ :=
    h.checked hitem
  have hstrict : v.checkInsns = true := (post_of_ok (wp_openVerifier _ _ _) hopen).2.2.2
  obtain ⟨off, haccept, rfl⟩ := codeItem_of_getMethodCode hl hcodes hcode
  have hg := Verifier.field_lt hstrict haccept hk.instruction hk.access
  rw [hk.operand] at hg
  exact ⟨item, _, hitem, hm, (describesField_iff hl hintra).mpr ⟨hg, rfl⟩⟩

theorem locateFields_spec (fd : List UInt8) : ∃ locs, kit.locateFields fd = .ok locs ∧
    (∀ i f, (i, f) ∈ locs ↔ kit.HasField fd i f) ∧ (locs.map (·.1)).Nodup := by
  have hitems {i : Nat} (hi : i < kit.dexItems.length) :
      kit.dexItems[i]? = some kit.dexItems[i] := List.getElem?_eq_getElem hi
  unfold DexKit.locateFields
  cases hsplit : splitArrow fd with
  | none =>
    refine ⟨[], rfl, fun i f => ⟨fun hmem => (List.not_mem_nil hmem).elim, ?_⟩, List.nodup_nil⟩
    rintro ⟨item, hitem, hf⟩
    obtain ⟨v, methodHandleCount, hl, hintra, hinter, -, -⟩ := h.checked hitem
    obtain ⟨rest, hsome⟩ := splitArrow_field hl hintra hinter hf
    cases hsplit.symm.trans hsome
  | some parts =>
    obtain ⟨cls, rest⟩ := parts
    have hfind {i : Nat} (hi : i < kit.dexItems.length) : ∃ r,
        (do
          let item ← vectorAt kit.dexItems i
          let fid ← item.findField cls fd (List.range item.reader.header.fieldIdsSize)
          pure (fid.map fun fid => (i, fid))) = .ok r ∧
        ∀ loc, r = some loc ↔ loc.1 = i ∧ kit.HasField fd loc.1 loc.2 := by
      obtain ⟨v, methodHandleCount, hl, hintra, hinter, -, -⟩ := h.checked (hitems hi)
      obtain ⟨r, hr, hfound⟩ := findField_spec hl hintra hinter hsplit
      refine ⟨r.map fun f => (i, f), ?_, fun loc => ?_⟩
      · rw [vectorAt_eq_ok.mpr (hitems hi), bind_ok, hr]
        rfl
      · rw [Option.map_eq_some_iff]
        constructor
        · rintro ⟨f, hf, rfl⟩
          exact ⟨rfl, _, hitems hi, (hfound f).mp hf⟩
        · obtain ⟨o, f⟩ := loc
          rintro ⟨rfl, item, hitem, hf⟩
          obtain rfl := Option.some.inj ((hitems hi).symm.trans hitem)
          exact ⟨f, (hfound f).mpr hf, rfl⟩
    obtain ⟨g, hg, hrun⟩ := exists_mapM fun i (hi : i ∈ List.range kit.dexItems.length) => by
      obtain ⟨r, hr, -⟩ := hfind (List.mem_range.mp hi)
      exact ⟨r, hr⟩
    have hspec {i : Nat} (hi : i ∈ List.range kit.dexItems.length) (loc : Nat × Nat) :
        g i = some loc ↔ loc.1 = i ∧ kit.HasField fd loc.1 loc.2 := by
      obtain ⟨r, hr, hiff⟩ := hfind (List.mem_range.mp hi)
      rw [hg i hi] at hr
      rw [Except.ok.inj hr]
      exact hiff loc
    refine ⟨(List.range kit.dexItems.length).filterMap g, ?_, fun i f => ?_, ?_⟩
    · simp only [hrun, bind_ok, List.filterMap_map]
      rfl
    · rw [List.mem_filterMap]
      constructor
      · rintro ⟨j, hj, hloc⟩
        exact ((hspec hj (i, f)).mp hloc).2
      · rintro ⟨item, hitem, hf⟩
        obtain ⟨hi, -⟩ := List.getElem?_eq_some_iff.mp hitem
        have hi := List.mem_range.mpr hi
        exact ⟨i, hi, (hspec hi (i, f)).mpr ⟨rfl, item, hitem, hf⟩⟩
    · exact nodup_filterMap (fun i hi loc hloc => ((hspec hi loc).mp hloc).1) List.nodup_range

/-- The rows of a method are the rows of the session that lie in it. -/
theorem accessorRows_spec (hlocs : ∀ o f, locs.lookup o = some f ↔ kit.HasField fd o f)
    {o m : Nat} {item : DexItem} (hitem : kit.dexItems[o]? = some item)
    (hm : m < item.reader.header.methodIdsSize) :
    ∃ rows, kit.accessorRows codes locs fd writers (o, m) = .ok rows ∧
      (∀ row, row ∈ rows ↔ (row.dexId, row.methodIdx) = (o, m) ∧
        kit.RowOf codes writers fd row) ∧
      (rows.map (·.place)).Nodup := by
  unfold DexKit.accessorRows
  cases hlocal : locs.lookup o with
  | none =>
    refine ⟨[], by rw [hitem]; rfl, fun row => ?_, List.nodup_nil⟩
    refine ⟨fun hmem => (List.not_mem_nil hmem).elim, ?_⟩
    rintro ⟨heq, item', c, k, f, hitem', -, -, hf, -⟩
    rw [(Prod.mk.inj heq).1] at hitem'
    rw [(hlocs o f).mpr ⟨item', hitem', hf⟩] at hlocal
    cases hlocal
  | some own =>
    obtain ⟨item', hitem', hown⟩ := (hlocs o own).mp hlocal
    obtain rfl := Option.some.inj (hitem.symm.trans hitem')
    obtain ⟨text, htext⟩ := h.describes hitem hm
    obtain ⟨shadowed, hshadowed⟩ : ∃ b, kit.isShadowedMethod o item m = .ok b := by
      obtain ⟨v, methodHandleCount, hl, hintra, hinter, -, -⟩ := h.checked hitem
      exact ⟨_, h.shadowed hitem htext (parse_of_describes hl hintra hinter htext)⟩
    refine ⟨_, by rw [hitem]; simp only [htext.2, hshadowed, bind_ok]; rfl, fun row => ?_, ?_⟩
    · rw [List.mem_map]
      constructor
      · rintro ⟨s, hs, rfl⟩
        obtain ⟨hs, hkept⟩ := List.mem_filter.mp hs
        unfold DexKit.sitesOf at hs
        split at hs
        · simp at hs
        · rename_i c hcode
          obtain ⟨hc, hsize, -⟩ := h.code hitem hcode
          obtain ⟨k, hk, rfl⟩ :=
            (CodeItem.mem_fieldSites hc hsize).mp ⟨hs, (of_decide_eq_true hkept)⟩
          exact ⟨rfl, item, c, k, own, hitem, hcode, hk, hown, htext, hshadowed, rfl, rfl, rfl⟩
      · obtain ⟨methodDesc, dexId, methodIdx, fieldDesc, offset, opcode, shadow⟩ := row
        rintro ⟨heq, owner, c, k, f, howner, hcode, hk, hf, hdesc, hshadow, hfield, hoffset, hop⟩
        obtain ⟨rfl, rfl⟩ := Prod.mk.inj heq
        obtain rfl : item = owner := Option.some.inj (hitem.symm.trans howner)
        obtain rfl := h.field_unique hitem hf hown
        obtain rfl : methodDesc = text := Except.ok.inj (hdesc.2.symm.trans htext.2)
        obtain rfl : shadow = shadowed := Except.ok.inj (hshadow.symm.trans hshadowed)
        obtain ⟨hc, hsize, -⟩ := h.code hitem hcode
        obtain ⟨hmem, hkept⟩ := (CodeItem.mem_fieldSites hc hsize).mpr ⟨k, hk, rfl⟩
        refine ⟨⟨f, 2 * k, c.opcode k⟩, List.mem_filter.mpr ⟨?_, decide_eq_true hkept⟩, ?_⟩
        · simp only [DexKit.sitesOf, hcode]
          exact hmem
        · simp only at hfield hoffset hop
          rw [hfield, hoffset, hop]
    · have hoffsets : ((DexKit.sitesOf codes CodeItem.enumerateFieldAccessSites item o m).map
          fun s => Verifier.toS4 s.bytecodeOffset).Nodup := by
        unfold DexKit.sitesOf
        split
        · exact List.nodup_nil
        · rename_i c hcode
          obtain ⟨hc, hsize, -⟩ := h.code hitem hcode
          exact CodeItem.fieldOffsets_nodup hc hsize
      apply List.Nodup.of_map (fun p : Nat × Nat × Int => p.2.2)
      rw [List.map_map, List.map_map]
      exact hoffsets.sublist (List.filter_sublist.map _)

/-- The rows of the methods that one list of the index has. -/
theorem locationRows_spec (hlocs : ∀ o f, locs.lookup o = some f ↔ kit.HasField fd o f) {i f : Nat}
    (hinside : ∀ o m, (o, m) ∈ (accessors i).getD f [] → ∃ item, kit.dexItems[o]? = some item ∧
      m < item.reader.header.methodIdsSize) :
    ∃ rows, kit.locationRows codes accessors locs fd writers (i, f) = .ok rows ∧
      (∀ row, row ∈ rows ↔ (row.dexId, row.methodIdx) ∈ (accessors i).getD f [] ∧
        kit.RowOf codes writers fd row) ∧
      (rows.map (·.place)).Nodup := by
  have hsorted {acc : Nat × Nat} : acc ∈ DexKit.sortedCallers accessors i f ↔
      acc ∈ (accessors i).getD f [] := by
    rw [DexKit.sortedCallers, List.mem_insertionSort, List.mem_dedup]
  unfold DexKit.locationRows
  split
  · rename_i hpast
    have hnone : (accessors i).getD f [] = [] := List.getD_eq_default _ _ hpast
    refine ⟨[], rfl, fun row => ⟨fun hmem => (List.not_mem_nil hmem).elim, ?_⟩, List.nodup_nil⟩
    rintro ⟨hmem, -⟩
    rw [hnone] at hmem
    exact (List.not_mem_nil hmem).elim
  have hbody (acc : Nat × Nat) (hacc : acc ∈ DexKit.sortedCallers accessors i f) :
      ∃ rows, kit.accessorRows codes locs fd writers acc = .ok rows ∧
        (∀ row, row ∈ rows ↔ (row.dexId, row.methodIdx) = acc ∧
          kit.RowOf codes writers fd row) ∧
        (rows.map (·.place)).Nodup := by
    obtain ⟨o, m⟩ := acc
    obtain ⟨item, hitem, hm⟩ := hinside o m (hsorted.mp hacc)
    exact accessorRows_spec h hlocs hitem hm
  obtain ⟨g, hg, hrun⟩ := exists_mapM fun acc hacc => by
    obtain ⟨rows, hrows, -⟩ := hbody acc hacc
    exact ⟨rows, hrows⟩
  have hspec {acc : Nat × Nat} (hacc : acc ∈ DexKit.sortedCallers accessors i f) :
      (∀ row, row ∈ g acc ↔ (row.dexId, row.methodIdx) = acc ∧
        kit.RowOf codes writers fd row) ∧ ((g acc).map (·.place)).Nodup := by
    obtain ⟨rows, hrows, hmem, hnodup⟩ := hbody acc hacc
    rw [hg acc hacc] at hrows
    rw [Except.ok.inj hrows]
    exact ⟨hmem, hnodup⟩
  refine ⟨(DexKit.sortedCallers accessors i f).flatMap g, ?_, fun row => ?_, ?_⟩
  · simp only [hrun, bind_ok, List.flatMap_def]
    rfl
  · rw [List.mem_flatMap]
    constructor
    · rintro ⟨acc, hacc, hrow⟩
      obtain ⟨rfl, hexact⟩ := ((hspec hacc).1 row).mp hrow
      exact ⟨hsorted.mp hacc, hexact⟩
    · rintro ⟨hacc, hrow⟩
      exact ⟨_, hsorted.mpr hacc, ((hspec (hsorted.mpr hacc)).1 row).mpr ⟨rfl, hrow⟩⟩
  · have hnodup : (DexKit.sortedCallers accessors i f).Nodup :=
      ((List.perm_insertionSort _ _).nodup_iff).mpr (List.nodup_dedup _)
    rw [List.map_flatMap, List.nodup_flatMap]
    refine ⟨fun acc hacc => (hspec hacc).2, ?_⟩
    apply List.Pairwise.imp_of_mem _ hnodup
    intro acc acc' hacc hacc' hne place hplace hplace'
    obtain ⟨row, hrow, rfl⟩ := List.mem_map.mp hplace
    obtain ⟨row', hrow', heq⟩ := List.mem_map.mp hplace'
    obtain ⟨hdex, hrest⟩ := Prod.mk.inj heq
    apply hne
    rw [← (((hspec hacc).1 row).mp hrow).1, ← (((hspec hacc').1 row').mp hrow').1, hdex,
      (Prod.mk.inj hrest).1]

omit h in
theorem FieldAccessSite.before_iff {a b : FieldAccessSite} : a.before b = true ↔
    a.dexId < b.dexId ∨ a.dexId = b.dexId ∧ (a.methodIdx < b.methodIdx ∨
      a.methodIdx = b.methodIdx ∧ a.bytecodeOffset < b.bytecodeOffset) := by
  simp [FieldAccessSite.before]

omit h in
/-- Rows at different places, sorted, are in strict order. -/
theorem strict_of_sorted {rows : List FieldAccessSite} (hplaces : (rows.map (·.place)).Nodup) :
    (rows.insertionSort fun a b => b.before a = false).Pairwise
      fun a b => a.before b = true := by
  have htotal : Std.Total fun a b : FieldAccessSite => b.before a = false := by
    refine ⟨fun a b => ?_⟩
    simp only [← Bool.not_eq_true, FieldAccessSite.before_iff]
    omega
  have htrans : IsTrans FieldAccessSite fun a b => b.before a = false := by
    refine ⟨fun a b c => ?_⟩
    simp only [← Bool.not_eq_true, FieldAccessSite.before_iff]
    omega
  have hsorted := List.pairwise_insertionSort (fun a b => b.before a = false) rows
  have hnodup := (((List.perm_insertionSort (fun a b => b.before a = false) rows).map
    (·.place)).nodup_iff).mpr hplaces
  have hboth := hsorted.and (List.pairwise_map.mp hnodup)
  refine hboth.imp fun {a b} hab => ?_
  obtain ⟨hle, hne⟩ := hab
  rw [← Bool.not_eq_true, FieldAccessSite.before_iff] at hle
  rw [FieldAccessSite.before_iff]
  have hapart : ¬(a.dexId = b.dexId ∧ a.methodIdx = b.methodIdx ∧
      a.bytecodeOffset = b.bytecodeOffset) := by
    rintro ⟨hdex, hmethod, hoffset⟩
    apply hne
    rw [FieldAccessSite.place, FieldAccessSite.place, hdex, hmethod, hoffset]
  omega

/-- The query lists exactly the rows of the field's accesses. -/
theorem fieldAccessSites_exact (hindex : AccessorIndex kit codes writers accessors)
    (fd : List UInt8) :
    kit.RowsExact codes writers fd (kit.fieldAccessSites codes accessors fd writers) := by
  obtain ⟨home, hhome, hlists⟩ := hindex.moved
  obtain ⟨locs, hrun, hmem, hkeys⟩ := locateFields_spec h fd
  have hlocs (o f : Nat) : locs.lookup o = some f ↔ kit.HasField fd o f := by
    rw [← hmem]
    exact ⟨mem_of_lookup, lookup_of_mem hkeys⟩
  have hinside (i f o m : Nat) (hacc : (o, m) ∈ (accessors i).getD f []) :
      ∃ item, kit.dexItems[o]? = some item ∧ m < item.reader.header.methodIdsSize := by
    obtain ⟨g, -, haccess⟩ := (hlists i f o m).mp hacc
    obtain ⟨item, text, hitem, hm, -⟩ := h.accessed haccess
    exact ⟨item, hitem, hm⟩
  obtain ⟨g, hg, hwalk⟩ := exists_mapM fun loc (_ : loc ∈ locs) => by
    obtain ⟨rows, hrows, -⟩ := @locationRows_spec _ _ accessors writers fd locs h hlocs loc.1 loc.2
      (hinside loc.1 loc.2)
    exact ⟨rows, hrows⟩
  have hspec {loc : Nat × Nat} (hloc : loc ∈ locs) :
      (∀ row, row ∈ g loc ↔ (row.dexId, row.methodIdx) ∈ (accessors loc.1).getD loc.2 [] ∧
        kit.RowOf codes writers fd row) ∧ ((g loc).map (·.place)).Nodup := by
    obtain ⟨rows, hrows, hmem, hnodup⟩ := @locationRows_spec _ _ accessors writers fd locs h hlocs
      loc.1 loc.2 (hinside loc.1 loc.2)
    rw [hg loc hloc] at hrows
    rw [Except.ok.inj hrows]
    exact ⟨hmem, hnodup⟩
  -- the list of a field that prints as `fd` has accesses of such fields only
  have hlisted {i f o m : Nat} (hloc : (i, f) ∈ locs) (hacc : (o, m) ∈ (accessors i).getD f []) :
      ∃ own, kit.HasField fd o own ∧ home o own = (i, f) := by
    obtain ⟨own, hgone, haccess⟩ := (hlists i f o m).mp hacc
    obtain ⟨item, text, hitem, -, htext⟩ := h.accessed haccess
    obtain ⟨target, htarget, htext'⟩ := hhome o own text ⟨item, hitem, htext⟩
    rw [hgone] at htarget htext'
    obtain ⟨target', htarget', hfd⟩ := (hmem i f).mp hloc
    obtain rfl := Option.some.inj (htarget.symm.trans htarget')
    obtain rfl : text = fd := Except.ok.inj (htext'.2.symm.trans hfd.2)
    exact ⟨own, ⟨item, hitem, htext⟩, hgone⟩
  have hrows (row : FieldAccessSite) :
      row ∈ locs.flatMap g ↔ kit.RowOf codes writers fd row := by
    rw [List.mem_flatMap]
    constructor
    · rintro ⟨loc, hloc, hrow⟩
      exact (((hspec hloc).1 row).mp hrow).2
    · intro hrow
      obtain ⟨item, c, k, own, hitem, hcode, hk, hown, -⟩ := id hrow
      have hmoved := (hmem _ _).mpr (hhome _ own fd ⟨item, hitem, hown⟩)
      have haccess := (hlists _ _ row.dexId row.methodIdx).mpr
        ⟨own, rfl, item, c, k, hitem, hcode, hk⟩
      exact ⟨_, hmoved, ((hspec hmoved).1 row).mpr ⟨haccess, hrow⟩⟩
  have hplaces : ((locs.flatMap g).map (·.place)).Nodup := by
    rw [List.map_flatMap, List.nodup_flatMap]
    refine ⟨fun loc hloc => (hspec hloc).2, ?_⟩
    apply List.Pairwise.imp_of_mem _ (List.Nodup.of_map _ hkeys)
    intro loc loc' hloc hloc' hne place hplace hplace'
    obtain ⟨row, hrow, rfl⟩ := List.mem_map.mp hplace
    obtain ⟨row', hrow', heq⟩ := List.mem_map.mp hplace'
    obtain ⟨own, ⟨item, hitem, hown⟩, hgone⟩ :=
      hlisted hloc (((hspec hloc).1 row).mp hrow).1
    obtain ⟨own', ⟨item', hitem', hown'⟩, hgone'⟩ :=
      hlisted hloc' (((hspec hloc').1 row').mp hrow').1
    obtain ⟨hdex, -⟩ := Prod.mk.inj heq
    rw [hdex] at hitem' hgone'
    obtain rfl := Option.some.inj (hitem.symm.trans hitem')
    obtain rfl := h.field_unique hitem hown hown'
    exact hne (hgone.symm.trans hgone')
  refine ⟨_, by rw [DexKit.fieldAccessSites, hrun, bind_ok, hwalk, bind_ok]; rfl, ?_, fun row => ?_⟩
  · rw [← List.flatMap_def]
    exact strict_of_sorted hplaces
  · rw [List.mem_insertionSort, ← List.flatMap_def]
    exact hrows row

/-- The rows of the two field queries are exactly the access instructions, in every
session of strictly verified dexes. -/
theorem field_rows_exact {reads writes : AccessorIds} (hreads : AccessorIndex kit codes false reads)
    (hwrites : AccessorIndex kit codes true writes) (fd : List UInt8) :
    kit.RowsExact codes false fd (kit.findFieldReadSites codes reads fd) ∧
      kit.RowsExact codes true fd (kit.findFieldWriteSites codes writes fd) :=
  ⟨fieldAccessSites_exact h hreads fd, fieldAccessSites_exact h hwrites fd⟩

/-- The accesses, by the walk of the query. -/
theorem CodeSession.accesses_iff {o m g : Nat} : kit.Accesses codes writers o m g ↔
    ∃ item, kit.dexItems[o]? = some item ∧
      ∃ s ∈ DexKit.sitesOf codes CodeItem.enumerateFieldAccessSites item o m,
        s.fieldIdx = g ∧ isFieldReadOpcode s.opcode ≠ writers := by
  constructor
  · rintro ⟨item, c, k, hitem, hcode, hk⟩
    obtain ⟨hc, hsize, -⟩ := h.code hitem hcode
    obtain ⟨hs, hkept⟩ := (CodeItem.mem_fieldSites hc hsize).mpr ⟨k, hk, rfl⟩
    refine ⟨item, hitem, _, ?_, hkept⟩
    simp only [DexKit.sitesOf, hcode]
    exact hs
  · rintro ⟨item, hitem, s, hs, hkept⟩
    unfold DexKit.sitesOf at hs
    split at hs
    · simp at hs
    · rename_i c hcode
      obtain ⟨hc, hsize, -⟩ := h.code hitem hcode
      obtain ⟨k, hk, -⟩ := (CodeItem.mem_fieldSites hc hsize).mp ⟨hs, hkept⟩
      exact ⟨item, c, k, hitem, hcode, hk⟩

end Session

/-- A class whose method `a()V` reads and writes its field `a`. -/
def fieldDex : Memory := [
  100, 101, 120, 10, 48, 51, 53, 0, 0, 0, 0, 0, 0, 0, 0, 0, 0, 0, 0, 0, 0, 0, 0, 0,
  0, 0, 0, 0, 0, 0, 0, 0, 84, 1, 0, 0, 112, 0, 0, 0, 120, 86, 52, 18, 0, 0, 0, 0,
  0, 0, 0, 0, 240, 0, 0, 0, 3, 0, 0, 0, 112, 0, 0, 0, 2, 0, 0, 0, 124, 0, 0, 0,
  1, 0, 0, 0, 132, 0, 0, 0, 1, 0, 0, 0, 144, 0, 0, 0, 1, 0, 0, 0, 152, 0, 0, 0,
  1, 0, 0, 0, 160, 0, 0, 0, 0, 0, 0, 0, 0, 0, 0, 0, 228, 0, 0, 0, 233, 0, 0, 0,
  236, 0, 0, 0, 0, 0, 0, 0, 1, 0, 0, 0, 1, 0, 0, 0, 1, 0, 0, 0, 0, 0, 0, 0,
  0, 0, 0, 0, 2, 0, 0, 0, 0, 0, 0, 0, 2, 0, 0, 0, 0, 0, 0, 0, 1, 0, 0, 0,
  255, 255, 255, 255, 0, 0, 0, 0, 255, 255, 255, 255, 0, 0, 0, 0, 218, 0, 0, 0, 0, 0, 0, 0,
  1, 0, 0, 0, 0, 0, 0, 0, 0, 0, 0, 0, 5, 0, 0, 0, 98, 0, 0, 0, 105, 0, 0, 0,
  14, 0, 1, 0, 1, 0, 0, 8, 0, 8, 192, 1, 3, 76, 65, 59, 0, 1, 86, 0, 1, 97, 0, 0,
  8, 0, 0, 0, 0, 0, 0, 0, 1, 0, 0, 0, 0, 0, 0, 0, 1, 0, 0, 0, 3, 0, 0, 0,
  112, 0, 0, 0, 2, 0, 0, 0, 2, 0, 0, 0, 124, 0, 0, 0, 3, 0, 0, 0, 1, 0, 0, 0,
  132, 0, 0, 0, 4, 0, 0, 0, 1, 0, 0, 0, 144, 0, 0, 0, 5, 0, 0, 0, 1, 0, 0, 0,
  152, 0, 0, 0, 6, 0, 0, 0, 1, 0, 0, 0, 160, 0, 0, 0, 0, 16, 0, 0, 1, 0, 0, 0,
  240, 0, 0, 0]

/-- `LA;->a:LA;`. -/
def ownField : List UInt8 := [0x4c, 0x41, 0x3b, 0x2d, 0x3e, 0x61, 0x3a, 0x4c, 0x41, 0x3b]

/-- The accessor index of `fieldDex`: method 0 accesses field 0. -/
def ownAccessors : AccessorIds := fun i => if i = 0 then [[(0, 0)]] else []

set_option maxRecDepth 20000 in
theorem fieldDex_runs : (verifyDex fieldDex true 0 {}).1.ok = true ∧
    (do
      let (kit, pointers) ← soloKit fieldDex
      let item ← vectorAt kit.dexItems 0
      let rows ← kit.findFieldReadSites (fun _ => pointers) ownAccessors ownField
      pure ((kit.dexItems.length, pointers, (item.codeItem 192).enumerateFieldAccessSites),
        rows)) =
      .ok ((1, [some 192], [⟨0, 0, 0x62⟩, ⟨0, 4, 0x69⟩]),
        [⟨plainMethod, 0, 0, ownField, 0, 0x62, false⟩]) := by
  decide

theorem accessorIndex_fieldDex {kit : DexKit} {pointers : List (Option Nat)} (writers : Bool)
    (hkit : soloKit fieldDex = .ok (kit, pointers)) :
    AccessorIndex kit (fun _ => pointers) writers ownAccessors := by
  obtain ⟨hok, hrun⟩ := fieldDex_runs
  have hsession := codeSession_soloKit hok hkit
  rw [hkit, bind_ok] at hrun
  obtain ⟨item, hitem, hrun⟩ := bind_eq_ok.mp hrun
  obtain ⟨rows, -, hrun⟩ := bind_eq_ok.mp hrun
  obtain ⟨hlength, hrest⟩ := Prod.mk.inj (Prod.mk.inj (Except.ok.inj hrun)).1
  obtain ⟨rfl, hsites⟩ := Prod.mk.inj hrest
  have hitem := vectorAt_eq_ok.mp hitem
  have haccesses {o m g : Nat} : kit.Accesses (fun _ => [some 192]) writers o m g ↔
      o = 0 ∧ m = 0 ∧ g = 0 := by
    rw [hsession.accesses_iff]
    constructor
    · rintro ⟨item', hitem', s, hs, rfl, -⟩
      obtain ⟨ho, -⟩ := List.getElem?_eq_some_iff.mp hitem'
      obtain rfl : o = 0 := by omega
      obtain rfl := Option.some.inj (hitem.symm.trans hitem')
      cases m with
      | zero =>
        have hmem : s ∈ [⟨0, 0, 0x62⟩, ⟨0, 4, 0x69⟩] := hsites ▸ hs
        simp only [List.mem_cons, List.not_mem_nil, or_false] at hmem
        rcases hmem with rfl | rfl <;> exact ⟨rfl, rfl, rfl⟩
      | succ m => simp [DexKit.sitesOf, DexItem.getMethodCode] at hs
    · rintro ⟨rfl, rfl, rfl⟩
      have hmem {s : FieldSite} (hs : s ∈ [(⟨0, 0, 0x62⟩ : FieldSite), ⟨0, 4, 0x69⟩]) :
          s ∈ (item.codeItem 192).enumerateFieldAccessSites := hsites ▸ hs
      cases writers with
      | false => exact ⟨item, hitem, ⟨0, 0, 0x62⟩, hmem (by simp), rfl, by decide⟩
      | true => exact ⟨item, hitem, ⟨0, 4, 0x69⟩, hmem (by simp), rfl, by decide⟩
  refine ⟨fun o f => (o, f), fun o f text hfield => hfield, fun i f o m => ?_⟩
  constructor
  · intro hmem
    unfold ownAccessors at hmem
    split at hmem
    · cases f with
      | zero =>
        obtain ⟨rfl, rfl⟩ := Prod.mk.inj (List.mem_singleton.mp hmem)
        exact ⟨0, by simp [*], haccesses.mpr ⟨rfl, rfl, rfl⟩⟩
      | succ f => simp at hmem
    · simp at hmem
  · rintro ⟨g, hhome, haccess⟩
    obtain ⟨rfl, rfl⟩ := Prod.mk.inj hhome
    obtain ⟨rfl, rfl, rfl⟩ := haccesses.mp haccess
    simp [ownAccessors]

/-- In `fieldDex` the read in the body of `a()V` is found. -/
theorem field_rows_exact_fieldDex : ∃ kit pointers, soloKit fieldDex = .ok (kit, pointers) ∧
    kit.findFieldReadSites (fun _ => pointers) ownAccessors ownField =
      .ok [⟨plainMethod, 0, 0, ownField, 0, 0x62, false⟩] ∧
    kit.RowsExact (fun _ => pointers) false ownField
      (kit.findFieldReadSites (fun _ => pointers) ownAccessors ownField) ∧
    kit.RowsExact (fun _ => pointers) true ownField
      (kit.findFieldWriteSites (fun _ => pointers) ownAccessors ownField) := by
  obtain ⟨hok, hrun⟩ := fieldDex_runs
  obtain ⟨⟨kit, pointers⟩, hkit, hrun⟩ := bind_eq_ok.mp hrun
  obtain ⟨item, -, hrun⟩ := bind_eq_ok.mp hrun
  obtain ⟨rows, hrows, hrun⟩ := bind_eq_ok.mp hrun
  obtain ⟨-, rfl⟩ := Prod.mk.inj (Except.ok.inj hrun)
  exact ⟨kit, pointers, hkit, hrows, field_rows_exact (codeSession_soloKit hok hkit)
    (accessorIndex_fieldDex false hkit) (accessorIndex_fieldDex true hkit) ownField⟩

end Dexllm
