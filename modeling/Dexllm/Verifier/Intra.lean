import Dexllm.Verifier.EncodedSpecs

/-!
`CheckIntraSection`: the structure of every item reachable from the id tables.
`IntraOk` is what it leaves behind for the readers of a verified dex.
-/

namespace Dexllm

open Guarded Bytes Leb128 Mutf8

namespace Verifier

variable (v : Verifier)

/-! The entries of the id tables: the guarded access and the view it returns. -/

def stringDataOffAt (i : Nat) : Nat := u4At v.image (v.tableAt v.header.stringIdsOff i 4)

def descriptorIdxAt (i : Nat) : Nat := u4At v.image (v.tableAt v.header.typeIdsOff i 4)

def protoIdAddr (i : Nat) : Nat := v.tableAt v.header.protoIdsOff i ProtoId.bytes

def fieldIdAddr (i : Nat) : Nat := v.tableAt v.header.fieldIdsOff i FieldId.bytes

def methodIdAddr (i : Nat) : Nat := v.tableAt v.header.methodIdsOff i MethodId.bytes

def classDefAddr (i : Nat) : Nat := v.tableAt v.header.classDefsOff i ClassDef.bytes

def readProtoId (i : Nat) : Run ProtoId := read ProtoId.bytes protoIdAt v.image (v.protoIdAddr i)

def readFieldId (i : Nat) : Run FieldId := read FieldId.bytes fieldIdAt v.image (v.fieldIdAddr i)

def readMethodId (i : Nat) : Run MethodId :=
  read MethodId.bytes methodIdAt v.image (v.methodIdAddr i)

def readClassDef (i : Nat) : Run ClassDef :=
  read ClassDef.bytes classDefAt v.image (v.classDefAddr i)

/-- The proto_id round of `CheckIntraSection`. -/
def checkIntraProtoId (i : Nat) : Run Unit := do
  let pr ← v.readProtoId i
  failIf (v.header.stringIdsSize ≤ pr.shortyIdx) "proto_id.shorty_idx out of range"
  failIf (v.header.typeIdsSize ≤ pr.returnTypeIdx) "proto_id.return_type_idx out of range"
  v.verifyTypeList pr.parametersOff "proto_id"

/-- The field_id round of `CheckIntraSection`. -/
def checkIntraFieldId (i : Nat) : Run Unit := do
  let f ← v.readFieldId i
  failIf (v.header.typeIdsSize ≤ f.classIdx) "field_id.class_idx out of range"
  failIf (v.header.typeIdsSize ≤ f.typeIdx) "field_id.type_idx out of range"
  failIf (v.header.stringIdsSize ≤ f.nameIdx) "field_id.name_idx out of range"

/-- The method_id round of `CheckIntraSection`. -/
def checkIntraMethodId (i : Nat) : Run Unit := do
  let m ← v.readMethodId i
  failIf (v.header.typeIdsSize ≤ m.classIdx) "method_id.class_idx out of range"
  failIf (v.header.protoIdsSize ≤ m.protoIdx) "method_id.proto_idx out of range"
  failIf (v.header.stringIdsSize ≤ m.nameIdx) "method_id.name_idx out of range"

/-- `cd->static_values_off != 0 && !VerifyEncodedArrayAt(...)`. -/
def checkStaticValues (methodHandleCount off : Nat) : Run Unit :=
  onlyIf (off ≠ 0) do
    let _ ← v.verifyEncodedArrayAt methodHandleCount off
    pure ()

/-- The class_def round of `CheckIntraSection`. -/
def checkIntraClassDef (methodHandleCount c : Nat) (seen : SeenAnnotations) :
    Run SeenAnnotations := do
  let cd ← v.readClassDef c
  failIf (v.header.typeIdsSize ≤ cd.classIdx) "class_def.class_idx out of range"
  failIf (cd.superclassIdx ≠ kNoIndex ∧ v.header.typeIdsSize ≤ cd.superclassIdx)
    "class_def.superclass_idx out of range"
  failIf (cd.sourceFileIdx ≠ kNoIndex ∧ v.header.stringIdsSize ≤ cd.sourceFileIdx)
    "class_def.source_file_idx out of range"
  v.verifyTypeList cd.interfacesOff "class_def.interfaces"
  onlyIf (cd.classDataOff ≠ 0) (v.verifyClassData cd.classDataOff)
  v.checkStaticValues methodHandleCount cd.staticValuesOff
  if cd.annotationsOff ≠ 0 then
    v.verifyAnnotationsDirectory methodHandleCount cd.annotationsOff seen
  else pure seen

/-- `CheckIntraSection`. -/
def checkIntraSection (methodHandleCount : Nat) : Run Unit := do
  forUpTo v.header.stringIdsSize fun i => do
    let off ← v.stringDataOff i
    v.verifyStringData off
  forUpTo v.header.typeIdsSize fun i => do
    let descriptor ← v.descriptorIdx i
    failIf (v.header.stringIdsSize ≤ descriptor) "type_id.descriptor_idx out of range"
  forUpTo v.header.protoIdsSize v.checkIntraProtoId
  forUpTo v.header.fieldIdsSize v.checkIntraFieldId
  forUpTo v.header.methodIdsSize v.checkIntraMethodId
  let _ ← loop v.header.classDefsSize {} (v.checkIntraClassDef methodHandleCount)
  pure ()

/-- A proto_id whose indices are in range. -/
structure ProtoIdOk (pr : ProtoId) : Prop where
  shorty : pr.shortyIdx < v.header.stringIdsSize
  returnType : pr.returnTypeIdx < v.header.typeIdsSize
  parameters : pr.parametersOff ≠ 0 →
    TypeListOk v.image v.endOfFile v.header.typeIdsSize (v.offsetToPtr pr.parametersOff)

structure FieldIdOk (f : FieldId) : Prop where
  cls : f.classIdx < v.header.typeIdsSize
  type : f.typeIdx < v.header.typeIdsSize
  name : f.nameIdx < v.header.stringIdsSize

structure MethodIdOk (m : MethodId) : Prop where
  cls : m.classIdx < v.header.typeIdsSize
  proto : m.protoIdx < v.header.protoIdsSize
  name : m.nameIdx < v.header.stringIdsSize

/-- A class_def whose references are in range. -/
structure ClassDefOk (methodHandleCount : Nat) (cd : ClassDef) : Prop where
  cls : cd.classIdx < v.header.typeIdsSize
  superclass : cd.superclassIdx ≠ kNoIndex → cd.superclassIdx < v.header.typeIdsSize
  interfaces : cd.interfacesOff ≠ 0 →
    TypeListOk v.image v.endOfFile v.header.typeIdsSize (v.offsetToPtr cd.interfacesOff)
  classData : cd.classDataOff ≠ 0 → v.offsetToPtr cd.classDataOff < v.endOfFile
  staticValues : cd.staticValuesOff ≠ 0 →
    ∃ r, v.verifyEncodedArrayAt methodHandleCount cd.staticValuesOff = .ok r

/-- What `CheckIntraSection` establishes. -/
structure IntraOk (methodHandleCount : Nat) : Prop where
  tables : v.TablesOk
  string : ∀ i, i < v.header.stringIdsSize → ∃ us, v.StringDataOk (v.stringDataOffAt i) us
  type : ∀ i, i < v.header.typeIdsSize → v.descriptorIdxAt i < v.header.stringIdsSize
  proto : ∀ i, i < v.header.protoIdsSize → v.ProtoIdOk (protoIdAt v.image (v.protoIdAddr i))
  field : ∀ i, i < v.header.fieldIdsSize → v.FieldIdOk (fieldIdAt v.image (v.fieldIdAddr i))
  method : ∀ i, i < v.header.methodIdsSize →
    v.MethodIdOk (methodIdAt v.image (v.methodIdAddr i))
  classDef : ∀ c, c < v.header.classDefsSize →
    v.ClassDefOk methodHandleCount (classDefAt v.image (v.classDefAddr c))

section Specs

variable {v} {methodHandleCount : Nat}

/-- An entry of a table that lies in the data range is there. -/
theorem tableAt_le {off size bytes i : Nat} (htable : off + size * bytes ≤ v.range.size_)
    (hi : i < size) : v.tableAt off i bytes + bytes ≤ v.image.length := by
  have hin := v.range.inImage
  have hentry : (i + 1) * bytes ≤ size * bytes := Nat.mul_le_mul_right bytes hi
  rw [Nat.succ_mul] at hentry
  unfold tableAt
  omega

section Reads

variable (h : v.TablesOk) {i : Nat}

include h

theorem stringDataOff_eq (hi : i < v.header.stringIdsSize) :
    v.stringDataOff i = .ok (v.stringDataOffAt i) := read_of_le (tableAt_le h.strings hi)

theorem descriptorIdx_eq (hi : i < v.header.typeIdsSize) :
    v.descriptorIdx i = .ok (v.descriptorIdxAt i) := read_of_le (tableAt_le h.types hi)

theorem readProtoId_eq (hi : i < v.header.protoIdsSize) :
    v.readProtoId i = .ok (protoIdAt v.image (v.protoIdAddr i)) :=
  read_of_le (tableAt_le h.protos hi)

theorem readFieldId_eq (hi : i < v.header.fieldIdsSize) :
    v.readFieldId i = .ok (fieldIdAt v.image (v.fieldIdAddr i)) :=
  read_of_le (tableAt_le h.fields hi)

theorem readMethodId_eq (hi : i < v.header.methodIdsSize) :
    v.readMethodId i = .ok (methodIdAt v.image (v.methodIdAddr i)) :=
  read_of_le (tableAt_le h.methods hi)

theorem readClassDef_eq (hi : i < v.header.classDefsSize) :
    v.readClassDef i = .ok (classDefAt v.image (v.classDefAddr i)) :=
  read_of_le (tableAt_le h.classDefs hi)

end Reads

theorem wp_checkStaticValues (off : Nat) :
    wp (v.checkStaticValues methodHandleCount off) fun _ => off ≠ 0 →
      ∃ r, v.verifyEncodedArrayAt methodHandleCount off = .ok r := by
  simp only [checkStaticValues, wp_onlyIf, wp_bind, wp_pure]
  refine ⟨fun _ => ?_, fun hoff hne => absurd hne hoff⟩
  have harray := @wp_verifyEncodedArrayAt v methodHandleCount off
  revert harray
  cases v.verifyEncodedArrayAt methodHandleCount off with
  | ok r => exact fun _ _ => ⟨r, rfl⟩
  | error e => exact wp_error

theorem wp_checkIntraClassDef (h : v.TablesOk) {c : Nat} (hc : c < v.header.classDefsSize)
    (seen : SeenAnnotations) :
    wp (v.checkIntraClassDef methodHandleCount c seen) fun _ =>
      v.ClassDefOk methodHandleCount (classDefAt v.image (v.classDefAddr c)) := by
  simp only [checkIntraClassDef, readClassDef_eq h hc, bind_ok, wp_bind, wp_failIf, wp_onlyIf,
    wp_ite, wp_pure]
  generalize classDefAt v.image (v.classDefAddr c) = cd
  intro hcls hsuper _
  refine wp_mono wp_verifyTypeList fun _ hinterfaces => ?_
  have hdone (hdata : cd.classDataOff ≠ 0 → v.offsetToPtr cd.classDataOff < v.endOfFile) :
      wp (v.checkStaticValues methodHandleCount cd.staticValuesOff) fun _ =>
        (cd.annotationsOff ≠ 0 →
          wp (v.verifyAnnotationsDirectory methodHandleCount cd.annotationsOff seen) fun _ =>
            v.ClassDefOk methodHandleCount cd) ∧
        (¬cd.annotationsOff ≠ 0 → v.ClassDefOk methodHandleCount cd) := by
    refine wp_mono (wp_checkStaticValues _) fun _ hstatic => ?_
    have hok : v.ClassDefOk methodHandleCount cd :=
      ⟨by omega, fun hne => by omega, hinterfaces, hdata, hstatic⟩
    refine ⟨fun _ => ?_, fun _ => hok⟩
    exact wp_mono (wp_verifyAnnotationsDirectory _ seen) fun _ _ => hok
  refine ⟨fun _ => ?_, fun hzero => hdone fun hne => absurd hne hzero⟩
  exact wp_mono wp_verifyClassData fun _ hdata => hdone fun _ => hdata.1

/-- `CheckIntraSection` reads only inside the image and establishes
`IntraOk`. -/
theorem wp_checkIntraSection (h : v.TablesOk) :
    wp (v.checkIntraSection methodHandleCount) fun _ => v.IntraOk methodHandleCount := by
  simp only [checkIntraSection, wp_bind, wp_pure]
  have hstring (i : Nat) (hi : i < v.header.stringIdsSize) :
      wp (do let off ← v.stringDataOff i; v.verifyStringData off) fun _ =>
        ∃ us, v.StringDataOk (v.stringDataOffAt i) us := by
    rw [stringDataOff_eq h hi, bind_ok]
    exact wp_verifyStringData
  refine wp_mono (wp_forUpTo hstring) fun _ hstrings => ?_
  have htype (i : Nat) (hi : i < v.header.typeIdsSize) :
      wp (do
        let descriptor ← v.descriptorIdx i
        failIf (v.header.stringIdsSize ≤ descriptor) "type_id.descriptor_idx out of range")
        fun _ => v.descriptorIdxAt i < v.header.stringIdsSize := by
    rw [descriptorIdx_eq h hi, bind_ok, wp_failIf]
    exact Nat.lt_of_not_le
  refine wp_mono (wp_forUpTo htype) fun _ htypes => ?_
  have hproto (i : Nat) (hi : i < v.header.protoIdsSize) :
      wp (v.checkIntraProtoId i) fun _ => v.ProtoIdOk (protoIdAt v.image (v.protoIdAddr i)) := by
    simp only [checkIntraProtoId, readProtoId_eq h hi, bind_ok, wp_bind, wp_failIf]
    intro hshorty hreturn
    exact wp_mono wp_verifyTypeList fun _ hparams => ⟨by omega, by omega, hparams⟩
  refine wp_mono (wp_forUpTo hproto) fun _ hprotos => ?_
  have hfield (i : Nat) (hi : i < v.header.fieldIdsSize) :
      wp (v.checkIntraFieldId i) fun _ => v.FieldIdOk (fieldIdAt v.image (v.fieldIdAddr i)) := by
    simp only [checkIntraFieldId, readFieldId_eq h hi, bind_ok, wp_bind, wp_failIf]
    exact fun hcls htype hname => ⟨by omega, by omega, by omega⟩
  refine wp_mono (wp_forUpTo hfield) fun _ hfields => ?_
  have hmethod (i : Nat) (hi : i < v.header.methodIdsSize) :
      wp (v.checkIntraMethodId i) fun _ =>
        v.MethodIdOk (methodIdAt v.image (v.methodIdAddr i)) := by
    simp only [checkIntraMethodId, readMethodId_eq h hi, bind_ok, wp_bind, wp_failIf]
    exact fun hcls hproto hname => ⟨by omega, by omega, by omega⟩
  refine wp_mono (wp_forUpTo hmethod) fun _ hmethods => ?_
  refine wp_mono (wp_loop (fun j _ => ∀ c, c < j →
    v.ClassDefOk methodHandleCount (classDefAt v.image (v.classDefAddr c))) (by intro c hc; omega)
    ?_) fun _ hclasses => ⟨h, hstrings, htypes, hprotos, hfields, hmethods, hclasses⟩
  intro j seen hj hinv
  refine wp_mono (wp_checkIntraClassDef h hj seen) fun _ hok c hc => ?_
  rcases Nat.lt_succ_iff_lt_or_eq.mp hc with hlt | rfl
  · exact hinv c hlt
  · exact hok

end Specs

end Verifier

end Dexllm
