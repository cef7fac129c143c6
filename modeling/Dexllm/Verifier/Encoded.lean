import Dexllm.Verifier.CodeSpecs
import Dexllm.EncodedValue

/-!
The recursive part of the intra-section checks: encoded values, and the
annotations subtree below a class_def. The value walkers also return the log of
the values they went through, which the code does not keep.
-/

namespace Dexllm

open Guarded Bytes Leb128

/-- The annotation offsets already walked, for each structure. -/
structure SeenAnnotations where
  dir : List Nat := []
  set : List Nat := []
  ref : List Nat := []
  item : List Nat := []
  deriving DecidableEq, Repr

/-- A walker of one encoded_value: the cursor after it and its log. -/
abbrev ValueWalker := Nat → Run (Nat × List ValueVisit)

namespace Verifier

variable (v : Verifier)

/-- `skip`: the cursor after `n` payload bytes. -/
def skipPayload (p n : Nat) : Run Nat := do
  failIf (v.endOfFile - p < n) "encoded_value truncated payload"
  pure (p + n)

/-- `idx`: an `arg + 1` byte little-endian index below `limit`, and the cursor
after it. -/
def readIndex (arg limit : Nat) (what : String) (p : Nat) : Run (Nat × Nat) := do
  failIf (3 < arg) "encoded_value bad index size"
  let (value, p) ← loop (arg + 1) (0, p) fun i (value, p) => do
    failIf (v.endOfFile ≤ p) "encoded_value truncated index"
    let b ← readU1 v.image p
    pure (value ||| (b <<< (8 * i)), p + 1)
  failIf (limit ≤ value) what
  pure (value, p)

/-- `size` encoded values in a row. -/
def verifyElements (value : ValueWalker) (size p : Nat) : Run (Nat × List ValueVisit) :=
  loop size (p, []) fun _ (p, log) => do
    let (p, visits) ← value p
    pure (p, log ++ visits)

/-- `VerifyEncodedAnnotation`, with `value` for the elements one level
deeper. -/
def verifyEncodedAnnotation (value : ValueWalker) (p : Nat) : Run (Nat × List ValueVisit) := do
  let (typeIdx, p) ← v.readUlebOrFail p "encoded_annotation bad type"
  failIf (v.header.typeIdsSize ≤ typeIdx) "encoded_annotation type idx"
  let (size, p) ← v.readUlebOrFail p "encoded_annotation bad size"
  verifyElements (fun p => do
    let (nameIdx, p) ← v.readUlebOrFail p "encoded_annotation bad name"
    failIf (v.header.stringIdsSize ≤ nameIdx) "encoded_annotation name idx"
    value p) size p

/-- The arms of `VerifyEncodedValue` after the header byte: the cursor after
the payload, the index read and the log of the nested values. -/
def verifyPayload (methodHandleCount : Nat) (value : ValueWalker) (type arg p : Nat) :
    Run (Nat × Nat × List ValueVisit) := do
  let plain (n : Nat) : Run (Nat × Nat × List ValueVisit) := do
    let q ← v.skipPayload p n
    pure (q, 0, [])
  let index (limit : Nat) (what : String) : Run (Nat × Nat × List ValueVisit) := do
    let (idx, q) ← v.readIndex arg limit what p
    pure (q, idx, [])
  let nested (walk : Run (Nat × List ValueVisit)) : Run (Nat × Nat × List ValueVisit) := do
    let (q, log) ← walk
    pure (q, 0, log)
  match type with
  | 0x00 => if arg = 0 then plain 1 else fail "encoded byte size"
  | 0x02 | 0x03 => if arg ≤ 1 then plain (arg + 1) else fail "encoded short/char size"
  | 0x04 | 0x10 => if arg ≤ 3 then plain (arg + 1) else fail "encoded int/float size"
  | 0x06 | 0x11 => plain (arg + 1)
  | 0x15 => index v.header.protoIdsSize "encoded method_type idx"
  | 0x16 => index methodHandleCount "encoded method_handle idx"
  | 0x17 => index v.header.stringIdsSize "encoded string idx"
  | 0x18 => index v.header.typeIdsSize "encoded type idx"
  | 0x19 | 0x1b => index v.header.fieldIdsSize "encoded field/enum idx"
  | 0x1a => index v.header.methodIdsSize "encoded method idx"
  | 0x1e => if arg = 0 then pure (p, 0, []) else fail "encoded null arg"
  | 0x1f => if arg ≤ 1 then pure (p, 0, []) else fail "encoded boolean size"
  | 0x1c =>
    if arg = 0 then nested do
      let (size, q) ← v.readUlebOrFail p "encoded_array bad size"
      verifyElements value size q
    else fail "encoded array arg"
  | 0x1d =>
    if arg = 0 then nested ( v.verifyEncodedAnnotation value p)
    else fail "encoded annotation arg"
  | _ => fail "encoded_value bad type code"

/-- `VerifyEncodedValue` with `left` levels below the nesting cap. -/
def verifyEncodedValue (methodHandleCount : Nat) : (left : Nat) → ValueWalker
  | 0, _ => fail "encoded_value nested too deep"
  | left + 1, p => do
    failIf (v.endOfFile ≤ p) "encoded_value truncated header"
    let header ← readU1 v.image p
    let (q, index, log) ← v.verifyPayload methodHandleCount
      (verifyEncodedValue methodHandleCount left) (header &&& 0x1f) (header >>> 5) (p + 1)
    pure (q, ⟨kMaxDepth - left, p, q, header &&& 0x1f, index⟩ :: log)

/-- `VerifyEncodedArrayAt`. -/
def verifyEncodedArrayAt (methodHandleCount off : Nat) : Run (Nat × List ValueVisit) := do
  let p := v.offsetToPtr off
  failIf (v.endOfFile ≤ p) "encoded_array offset out of range"
  let (size, p) ← v.readUlebOrFail p "encoded_array bad size"
  verifyElements (v.verifyEncodedValue methodHandleCount (kMaxDepth + 1)) size p

/-- `AnnotationStructAt`: the address of a 4-aligned structure. -/
def annotationStructAt (off size : Nat) (who : String) : Run Nat := do
  failIf (off &&& 3 ≠ 0) (who ++ ": misaligned offset")
  v.checkListSize (v.offsetToPtr off) 1 size who
  pure (v.offsetToPtr off)

/-- `VerifyAnnotationItem`. -/
def verifyAnnotationItem (methodHandleCount off : Nat) (seen : SeenAnnotations) :
    Run SeenAnnotations :=
  if off ∈ seen.item then pure seen
  else do
    let p := v.offsetToPtr off
    v.checkListSize p 1 1 "annotation_item"
    let vis ← readU1 v.image p
    failIf (vis ≠ 0x00 ∧ vis ≠ 0x01 ∧ vis ≠ 0x02) "Bad annotation visibility"
    let _ ← v.verifyEncodedAnnotation (v.verifyEncodedValue methodHandleCount kMaxDepth) (p + 1)
    pure { seen with item := off :: seen.item }

/-- `VerifyAnnotationSet`. -/
def verifyAnnotationSet (methodHandleCount off : Nat) (seen : SeenAnnotations) :
    Run SeenAnnotations :=
  if off ∈ seen.set then pure seen
  else do
    let p ← v.annotationStructAt off 4 "annotation_set"
    let size ← readU4 v.image p
    v.checkListSize (p + 4) size 4 "annotation_set entries"
    loop size { seen with set := off :: seen.set } fun i seen => do
      let entry ← readU4 v.image (p + 4 + i * 4)
      failIf (entry = 0) "annotation_set entry offset is 0"
      v.verifyAnnotationItem methodHandleCount entry seen

/-- `VerifyAnnotationSetRefList`. An entry of 0 carries no annotations. -/
def verifyAnnotationSetRefList (methodHandleCount off : Nat) (seen : SeenAnnotations) :
    Run SeenAnnotations :=
  if off ∈ seen.ref then pure seen
  else do
    let p ← v.annotationStructAt off 4 "annotation_set_ref_list"
    let size ← readU4 v.image p
    v.checkListSize (p + 4) size 4 "annotation_set_ref_list entries"
    loop size { seen with ref := off :: seen.ref } fun i seen => do
      let entry ← readU4 v.image (p + 4 + i * 4)
      if entry ≠ 0 then v.verifyAnnotationSet methodHandleCount entry seen else pure seen

/-- One of the three member lists of an annotations directory, `n` items from
`p`. -/
def verifyMemberAnnotations (listLabel indexLabel orderReason zeroReason : String)
    (limit : Nat) (verifyAt : Nat → SeenAnnotations → Run SeenAnnotations) (n p : Nat)
    (seen : SeenAnnotations) : Run SeenAnnotations := do
  v.checkListSize p n MemberAnnotationsItem.bytes listLabel
  let (_, seen) ← loop n (0, seen) fun i (last, seen) => do
    let item ← read MemberAnnotationsItem.bytes memberAnnotationsItemAt v.image
      (p + i * MemberAnnotationsItem.bytes)
    checkIndex item.memberIdx limit indexLabel
    failIf (i ≠ 0 ∧ item.memberIdx ≤ last) orderReason
    failIf (item.annotationsOff = 0) zeroReason
    let seen ← verifyAt item.annotationsOff seen
    pure (item.memberIdx, seen)
  pure seen

/-- The class annotations of a directory, the only ones that may be absent. -/
def verifyClassAnnotations (methodHandleCount off : Nat) (seen : SeenAnnotations) :
    Run SeenAnnotations :=
  if off ≠ 0 then v.verifyAnnotationSet methodHandleCount off seen else pure seen

/-- `VerifyAnnotationsDirectory`. -/
def verifyAnnotationsDirectory (methodHandleCount off : Nat) (seen : SeenAnnotations) :
    Run SeenAnnotations :=
  if off ∈ seen.dir then pure seen
  else do
    let seen := { seen with dir := off :: seen.dir }
    let p ← v.annotationStructAt off AnnotationsDirectoryItem.bytes "annotations_directory"
    let dir ← read AnnotationsDirectoryItem.bytes annotationsDirectoryItemAt v.image p
    let seen ← v.verifyClassAnnotations methodHandleCount dir.classAnnotationsOff seen
    let fa := p + AnnotationsDirectoryItem.bytes
    let seen ← v.verifyMemberAnnotations "field_annotations list" "field annotation"
      "Out-of-order field_idx for annotation" "field_annotation annotations_off is 0"
      v.header.fieldIdsSize (v.verifyAnnotationSet methodHandleCount) dir.fieldsSize fa seen
    let ma := fa + dir.fieldsSize * MemberAnnotationsItem.bytes
    let seen ← v.verifyMemberAnnotations "method_annotations list" "method annotation"
      "Out-of-order method_idx for annotation" "method_annotation annotations_off is 0"
      v.header.methodIdsSize (v.verifyAnnotationSet methodHandleCount) dir.methodsSize ma seen
    let pa := ma + dir.methodsSize * MemberAnnotationsItem.bytes
    v.verifyMemberAnnotations "parameter_annotations list" "parameter annotation method"
      "Out-of-order method_idx for annotation" "parameter_annotation annotations_off is 0"
      v.header.methodIdsSize (v.verifyAnnotationSetRefList methodHandleCount) dir.parametersSize
      pa seen

end Verifier

end Dexllm
