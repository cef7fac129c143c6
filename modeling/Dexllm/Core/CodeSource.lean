import Dexllm.Core.DexItem
import Dexllm.JavaText
import Dexllm.Verifier.Map

/-!
`DexItemCodeSource`: what the decompiler asks of a loaded dex beside its
methods. The references a method_handle leads to are bounded here, since the
verifier only bounds the section.
-/

namespace Dexllm

open Guarded Bytes

/-- `kMhFirstMethodKind`. -/
def kMhFirstMethodKind : Nat := 0x04

/-- The search of `Reader::MethodHandles`: the first of `rounds` map items from
item `i` on that has the type. -/
def Reader.findMapItem (r : Reader) (type map : Nat) : (rounds i : Nat) → Run (Option MapItem)
  | 0, _ => pure none
  | rounds + 1, i => do
    let item ← read MapItem.bytes mapItemAt r.image (map + 4 + i * MapItem.bytes)
    if item.type = type then pure (some item) else r.findMapItem type map rounds (i + 1)

/-- `Reader::MethodHandles`: the map item of the section, whose offset is no
negative `int`. -/
def Reader.methodHandles (r : Reader) : Run (Option MapItem) := do
  let map ← r.dataPtr r.header.mapOff 4
  let count ← readU4 r.image map
  let found ← r.findMapItem kMethodHandleItem map count 0
  match found with
  | none => pure none
  | some section_ => do
    let _ ← r.ptr section_.offset
    pure (some section_)

/-- A resolved reference: the class, the member name and the signature. -/
structure RefTriple where
  cls : Text := []
  name : Text := []
  sig : Text := []
  deriving DecidableEq, Repr

/-- A `CallSiteArg` of kind `Handle`. -/
structure HandleArg where
  ival : Nat
  triple : RefTriple
  deriving DecidableEq, Repr

namespace DexItem

variable (item : DexItem)

/-- `GetProtoCached`. -/
def getProto (protoIdx : Nat) : Run Text :=
  if item.reader.header.protoIdsSize ≤ protoIdx then pure []
  else do
    let pr ← item.reader.protoId protoIdx
    item.buildProto pr

/-- `GetMethodRefTriple`. -/
def getMethodRefTriple (midx : Nat) : Run RefTriple :=
  if item.reader.header.methodIdsSize ≤ midx then pure {}
  else do
    let m ← item.reader.methodId midx
    let cls ← vectorAt item.typeNames m.classIdx
    let name ← vectorAt item.strings m.nameIdx
    let proto ← item.getProto m.protoIdx
    pure ⟨cls, name, proto⟩

/-- `GetFieldRefTriple`. -/
def getFieldRefTriple (fidx : Nat) : Run RefTriple :=
  if item.reader.header.fieldIdsSize ≤ fidx then pure {}
  else do
    let f ← item.reader.fieldId fidx
    let cls ← vectorAt item.typeNames f.classIdx
    let name ← vectorAt item.strings f.nameIdx
    let type ← vectorAt item.typeNames f.typeIdx
    pure ⟨cls, name, type⟩

/-- `ResolveMethodHandle`. -/
def resolveMethodHandle (mhIdx : Nat) : Run (Option HandleArg) := do
  let handles ← item.reader.methodHandles
  match handles with
  | none => pure none
  | some handles =>
    if handles.size ≤ mhIdx then pure none
    else do
      let mh ← item.reader.sectionAt MethodHandle.bytes methodHandleAt handles.offset handles.size
        mhIdx
      let triple ← if kMhFirstMethodKind ≤ mh.methodHandleType
        then item.getMethodRefTriple mh.fieldOrMethodId
        else item.getFieldRefTriple mh.fieldOrMethodId
      if triple.cls = [] ∨ triple.name = [] then pure none
      else pure (some ⟨mh.methodHandleType, triple⟩)

end DexItem

/-- `SignExtend` of the low `nbytes` bytes. -/
def signExtend (v nbytes : Nat) : Int :=
  Int.bmod v (2 ^ (8 * if nbytes = 0 ∨ 8 ≤ nbytes then 8 else nbytes))

/-- The bits `DecodeEncodedFloat` makes of a payload. -/
def floatBits (raw nbytes : Nat) : Nat :=
  (if 4 ≤ nbytes then raw else raw <<< (8 * (4 - nbytes))) % 2 ^ 32

/-- The bits `DecodeEncodedDouble` makes of a payload. -/
def doubleBits (raw nbytes : Nat) : Nat :=
  (if 8 ≤ nbytes then raw else raw <<< (8 * (8 - nbytes))) % 2 ^ 64

end Dexllm
