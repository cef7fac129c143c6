import Dexllm.Core.Reader
import Dexllm.Lib.Mutf8
import Mathlib.Data.List.Sort

/-!
`DexItem` of the core: the caches `InitBaseCache` builds over one dex, and the
printed descriptors made from them. Strings are raw bytes here, as the core's
`std::string_view`s are.
-/

namespace Dexllm

open Guarded Bytes Leb128

/-- A loaded dex: the reader, the strings, the type descriptors, and for each
type the method indices its class_data declares, sorted. -/
structure DexItem where
  reader : Reader
  strings : List (List UInt8)
  typeNames : List (List UInt8)
  classMethodIds : List (List Nat)

/-- A string of the pool: past its length, up to its terminator. -/
def readPoolString (r : Reader) (i : Nat) : Run (List UInt8) := do
  let off ← r.stringId i
  let p ← r.dataPtr off 1
  let (_, p) ← readULeb128 r.image p
  cString (r.image.drop p)

/-- The type descriptor loop of `InitBaseCache`. -/
def readTypeName (r : Reader) (strings : List (List UInt8)) (i : Nat) : Run (List UInt8) := do
  let descriptor ← r.typeId i
  vectorAt strings descriptor

/-- The cursor after `n` encoded fields. -/
def skipFields (mem : Memory) (n p : Nat) : Run Nat :=
  loop n p fun _ p => do
    let (_, p) ← readULeb128 mem p
    let (_, p) ← readULeb128 mem p
    pure p

/-- `n` encoded methods: the cursor after them, and `methods` with their indices
appended. -/
def readMethods (r : Reader) (n p : Nat) (methods : List Nat) : Run (Nat × List Nat) := do
  let (p, _, methods) ← loop n (p, 0, methods) fun _ (p, idx, methods) => do
    let (diff, p) ← readULeb128 r.image p
    let (_, p) ← readULeb128 r.image p
    let (codeOff, p) ← readULeb128 r.image p
    let idx := (idx + diff) % 2 ^ 32
    onlyIf (codeOff ≠ 0) do
      let _ ← r.dataPtr codeOff Code.bytes
      pure ()
    pure (p, idx, methods ++ [idx])
  pure (p, methods)

/-- The methods a class_data item declares, appended to `methods`. -/
def readClassMethods (r : Reader) (off : Nat) (methods : List Nat) : Run (List Nat) := do
  let p ← r.dataPtr off 1
  let (staticFields, p) ← readULeb128 r.image p
  let (instanceFields, p) ← readULeb128 r.image p
  let (directMethods, p) ← readULeb128 r.image p
  let (virtualMethods, p) ← readULeb128 r.image p
  let p ← skipFields r.image staticFields p
  let p ← skipFields r.image instanceFields p
  let (p, methods) ← readMethods r directMethods p methods
  let (_, methods) ← readMethods r virtualMethods p methods
  pure methods

/-- The proto_id round of `InitBaseCache`, which only locates the parameter
list. -/
def cacheProtoId (r : Reader) (i : Nat) : Run Unit := do
  let pr ← r.protoId i
  onlyIf (pr.parametersOff ≠ 0) do
    let _ ← r.dataPtr pr.parametersOff 4
    pure ()

/-- The interfaces of a class_def. -/
def readInterfaces (r : Reader) (off : Nat) : Run (List Nat) :=
  if off ≠ 0 then do
    let p ← r.dataPtr off 4
    let size ← readU4 r.image p
    collect size fun i => readU2 r.image (p + 4 + i * 2)
  else pure []

/-- The class_def round of `InitBaseCache` on `class_method_ids`. -/
def cacheClassDef (r : Reader) (c : Nat) (classMethodIds : List (List Nat)) :
    Run (List (List Nat)) := do
  let cd ← r.classDef c
  let _ ← readInterfaces r cd.interfacesOff
  if cd.classDataOff = 0 then pure classMethodIds
  else do
    let methods ← vectorAt classMethodIds cd.classIdx
    let methods ← readClassMethods r cd.classDataOff methods
    pure (classMethodIds.set cd.classIdx (methods.insertionSort (· ≤ ·)))

/-- `InitBaseCache`. -/
def initBaseCache (r : Reader) : Run DexItem := do
  r.viewTables
  let strings ← collect r.header.stringIdsSize (readPoolString r)
  let typeNames ← collect r.header.typeIdsSize (readTypeName r strings)
  forUpTo r.header.protoIdsSize (cacheProtoId r)
  let classMethodIds ← loop r.header.classDefsSize (List.replicate r.header.typeIdsSize [])
    (cacheClassDef r)
  pure ⟨r, strings, typeNames, classMethodIds⟩

/-- `DexItem::DexItem`. -/
def loadDexItem (image : Memory) (headerOff : Nat) : Run DexItem := do
  let r ← openReader image headerOff
  initBaseCache r

namespace DexItem

variable (item : DexItem)

/-- The descriptors of `n` type list entries from the one at `p`, joined. -/
def joinTypeNames (n p : Nat) : Run (List UInt8) := do
  let names ← collect n fun i => do
    let typeIdx ← readU2 item.reader.image (p + i * 2)
    vectorAt item.typeNames typeIdx
  pure names.flatten

/-- The parameters of `BuildProtoDescriptor`. -/
def paramDescriptors (parametersOff : Nat) : Run (List UInt8) :=
  if parametersOff ≠ 0 then do
    let p ← item.reader.dataPtr parametersOff 4
    let size ← readU4 item.reader.image p
    item.joinTypeNames size (p + 4)
  else pure []

/-- `BuildProtoDescriptor`: `(params)Ret`. -/
def buildProtoDescriptor (pr : ProtoId) : Run (List UInt8) := do
  let params ← item.paramDescriptors pr.parametersOff
  let ret ← vectorAt item.typeNames pr.returnTypeIdx
  pure (0x28 :: (params ++ 0x29 :: ret))

/-- `Class->name(params)Ret` of a method_id. -/
def describeMethod (m : MethodId) : Run (List UInt8) := do
  let cls ← vectorAt item.typeNames m.classIdx
  let name ← vectorAt item.strings m.nameIdx
  let pr ← item.reader.protoId m.protoIdx
  let proto ← item.buildProtoDescriptor pr
  pure (cls ++ [0x2d, 0x3e] ++ name ++ proto)

/-- `BuildMethodDescriptor`: empty for an index past the table. -/
def buildMethodDescriptor (methodIdx : Nat) : Run (List UInt8) :=
  if item.reader.header.methodIdsSize ≤ methodIdx then pure []
  else do
    let m ← item.reader.methodId methodIdx
    item.describeMethod m

/-- The `type_name` lambda of `BuildProto`. -/
def typeNameOrEmpty (idx : Nat) : List UInt8 := item.typeNames.getD idx []

/-- The parameters of `BuildProto`: no more entries than the image has room
for. -/
def boundedParams (parametersOff : Nat) : Run (List UInt8) :=
  if parametersOff ≠ 0 then do
    let p ← item.reader.dataPtr parametersOff 4
    let size ← readU4 item.reader.image p
    let imageEnd := item.reader.image.length
    let room := if p + 4 ≤ imageEnd then (imageEnd - (p + 4)) / 2 else 0
    let names ← collect (min size room) fun i => do
      let typeIdx ← readU2 item.reader.image (p + 4 + i * 2)
      pure (item.typeNameOrEmpty typeIdx)
    pure names.flatten
  else pure []

/-- `BuildProto`: `BuildProtoDescriptor` with every index bounded, for the
method resolver. -/
def buildProto (pr : ProtoId) : Run (List UInt8) := do
  let params ← item.boundedParams pr.parametersOff
  pure (0x28 :: (params ++ 0x29 :: item.typeNameOrEmpty pr.returnTypeIdx))

end DexItem

end Dexllm
