import Dexllm.Lib.Bytes

/-!
The `.dex` structures the code reads, with the layout of `dex_format.h`. Each
structure has a total view of the memory at an address; the program's accesses
go through `Bytes.read` with the structure's size.
-/

namespace Dexllm

open Guarded Bytes

/-- The fields of `header_item` that every dex version has. The two container
fields of version 41 follow them and are read separately. -/
structure Header where
  magic : List Nat
  checksum : Nat
  fileSize : Nat
  headerSize : Nat
  endianTag : Nat
  linkSize : Nat
  linkOff : Nat
  mapOff : Nat
  stringIdsSize : Nat
  stringIdsOff : Nat
  typeIdsSize : Nat
  typeIdsOff : Nat
  protoIdsSize : Nat
  protoIdsOff : Nat
  fieldIdsSize : Nat
  fieldIdsOff : Nat
  methodIdsSize : Nat
  methodIdsOff : Nat
  classDefsSize : Nat
  classDefsOff : Nat
  dataSize : Nat
  dataOff : Nat
  deriving DecidableEq, Repr

/-- `Header::kV40Size`, also the length of the version-independent fields. -/
def kV40Size : Nat := 0x70

/-- `Header::kV41Size`, which is `sizeof(dex::Header)`. -/
def kV41Size : Nat := 0x78

def kV41 : Nat := 41

def kMinVersion : Nat := 35

def kMaxVersion : Nat := 41

def kEndianConstant : Nat := 0x12345678

def kNoIndex : Nat := 0xffffffff

def headerAt (mem : Memory) (a : Nat) : Header where
  magic := (List.range 8).map fun i => byteAt mem (a + i)
  checksum := u4At mem (a + 8)
  fileSize := u4At mem (a + 32)
  headerSize := u4At mem (a + 36)
  endianTag := u4At mem (a + 40)
  linkSize := u4At mem (a + 44)
  linkOff := u4At mem (a + 48)
  mapOff := u4At mem (a + 52)
  stringIdsSize := u4At mem (a + 56)
  stringIdsOff := u4At mem (a + 60)
  typeIdsSize := u4At mem (a + 64)
  typeIdsOff := u4At mem (a + 68)
  protoIdsSize := u4At mem (a + 72)
  protoIdsOff := u4At mem (a + 76)
  fieldIdsSize := u4At mem (a + 80)
  fieldIdsOff := u4At mem (a + 84)
  methodIdsSize := u4At mem (a + 88)
  methodIdsOff := u4At mem (a + 92)
  classDefsSize := u4At mem (a + 96)
  classDefsOff := u4At mem (a + 100)
  dataSize := u4At mem (a + 104)
  dataOff := u4At mem (a + 108)

/-- `Header::ContainerSize` of the header at `a`. -/
def readContainerSize (mem : Memory) (a : Nat) (header : Header) : Run Nat :=
  if kV41Size ≤ header.headerSize then readU4 mem (a + 112) else pure header.fileSize

/-- `Header::ContainerOff` of the header at `a`. -/
def readContainerOff (mem : Memory) (a : Nat) (header : Header) : Run Nat :=
  if kV41Size ≤ header.headerSize then readU4 mem (a + 116) else pure 0

/-- `isspace` of the C locale. -/
def isSpace (b : Nat) : Bool := b == 0x20 || (0x09 ≤ b && b ≤ 0x0d)

def decimalPrefix : List Nat → Nat → Nat
  | [], acc => acc
  | b :: rest, acc =>
    if 0x30 ≤ b ∧ b ≤ 0x39 then decimalPrefix rest (10 * acc + (b - 0x30)) else acc

/-- `strtol` in base ten, on the characters before the terminator. -/
def strtol (chars : List Nat) : Int :=
  match chars.dropWhile isSpace with
  | 0x2d :: rest => -(decimalPrefix rest 0 : Int)
  | 0x2b :: rest => decimalPrefix rest 0
  | rest => decimalPrefix rest 0

/-- `Header::GetVersion`: the number after `dex\n` in the magic, 0 when the
magic is not terminated. -/
def getVersion (magic : List Nat) : Nat :=
  if magic.getD 7 1 = 0 then (strtol ((magic.drop 4).take 3) % 2 ^ 32).toNat else 0

structure MapItem where
  type : Nat
  size : Nat
  offset : Nat
  deriving DecidableEq, Repr

@[simp] def MapItem.bytes : Nat := 12

def mapItemAt (mem : Memory) (a : Nat) : MapItem :=
  ⟨u2At mem a, u4At mem (a + 4), u4At mem (a + 8)⟩

structure ProtoId where
  shortyIdx : Nat
  returnTypeIdx : Nat
  parametersOff : Nat
  deriving DecidableEq, Repr

@[simp] def ProtoId.bytes : Nat := 12

def protoIdAt (mem : Memory) (a : Nat) : ProtoId :=
  ⟨u4At mem a, u4At mem (a + 4), u4At mem (a + 8)⟩

structure FieldId where
  classIdx : Nat
  typeIdx : Nat
  nameIdx : Nat
  deriving DecidableEq, Repr

@[simp] def FieldId.bytes : Nat := 8

def fieldIdAt (mem : Memory) (a : Nat) : FieldId :=
  ⟨u2At mem a, u2At mem (a + 2), u4At mem (a + 4)⟩

structure MethodId where
  classIdx : Nat
  protoIdx : Nat
  nameIdx : Nat
  deriving DecidableEq, Repr

@[simp] def MethodId.bytes : Nat := 8

def methodIdAt (mem : Memory) (a : Nat) : MethodId :=
  ⟨u2At mem a, u2At mem (a + 2), u4At mem (a + 4)⟩

structure ClassDef where
  classIdx : Nat
  accessFlags : Nat
  superclassIdx : Nat
  interfacesOff : Nat
  sourceFileIdx : Nat
  annotationsOff : Nat
  classDataOff : Nat
  staticValuesOff : Nat
  deriving DecidableEq, Repr

@[simp] def ClassDef.bytes : Nat := 32

def classDefAt (mem : Memory) (a : Nat) : ClassDef :=
  ⟨u4At mem a, u4At mem (a + 4), u4At mem (a + 8), u4At mem (a + 12), u4At mem (a + 16),
    u4At mem (a + 20), u4At mem (a + 24), u4At mem (a + 28)⟩

structure MethodHandle where
  methodHandleType : Nat
  fieldOrMethodId : Nat
  deriving DecidableEq, Repr

@[simp] def MethodHandle.bytes : Nat := 8

def methodHandleAt (mem : Memory) (a : Nat) : MethodHandle :=
  ⟨u2At mem a, u2At mem (a + 4)⟩

/-- The fixed part of `code_item`. -/
structure Code where
  registersSize : Nat
  insSize : Nat
  outsSize : Nat
  triesSize : Nat
  insnsSize : Nat
  deriving DecidableEq, Repr

@[simp] def Code.bytes : Nat := 16

def codeAt (mem : Memory) (a : Nat) : Code :=
  ⟨u2At mem a, u2At mem (a + 2), u2At mem (a + 4), u2At mem (a + 6), u4At mem (a + 12)⟩

structure TryBlock where
  startAddr : Nat
  insnCount : Nat
  handlerOff : Nat
  deriving DecidableEq, Repr

@[simp] def TryBlock.bytes : Nat := 8

def tryBlockAt (mem : Memory) (a : Nat) : TryBlock :=
  ⟨u4At mem a, u2At mem (a + 4), u2At mem (a + 6)⟩

structure AnnotationsDirectoryItem where
  classAnnotationsOff : Nat
  fieldsSize : Nat
  methodsSize : Nat
  parametersSize : Nat
  deriving DecidableEq, Repr

@[simp] def AnnotationsDirectoryItem.bytes : Nat := 16

def annotationsDirectoryItemAt (mem : Memory) (a : Nat) : AnnotationsDirectoryItem :=
  ⟨u4At mem a, u4At mem (a + 4), u4At mem (a + 8), u4At mem (a + 12)⟩

/-- `field_annotations_item`, `method_annotations_item` and
`parameter_annotations_item`, which have one layout. -/
structure MemberAnnotationsItem where
  memberIdx : Nat
  annotationsOff : Nat
  deriving DecidableEq, Repr

@[simp] def MemberAnnotationsItem.bytes : Nat := 8

def memberAnnotationsItemAt (mem : Memory) (a : Nat) : MemberAnnotationsItem :=
  ⟨u4At mem a, u4At mem (a + 4)⟩

end Dexllm
