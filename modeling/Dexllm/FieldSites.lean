import Dexllm.CallSites

/-!
The field queries: every read, or every write, of the field a descriptor prints,
with the place of the instruction. The core keeps the methods that access a field
in an index; the bodies of these are walked for the instructions.
-/

namespace Dexllm

open Guarded Bytes

/-- `IsFieldAccessOpcode`: the instructions with a field index in unit 1. -/
def isFieldAccessOpcode (op : Nat) : Bool := 0x52 ≤ op && op ≤ 0x6d

/-- `IsFieldReadOpcode`. -/
def isFieldReadOpcode (op : Nat) : Bool := (0x52 ≤ op && op ≤ 0x58) || (0x60 ≤ op && op ≤ 0x66)

/-- `FieldSite`. -/
structure FieldSite where
  fieldIdx : Nat
  bytecodeOffset : Nat
  opcode : Nat
  deriving DecidableEq, Repr

/-- `FieldAccessSite`. -/
structure FieldAccessSite where
  methodDescriptor : List UInt8
  dexId : Nat
  methodIdx : Nat
  fieldDescriptor : List UInt8
  bytecodeOffset : Int
  opcode : Nat
  shadowed : Bool
  deriving DecidableEq, Repr

/-- The order of `(dex_id, method_idx, bytecode_offset)`. -/
def FieldAccessSite.before (a b : FieldAccessSite) : Bool :=
  a.dexId < b.dexId || (a.dexId == b.dexId &&
    (a.methodIdx < b.methodIdx || (a.methodIdx == b.methodIdx &&
      a.bytecodeOffset < b.bytecodeOffset)))

/-- The place of a row: its dex, its method and its offset. -/
def FieldAccessSite.place (row : FieldAccessSite) : Nat × Nat × Int :=
  (row.dexId, row.methodIdx, row.bytecodeOffset)

namespace CodeItem

variable (c : CodeItem)

/-- The access at unit `k`, if the instruction there is one. -/
def fieldSiteAt (k : Nat) : Option FieldSite :=
  if isFieldAccessOpcode (c.opcode k) then
    some ⟨c.unit (k + 1), 2 * k % 2 ^ 32, c.opcode k⟩
  else none

/-- The loop of `EnumerateFieldAccessSites` from unit `k`. -/
def enumerateFieldFrom : (fuel k : Nat) → List FieldSite
  | 0, _ => []
  | fuel + 1, k =>
    if k < c.insnsSize then
      if c.getBytecodeWidth k = 0 then []
      else (c.fieldSiteAt k).toList ++ enumerateFieldFrom fuel (k + c.getBytecodeWidth k)
    else []

/-- `EnumerateFieldAccessSites`. -/
def enumerateFieldAccessSites : List FieldSite := c.enumerateFieldFrom c.insnsSize 0

/-- The instruction at unit `k` reads, or writes, field `f` of its dex. -/
structure AccessesField (writers : Bool) (k f : Nat) : Prop where
  instruction : k ∈ c.boundaries
  access : isFieldAccessOpcode (c.opcode k) = true
  direction : isFieldReadOpcode (c.opcode k) = !writers
  operand : c.unit (k + 1) = f

end CodeItem

namespace DexItem

variable (item : DexItem)

/-- `BuildFieldDescriptor`: empty for an index past the table. -/
def buildFieldDescriptor (fieldIdx : Nat) : Run (List UInt8) :=
  if item.reader.header.fieldIdsSize ≤ fieldIdx then pure []
  else do
    let f ← item.reader.fieldId fieldIdx
    let cls ← vectorAt item.typeNames f.classIdx
    let name ← vectorAt item.strings f.nameIdx
    let type ← vectorAt item.typeNames f.typeIdx
    pure (cls ++ [0x2d, 0x3e] ++ name ++ 0x3a :: type)

/-- The field loop of `LocateFields` over the fields that are left. -/
def findField (cls fd : List UInt8) : List Nat → Run (Option Nat)
  | [] => pure none
  | fid :: fids => do
    let f ← item.reader.fieldId fid
    if item.typeNames[f.classIdx]? ≠ some cls then findField cls fd fids
    else do
      let text ← item.buildFieldDescriptor fid
      if text = fd then pure (some fid) else findField cls fd fids

/-- The field `f` of an item prints as `text`. -/
def DescribesField (f : Nat) (text : List UInt8) : Prop :=
  f < item.reader.header.fieldIdsSize ∧ item.buildFieldDescriptor f = .ok text

end DexItem

/-- `field_get_method_ids`, or `field_put_method_ids`, of every dex: for each of
its fields, the accessors with the dexes they live in. -/
abbrev AccessorIds := Nat → List (List (Nat × Nat))

namespace DexKit

variable (kit : DexKit) (codes : MethodCodes) (accessors : AccessorIds)

/-- `LocateFields`: the field in each dex that has it. -/
def locateFields (fd : List UInt8) : Run (List (Nat × Nat)) :=
  match splitArrow fd with
  | none => pure []
  | some (cls, _) => do
    let found ← (List.range kit.dexItems.length).mapM fun dexId => do
      let item ← vectorAt kit.dexItems dexId
      let fid ← item.findField cls fd (List.range item.reader.header.fieldIdsSize)
      pure (fid.map fun fid => (dexId, fid))
    pure (found.filterMap id)

/-- The rows of one accessor, by the field's own index in the accessor's dex. -/
def accessorRows (localField : List (Nat × Nat)) (fd : List UInt8) (writers : Bool)
    (accessor : Nat × Nat) : Run (List FieldAccessSite) :=
  match kit.dexItems[accessor.1]?, localField.lookup accessor.1 with
  | some owner, some own => do
    let methodDesc ← owner.buildMethodDescriptor accessor.2
    let shadowed ← kit.isShadowedMethod accessor.1 owner accessor.2
    pure (((sitesOf codes CodeItem.enumerateFieldAccessSites owner accessor.1 accessor.2).filter
      fun s => s.fieldIdx = own ∧ isFieldReadOpcode s.opcode ≠ writers).map fun s =>
        ⟨methodDesc, accessor.1, accessor.2, fd, Verifier.toS4 s.bytecodeOffset, s.opcode,
          shadowed⟩)
  | _, _ => pure []

/-- The rows of the accessors that the index of one location lists, each of them
walked once. -/
def locationRows (localField : List (Nat × Nat)) (fd : List UInt8) (writers : Bool)
    (loc : Nat × Nat) : Run (List FieldAccessSite) :=
  if (accessors loc.1).length ≤ loc.2 then pure []
  else do
    let rows ← (sortedCallers accessors loc.1 loc.2).mapM
      (kit.accessorRows codes localField fd writers)
    pure rows.flatten

/-- `FieldAccessSites`. -/
def fieldAccessSites (fd : List UInt8) (writers : Bool) : Run (List FieldAccessSite) := do
  let locs ← kit.locateFields fd
  let rows ← locs.mapM (kit.locationRows codes accessors locs fd writers)
  pure (rows.flatten.insertionSort fun a b => b.before a = false)

/-- `FindFieldReadSites`. -/
def findFieldReadSites (fd : List UInt8) : Run (List FieldAccessSite) :=
  kit.fieldAccessSites codes accessors fd false

/-- `FindFieldWriteSites`. -/
def findFieldWriteSites (fd : List UInt8) : Run (List FieldAccessSite) :=
  kit.fieldAccessSites codes accessors fd true

/-- Field `f` of dex `i` prints as `fd`. -/
def HasField (fd : List UInt8) (i f : Nat) : Prop :=
  ∃ item, kit.dexItems[i]? = some item ∧ item.DescribesField f fd

/-- The body of method `m` of dex `o` reads, or writes, field `f` of that dex. -/
def Accesses (writers : Bool) (o m f : Nat) : Prop :=
  ∃ item c k, kit.dexItems[o]? = some item ∧ item.getMethodCode (codes o) m = some c ∧
    c.AccessesField writers k f

/-- A row is about an instruction of a body of the session that reads, or writes,
a field which prints as `fd`, and says where it is. -/
def RowOf (writers : Bool) (fd : List UInt8) (row : FieldAccessSite) : Prop :=
  ∃ item c k f, kit.dexItems[row.dexId]? = some item ∧
    item.getMethodCode (codes row.dexId) row.methodIdx = some c ∧ c.AccessesField writers k f ∧
    item.DescribesField f fd ∧ item.Describes row.methodIdx row.methodDescriptor ∧
    kit.isShadowedMethod row.dexId item row.methodIdx = .ok row.shadowed ∧
    row.fieldDescriptor = fd ∧ row.bytecodeOffset = Verifier.toS4 (2 * k) ∧
    row.opcode = c.opcode k

/-- The rows of a query are the rows of the instructions that access the field, each
once, by dex, method and offset. -/
def RowsExact (writers : Bool) (fd : List UInt8) (run : Run (List FieldAccessSite)) : Prop :=
  ∃ rows, run = .ok rows ∧ rows.Pairwise (fun a b => a.before b = true) ∧
    ∀ row, row ∈ rows ↔ kit.RowOf codes writers fd row

end DexKit

/-- What the core is trusted with: its accessor index lists the method of every
access, and its aggregation moves the list of a field as a whole, to a dex with a
field of the same descriptor. -/
structure AccessorIndex (kit : DexKit) (codes : MethodCodes) (writers : Bool)
    (accessors : AccessorIds) : Prop where
  moved : ∃ home : Nat → Nat → Nat × Nat,
    (∀ o f text, kit.HasField text o f → kit.HasField text (home o f).1 (home o f).2) ∧
    ∀ i f o m, (o, m) ∈ (accessors i).getD f [] ↔
      ∃ g, home o g = (i, f) ∧ kit.Accesses codes writers o m g

end Dexllm
