import Dexllm.Verifier.Header

/-!
`CheckMap` and the walk of the method_handle section, the only two places
where a verifier touches the scratch of its image. A failing check leaves the
scratch as the checks before it left it, so both return it with their result.
-/

namespace Dexllm

open Guarded Bytes

def kHeaderItem : Nat := 0x0000

def kStringIdItem : Nat := 0x0001

def kTypeIdItem : Nat := 0x0002

def kProtoIdItem : Nat := 0x0003

def kFieldIdItem : Nat := 0x0004

def kMethodIdItem : Nat := 0x0005

def kClassDefItem : Nat := 0x0006

def kCallSiteIdItem : Nat := 0x0007

def kMethodHandleItem : Nat := 0x0008

def kMapList : Nat := 0x1000

def kClassDataItem : Nat := 0x2000

def kStringDataItem : Nat := 0x2002

def kDebugInfoItem : Nat := 0x2003

def kAnnotationItem : Nat := 0x2004

def kEncodedArrayItem : Nat := 0x2005

/-- `METHOD_HANDLE_TYPE_INSTANCE_GET`, the last of the field accessors. -/
def kInstanceGet : Nat := 0x03

/-- `METHOD_HANDLE_TYPE_INVOKE_INTERFACE`, the last handle type. -/
def kInvokeInterface : Nat := 0x08

/-- `MapTypeToBitMask`: one bit per known map type, 0 for an unknown one. -/
def mapTypeToBitMask (type : Nat) : Nat :=
  if type ≤ 0x0008 then 2 ^ type
  else if 0x1000 ≤ type ∧ type ≤ 0x1003 then 2 ^ (type - 0x1000 + 9)
  else if 0x2000 ≤ type ∧ type ≤ 0x2006 then 2 ^ (type - 0x2000 + 13)
  else if type = 0xF000 then 2 ^ 20
  else 0

/-- `IsDataSectionType`: everything but the header and the six id tables. -/
def isDataSectionType (type : Nat) : Bool :=
  !(type == kHeaderItem || type == kStringIdItem || type == kTypeIdItem ||
    type == kProtoIdItem || type == kFieldIdItem || type == kMethodIdItem ||
    type == kClassDefItem)

/-- The alignment `CheckMap` asks of a data section. -/
def mapItemAlignment (type : Nat) : Nat :=
  if type = kClassDataItem ∨ type = kStringDataItem ∨ type = kDebugInfoItem ∨
      type = kAnnotationItem ∨ type = kEncodedArrayItem then 1
  else 4

/-- The entry size of the two fixed-size sections the header does not
describe, 0 for the rest. -/
def mapItemEntry (type : Nat) : Nat :=
  if type = kMethodHandleItem then MethodHandle.bytes
  else if type = kCallSiteIdItem then 4
  else 0

/-- What the loop of `CheckMap` carries from item to item. -/
structure MapCursor where
  lastOffset : Nat := 0
  usedBits : Nat := 0
  methodHandleCount : Nat := 0
  deriving DecidableEq, Repr

namespace VerifyImageState

/-- The scratch when a walk of `count` entries starts. -/
def enter (st : VerifyImageState) (count : Nat) : VerifyImageState :=
  { st with
    methodHandleEntriesLeft := st.methodHandleEntriesLeft - count
    entered := count :: st.entered }

/-- The scratch after a section was walked and accepted. -/
def memoise (st : VerifyImageState) (off count : Nat) (needs : HandleSectionNeeds) :
    VerifyImageState :=
  { st with walkedMethodHandles := ((off, count), needs) :: st.walkedMethodHandles }

end VerifyImageState

namespace Verifier

variable (v : Verifier)

/-- One round of the entry loop of `VerifyMethodHandleSection`. -/
def verifyMethodHandle (off i : Nat) (needs : HandleSectionNeeds) : Run HandleSectionNeeds := do
  let mh ← read MethodHandle.bytes methodHandleAt v.image (v.tableAt off i MethodHandle.bytes)
  failIf (kInvokeInterface < mh.methodHandleType) "Bad method handle type"
  if mh.methodHandleType ≤ kInstanceGet then do
    checkIndex mh.fieldOrMethodId v.header.fieldIdsSize "method_handle_item field_idx"
    pure { needs with fieldIds := max needs.fieldIds (mh.fieldOrMethodId + 1) }
  else do
    checkIndex mh.fieldOrMethodId v.header.methodIdsSize "method_handle_item method_idx"
    pure { needs with methodIds := max needs.methodIds (mh.fieldOrMethodId + 1) }

/-- The re-check of a section some slice of the image has walked already. -/
def recheckMethodHandles (needs : HandleSectionNeeds) : Run Unit := do
  failIf (v.header.fieldIdsSize < needs.fieldIds) "Bad index: method_handle_item field_idx"
  failIf (v.header.methodIdsSize < needs.methodIds) "Bad index: method_handle_item method_idx"

/-- `VerifyMethodHandleSection`. -/
def verifyMethodHandleSection (off count : Nat) : Scratch VerifyImageState Unit := do
  let st ← Scratch.get
  match st.walkedMethodHandles.lookup (off, count) with
  | some needs => Scratch.lift (v.recheckMethodHandles needs)
  | none => do
    Scratch.lift (failIf (st.methodHandleEntriesLeft < count)
      "method_handle sections exceed the image's entry budget")
    let st := st.enter count
    Scratch.set st
    let needs ← Scratch.lift (loop count ⟨0, 0⟩ (v.verifyMethodHandle off))
    Scratch.set (st.memoise off count needs)

/-- The checks of `CheckMap` on item `i` before its contents are looked at. -/
def checkMapItem (i : Nat) (item : MapItem) (cursor : MapCursor) : Run MapCursor := do
  failIf (i ≠ 0 ∧ item.offset ≤ cursor.lastOffset) "Out of order map item"
  failIf (v.range.size_ ≤ item.offset) "Map item past end of file"
  failIf (isDataSectionType item.type = true ∧
    isAligned item.offset (mapItemAlignment item.type) = false) "Misaligned map item"
  let bit := mapTypeToBitMask item.type
  failIf (bit = 0) "Unknown map section type"
  failIf (cursor.usedBits &&& bit ≠ 0) "Duplicate map section"
  let entry := mapItemEntry item.type
  onlyIf (entry ≠ 0)
    (v.checkListSize (v.offsetToPtr item.offset) item.size entry "map section span")
  pure { cursor with lastOffset := item.offset, usedBits := cursor.usedBits ||| bit }

/-- Item `i` of the map list. -/
def readMapItem (i : Nat) : Run MapItem :=
  read MapItem.bytes mapItemAt v.image (v.tableAt (v.header.mapOff + 4) i MapItem.bytes)

/-- The item loop of `CheckMap`: `rounds` items from item `i` on. -/
def checkMapItems : (rounds i : Nat) → MapCursor → Scratch VerifyImageState MapCursor
  | 0, _, cursor => pure cursor
  | rounds + 1, i, cursor => do
    let item ← Scratch.lift (v.readMapItem i)
    let cursor ← Scratch.lift (v.checkMapItem i item cursor)
    if item.type = kMethodHandleItem then do
      v.verifyMethodHandleSection item.offset item.size
      checkMapItems rounds (i + 1) { cursor with methodHandleCount := item.size }
    else checkMapItems rounds (i + 1) cursor

/-- `require`: a table the header declares has a map item. -/
def requireSection (usedBits type off size : Nat) (name : String) : Run Unit :=
  failIf (usedBits &&& mapTypeToBitMask type = 0 ∧ (off ≠ 0 ∨ size ≠ 0))
    ("Map missing " ++ name)

/-- The tail of `CheckMap`. -/
def checkRequiredSections (usedBits : Nat) : Run Unit := do
  let header := v.header
  failIf (usedBits &&& mapTypeToBitMask kHeaderItem = 0) "Map missing header"
  failIf (usedBits &&& mapTypeToBitMask kMapList = 0) "Map missing map_list"
  requireSection usedBits kStringIdItem header.stringIdsOff header.stringIdsSize "string_ids"
  requireSection usedBits kTypeIdItem header.typeIdsOff header.typeIdsSize "type_ids"
  requireSection usedBits kProtoIdItem header.protoIdsOff header.protoIdsSize "proto_ids"
  requireSection usedBits kFieldIdItem header.fieldIdsOff header.fieldIdsSize "field_ids"
  requireSection usedBits kMethodIdItem header.methodIdsOff header.methodIdsSize "method_ids"
  requireSection usedBits kClassDefItem header.classDefsOff header.classDefsSize "class_defs"

/-- The number of map items, once the list is known to fit. -/
def readMapCount : Run Nat := do
  let map := v.offsetToPtr v.header.mapOff
  v.checkListSize map 1 4 "maplist content"
  let count ← readU4 v.image map
  v.checkListSize (map + 4) count MapItem.bytes "map size"
  pure count

/-- `CheckMap`. Returns the method_handle count it leaves in the verifier. -/
def checkMap : Scratch VerifyImageState Nat := do
  let count ← Scratch.lift v.readMapCount
  let cursor ← v.checkMapItems count 0 {}
  Scratch.lift (v.checkRequiredSections cursor.usedBits)
  pure cursor.methodHandleCount

section Specs

variable {v}

/-- The span `CheckMap` has bounded before a section walk. -/
def HandleSpanOk (v : Verifier) (off count : Nat) : Prop :=
  off + count * MethodHandle.bytes ≤ v.range.size_

theorem wp_verifyMethodHandle {off i count : Nat} {needs : HandleSectionNeeds}
    (hspan : v.HandleSpanOk off count) (hi : i < count) :
    wp (v.verifyMethodHandle off i needs) fun _ => True := by
  have hin := v.range.inImage
  simp only [HandleSpanOk, MethodHandle.bytes] at hspan
  simp only [verifyMethodHandle, checkIndex, wp_bind, wp_read, wp_failIf, wp_ite, wp_pure,
    tableAt, MethodHandle.bytes]
  refine ⟨by omega, fun _ => ?_⟩
  simp

/-- The section walk stays inside the bounded span. -/
theorem wp_verifyMethodHandleSection {off count : Nat} (hspan : v.HandleSpanOk off count)
    (st : VerifyImageState) :
    wp (v.verifyMethodHandleSection off count st).1 fun _ => True := by
  simp only [verifyMethodHandleSection, Scratch.wp_bind, Scratch.get_apply, wp_except_ok]
  cases st.walkedMethodHandles.lookup (off, count) with
  | some needs => simp [recheckMethodHandles]
  | none =>
    simp only [Scratch.wp_bind, Scratch.lift_apply, wp_failIf]
    intro _
    have hwalk : wp (loop count ⟨0, 0⟩ (v.verifyMethodHandle off)) fun _ => True :=
      wp_loop (fun _ _ => True) trivial fun i needs hi _ => wp_verifyMethodHandle hspan hi
    rw [Scratch.set_apply, wp_except_ok]
    exact wp_mono hwalk fun _ _ => trivial

/-- The checks before a method_handle item's walk bound its span. -/
theorem wp_checkMapItem {i : Nat} {item : MapItem} {cursor : MapCursor} :
    wp (v.checkMapItem i item cursor) fun _ =>
      item.type = kMethodHandleItem → v.HandleSpanOk item.offset item.size := by
  simp only [checkMapItem, wp_bind, wp_failIf, wp_onlyIf, wp_pure]
  intro _ _ _ _ _
  constructor
  · intro hentry
    apply wp_checkListSize (Nat.pos_of_ne_zero hentry)
    intro _ hspan htype
    simp only [mapItemEntry, htype, if_true, offsetToPtr, endOfFile] at hspan
    unfold HandleSpanOk
    omega
  · intro hentry htype
    simp [mapItemEntry, htype] at hentry

theorem wp_checkMapItems {count : Nat}
    (hlist : v.header.mapOff + 4 + count * 12 ≤ v.range.size_) (rounds i : Nat)
    (cursor : MapCursor) (st : VerifyImageState) (hrounds : i + rounds = count) :
    wp (v.checkMapItems rounds i cursor st).1 fun _ => True := by
  induction rounds generalizing i cursor st with
  | zero => trivial
  | succ rounds ih =>
    have hin := v.range.inImage
    have hread : v.readMapItem i =
        .ok (mapItemAt v.image (v.tableAt (v.header.mapOff + 4) i MapItem.bytes)) := by
      apply read_of_le
      simp only [tableAt, MapItem.bytes]
      omega
    simp only [checkMapItems, Scratch.wp_bind, Scratch.lift_apply, hread, wp_except_ok]
    refine wp_mono wp_checkMapItem fun cursor' hspan => ?_
    split
    · rename_i htype
      rw [Scratch.wp_bind]
      refine wp_mono (wp_verifyMethodHandleSection (hspan htype) st) fun _ _ => ?_
      exact ih (i + 1) _ _ (by omega)
    · exact ih (i + 1) cursor' st (by omega)

theorem wp_readMapCount : wp v.readMapCount fun count =>
    v.header.mapOff + 4 + count * 12 ≤ v.range.size_ := by
  have hin := v.range.inImage
  simp only [readMapCount, wp_bind, wp_readU4, wp_pure, MapItem.bytes]
  apply wp_checkListSize (by decide)
  intro _ hmap
  simp only [offsetToPtr, endOfFile] at hmap
  refine ⟨by simp only [offsetToPtr]; omega, ?_⟩
  apply wp_checkListSize (by decide)
  intro _ hspan
  simp only [offsetToPtr, endOfFile] at hspan ⊢
  omega

/-- `CheckMap` reads only inside the data range, whatever the scratch holds. -/
theorem wp_checkMap (st : VerifyImageState) : wp (v.checkMap st).1 fun _ => True := by
  simp only [checkMap, Scratch.wp_bind, Scratch.lift_apply]
  refine wp_mono wp_readMapCount fun count hlist => ?_
  refine wp_mono (wp_checkMapItems hlist count 0 {} st (Nat.zero_add _)) fun cursor _ => ?_
  simp [checkRequiredSections, requireSection]

end Specs

end Verifier

end Dexllm
