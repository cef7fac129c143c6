import Dexllm.Verifier.Intra

/-!
`CheckInterSection`: the order and uniqueness of the ids, the syntax of the
names and descriptors they use, and the class_def semantics.
-/

namespace Dexllm

open Guarded Bytes Leb128 Mutf8

/-- The strictly increasing order of an id table by a triple of indices. -/
def checkTripleOrder (reason : String) (prev cur : Nat × Nat × Nat) : Run Unit := do
  failIf (cur.1 < prev.1) reason
  if prev.1 < cur.1 then pure ()
  else do
    failIf (cur.2.1 < prev.2.1) reason
    if prev.2.1 < cur.2.1 then pure ()
    else failIf (cur.2.2 ≤ prev.2.2) reason

/-- `ident[idx] = true` on the `n` strings of the dex. -/
def markIdentifier (n idx : Nat) (ident : List Nat) : Run (List Nat) :=
  if idx < n then .ok (idx :: ident) else .error .oob

/-- `defined_at[type]`, on the `typeCount` types of the dex. -/
def definedAt (typeCount : Nat) (table : List (Nat × Nat)) (type : Nat) : Run (Option Nat) :=
  if type < typeCount then .ok (table.lookup type) else .error .oob

/-- What `AcceptUnsortedValueStrings` records about `n` adjacent pairs. -/
def unsortedStringsDeviation (n : Nat) : String :=
  "string_ids: " ++ toString n ++
    " adjacent pair(s) out of order or duplicated among value strings " ++
    "(identifier strings are ordered); ART's DexFileVerifier rejects this dex"

namespace Verifier

variable (v : Verifier)

/-- The comparison of strings `i` and `j` of the table. -/
def compareStrings (i j : Nat) : Run Int := do
  let prev ← v.stringContent i
  let cur ← v.stringContent j
  compareModifiedUtf8ToModifiedUtf8AsUtf16CodePointValues prev cur

/-- The adjacent pairs of strings that are not strictly increasing. A strict
pass rejects the first. -/
def countOutOfOrder : Run Nat :=
  loop (v.header.stringIdsSize - 1) 0 fun i outOfOrder => do
    let order ← v.compareStrings i (i + 1)
    if 0 ≤ order then do
      failIf (v.checkInsns = true) "Out-of-order string_ids"
      pure (outOfOrder + 1)
    else pure outOfOrder

/-- The strings used as identifiers. -/
def identifierStrings : Run (List Nat) := do
  let n := v.header.stringIdsSize
  let ident ← loop v.header.typeIdsSize [] fun i ident => do
    let descriptor ← v.descriptorIdx i
    markIdentifier n descriptor ident
  let ident ← loop v.header.protoIdsSize ident fun i ident => do
    let pr ← v.readProtoId i
    markIdentifier n pr.shortyIdx ident
  let ident ← loop v.header.fieldIdsSize ident fun i ident => do
    let f ← v.readFieldId i
    markIdentifier n f.nameIdx ident
  loop v.header.methodIdsSize ident fun i ident => do
    let m ← v.readMethodId i
    markIdentifier n m.nameIdx ident

/-- `i != 0 && StringContent(i)[0] == '\0'`. -/
def emptyStringAfterFirst (i : Nat) : Run Bool :=
  if i ≠ 0 then do
    let s ← v.stringContent i
    let (c, _) ← deref s
    pure (decide (c = 0))
  else pure false

/-- The string loop of `AcceptUnsortedValueStrings` from string `i` on, with the
last identifier before it. -/
def acceptStringsFrom (ident : List Nat) : (rounds i : Nat) → Option Nat → Run Bool
  | 0, _, _ => pure true
  | rounds + 1, i, prev => do
    let empty ← v.emptyStringAfterFirst i
    if empty = true then pure false
    else if i ∉ ident then acceptStringsFrom ident rounds (i + 1) prev
    else
      match prev with
      | none => acceptStringsFrom ident rounds (i + 1) (some i)
      | some j => do
        let order ← v.compareStrings j i
        if 0 ≤ order then pure false
        else acceptStringsFrom ident rounds (i + 1) (some i)

/-- `AcceptUnsortedValueStrings`. -/
def acceptUnsortedValueStrings : Run Bool := do
  let ident ← v.identifierStrings
  v.acceptStringsFrom ident v.header.stringIdsSize 0 none

/-- The string_ids part of `CheckInterSection`: what was accepted that ART
rejects. -/
def checkInterStringIds : Run (List String) := do
  let outOfOrder ← v.countOutOfOrder
  if outOfOrder ≠ 0 then do
    let accepted ← v.acceptUnsortedValueStrings
    failIf (accepted = false) "Out-of-order string_ids"
    pure [unsortedStringsDeviation outOfOrder]
  else pure []

/-- The type_id round of `CheckInterSection`. -/
def checkInterTypeId (i : Nat) : Run Unit := do
  v.verifyTypeDescriptor i "type_id: invalid type descriptor" fun _ => true
  onlyIf (i ≠ 0) do
    let prev ← v.descriptorIdx (i - 1)
    let cur ← v.descriptorIdx i
    failIf (cur ≤ prev) "Out-of-order type_ids"

/-- `ProtoParams`: the size and first entry of a parameter list, 0 entries when
it is absent. -/
def protoParams (pr : ProtoId) : Run (Nat × Nat) :=
  if pr.parametersOff = 0 then pure (0, 0)
  else do
    let p := v.offsetToPtr pr.parametersOff
    let size ← readU4 v.image p
    pure (size, p + 4)

/-- The comparison of two parameter lists from entry `k` on, with `rounds`
entries in both. `cn` is the length of the later proto's list. -/
def compareParams (cn pt ct : Nat) : (rounds k : Nat) → Run Unit
  | 0, k => failIf (cn ≤ k) "Out-of-order proto_id arguments"
  | rounds + 1, k => do
    let pidx ← readU2 v.image (pt + k * 2)
    let cidx ← readU2 v.image (ct + k * 2)
    if pidx < cidx then pure ()
    else do
      failIf (cidx < pidx) "Out-of-order proto_id arguments"
      compareParams cn pt ct rounds (k + 1)

/-- The proto_id round of `CheckInterSection`, on protos `i` and `i + 1`. -/
def checkInterProtoId (i : Nat) : Run Unit := do
  let prev ← v.readProtoId i
  let cur ← v.readProtoId (i + 1)
  failIf (cur.returnTypeIdx < prev.returnTypeIdx) "Out-of-order proto_ids"
  if prev.returnTypeIdx < cur.returnTypeIdx then pure ()
  else do
    let (pn, pt) ← v.protoParams prev
    let (cn, ct) ← v.protoParams cur
    v.compareParams cn pt ct (min pn cn) 0

/-- The field_id round of `CheckInterSection`. -/
def checkInterFieldId (i : Nat) : Run Unit := do
  let c ← v.readFieldId i
  v.verifyTypeDescriptor c.classIdx "field_id: invalid class descriptor" fun d => d == 0x4c
  v.verifyTypeDescriptor c.typeIdx "field_id: invalid type descriptor" fun d => d != 0x56
  let name ← v.stringContent c.nameIdx
  let valid ← isValidMemberName name
  failIf (valid = false) "field_id: invalid name"
  onlyIf (i ≠ 0) do
    let p ← v.readFieldId (i - 1)
    checkTripleOrder "Out-of-order field_ids" (p.classIdx, p.nameIdx, p.typeIdx)
      (c.classIdx, c.nameIdx, c.typeIdx)

/-- The method_id round of `CheckInterSection`. -/
def checkInterMethodId (i : Nat) : Run Unit := do
  let c ← v.readMethodId i
  v.verifyTypeDescriptor c.classIdx "method_id: invalid class descriptor" fun d =>
    d == 0x4c || d == 0x5b
  let name ← v.stringContent c.nameIdx
  let valid ← isValidMemberName name
  failIf (valid = false) "method_id: invalid name"
  onlyIf (i ≠ 0) do
    let p ← v.readMethodId (i - 1)
    checkTripleOrder "Out-of-order method_ids" (p.classIdx, p.nameIdx, p.protoIdx)
      (c.classIdx, c.nameIdx, c.protoIdx)

/-- `CheckClassDataDefiners`. -/
def checkClassDataDefiners (off cls : Nat) : Run Unit :=
  v.walkClassData "class_data bad field" "class_data bad method"
    (fun idx => do
      let f ← v.readFieldId idx
      failIf (f.classIdx ≠ cls) "Mismatched defining class for class_data_item field")
    (fun idx _ => do
      let m ← v.readMethodId idx
      failIf (m.classIdx ≠ cls) "Mismatched defining class for class_data_item method")
    (v.offsetToPtr off)

/-- The superclass checks of `VerifyClassDefs` on class_def `c`. -/
def checkSuperclass (c cls superclass : Nat) (table : List (Nat × Nat)) : Run Unit := do
  failIf (superclass = cls) "Class is its own superclass"
  v.verifyTypeDescriptor superclass "class_def: invalid superclass" fun d => d == 0x4c
  let position ← definedAt v.header.typeIdsSize table superclass
  failIf (position.any (fun d => c < d) = true) "Class defined before its superclass"

/-- Entry `i` of the interface list at `list`. -/
def checkInterface (cls list i : Nat) : Run Unit := do
  let it ← readU2 v.image (list + i * 2)
  failIf (it = cls) "Class implements itself"
  v.verifyTypeDescriptor it "class_def: invalid interface" fun d => d == 0x4c
  forUpTo i fun j => do
    let other ← readU2 v.image (list + j * 2)
    failIf (other = it) "Duplicate interface"

/-- The interface checks of `VerifyClassDefs`. -/
def checkInterfaces (cls interfacesOff : Nat) : Run Unit := do
  let p := v.offsetToPtr interfacesOff
  let size ← readU4 v.image p
  forUpTo size (v.checkInterface cls (p + 4))

/-- Round `c` of `VerifyClassDefs`: `table` has the position of the class_def of
each type defined before it. -/
def verifyClassDef (c : Nat) (table : List (Nat × Nat)) : Run (List (Nat × Nat)) := do
  let cd ← v.readClassDef c
  let cls := cd.classIdx
  v.verifyTypeDescriptor cls "class_def: invalid class descriptor" fun d => d == 0x4c
  let position ← definedAt v.header.typeIdsSize table cls
  failIf (position ≠ none) "Duplicate class definition"
  onlyIf (cd.superclassIdx ≠ kNoIndex) (v.checkSuperclass c cls cd.superclassIdx table)
  onlyIf (cd.interfacesOff ≠ 0) (v.checkInterfaces cls cd.interfacesOff)
  onlyIf (cd.classDataOff ≠ 0) (v.checkClassDataDefiners cd.classDataOff cls)
  pure ((cls, c) :: table)

/-- `VerifyClassDefs`. -/
def verifyClassDefs : Run Unit := do
  let _ ← loop v.header.classDefsSize [] v.verifyClassDef
  pure ()

/-- `CheckInterSection`. Returns what it accepted that ART rejects. -/
def checkInterSection : Run (List String) := do
  let deviations ← v.checkInterStringIds
  forUpTo v.header.typeIdsSize v.checkInterTypeId
  forUpTo (v.header.protoIdsSize - 1) v.checkInterProtoId
  forUpTo v.header.fieldIdsSize v.checkInterFieldId
  forUpTo v.header.methodIdsSize v.checkInterMethodId
  v.verifyClassDefs
  pure deviations

end Verifier

end Dexllm
