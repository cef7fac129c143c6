import Dexllm.Verifier.StringSpecs
import Dexllm.Bytecode

/-!
The intra-section validators below a class_def: type lists, code items with
their instructions and handlers, and class_data.
-/

namespace Dexllm

open Guarded Bytes Leb128

/-- The units `VerifyInsns` needs before it asks for a width: those of a
payload's size field. -/
def headerUnits (first : Nat) : Nat :=
  if first = kPackedSwitchSignature ∨ first = kSparseSwitchSignature then 2
  else if first = kArrayDataSignature then 4
  else 1

/-- Whether a unit starts a payload pseudo-instruction. -/
def isPayload (first : Nat) : Bool :=
  first == kPackedSwitchSignature || first == kSparseSwitchSignature ||
    first == kArrayDataSignature

/-- The branch distance of a decoded instruction, in code units. -/
def branchUnits (format : InstructionFormat) (d : Instruction) : Option Int :=
  match format with
  | .k10t | .k20t | .k30t => some (Verifier.toS4 d.vA)
  | .k21t | .k31t => some (Verifier.toS4 d.vB)
  | .k22t => some (Verifier.toS4 d.vC)
  | _ => none

namespace Verifier

variable (v : Verifier)

/-- `VerifyTypeList`. -/
def verifyTypeList (off : Nat) (who : String) : Run Unit :=
  if off = 0 then pure ()
  else do
    let p := v.offsetToPtr off
    v.checkListSize p 1 4 who
    let size ← readU4 v.image p
    v.checkListSize (p + 4) size 2 who
    forUpTo size fun i => do
      let typeIdx ← readU2 v.image (p + 4 + i * 2)
      failIf (v.header.typeIdsSize ≤ typeIdx) (who ++ ": type_list type_idx out of range")

/-- The register operands of one instruction. -/
def verifyRegisters (registersSize opcode : Nat) (d : Instruction) : Run Unit := do
  let vf := getVerifyFlagsFromOpcode opcode
  failIf (vf &&& kVerifyRegA ≠ 0 ∧ registersSize ≤ d.vA) "code: vA register out of range"
  failIf (vf &&& kVerifyRegAWide ≠ 0 ∧ registersSize ≤ (d.vA + 1) % 2 ^ 32)
    "code: vA wide register out of range"
  failIf (vf &&& kVerifyRegB ≠ 0 ∧ registersSize ≤ d.vB) "code: vB register out of range"
  failIf (vf &&& kVerifyRegBWide ≠ 0 ∧ registersSize ≤ (d.vB + 1) % 2 ^ 32)
    "code: vB wide register out of range"
  failIf (vf &&& kVerifyRegC ≠ 0 ∧ registersSize ≤ d.vC) "code: vC register out of range"
  failIf (vf &&& kVerifyRegCWide ≠ 0 ∧ registersSize ≤ (d.vC + 1) % 2 ^ 32)
    "code: vC wide register out of range"
  let regs := if getFormatFromOpcode opcode = .k45cc then d.vC :: d.arg else d.arg
  onlyIf (vf &&& (kVerifyVarArg ||| kVerifyVarArgNonZero) ≠ 0) (forUpTo (min d.vA 5) fun k =>
    failIf (registersSize ≤ regs.getD k 0) "code: vararg register out of range")
  failIf (vf &&& (kVerifyVarArgRange ||| kVerifyVarArgRangeNonZero) ≠ 0 ∧ 0 < d.vA ∧
    registersSize ≤ d.vC + d.vA - 1) "code: vararg-range register out of range"

/-- The index operands of one instruction. -/
def verifyIndices (opcode : Nat) (d : Instruction) : Run Unit := do
  let format := getFormatFromOpcode opcode
  failIf ((format = .k45cc ∨ format = .k4rcc) ∧ v.header.protoIdsSize ≤ d.arg.getD 4 0)
    "code: proto index out of range"
  let ridx := if format = .k22c ∨ format = .k22cs then d.vC else d.vB
  match getIndexTypeFromOpcode opcode with
  | .kIndexStringRef =>
    failIf (v.header.stringIdsSize ≤ ridx) "code: string index out of range"
  | .kIndexTypeRef => failIf (v.header.typeIdsSize ≤ ridx) "code: type index out of range"
  | .kIndexFieldRef => failIf (v.header.fieldIdsSize ≤ ridx) "code: field index out of range"
  | .kIndexMethodRef | .kIndexMethodAndProtoRef =>
    failIf (v.header.methodIdsSize ≤ ridx) "code: method index out of range"
  | _ => pure ()

/-- The branch, switch or array-data target of the instruction at unit `k`. -/
def verifyTarget (insnsSize k opcode : Nat) (d : Instruction) : Run Unit :=
  match branchUnits (getFormatFromOpcode opcode) d with
  | some units =>
    failIf ((k : Int) + units < 0 ∨ (insnsSize : Int) ≤ k + units)
      "code: branch/switch target out of range"
  | none => pure ()

/-- The operands of the instruction at unit `k`. -/
def verifyInsn (insns insnsSize registersSize k first : Nat) : Run Unit := do
  let opcode := opcodeFromBytecode first
  let d ← decodeInstruction v.image (insns + 2 * k)
  verifyRegisters registersSize opcode d
  v.verifyIndices opcode d
  verifyTarget insnsSize k opcode d

/-- The loop of `VerifyInsns` from unit `k`. Every round consumes a unit, so
`insnsSize` rounds reach the end. -/
def verifyInsnsFrom (insns insnsSize registersSize : Nat) : (fuel k : Nat) → Run Unit
  | 0, _ => pure ()
  | fuel + 1, k =>
    if k < insnsSize then do
      let first ← readU2 v.image (insns + 2 * k)
      failIf (insnsSize - k < headerUnits first) "code: truncated instruction/payload header"
      let w ← getWidthFromBytecode v.image (insns + 2 * k)
      failIf (w = 0 ∨ insnsSize - k < w) "code: instruction extends past insns"
      onlyIf (isPayload first = false) (v.verifyInsn insns insnsSize registersSize k first)
      verifyInsnsFrom insns insnsSize registersSize fuel (k + w)
    else pure ()

/-- `VerifyInsns`. -/
def verifyInsns (insns insnsSize registersSize : Nat) : Run Unit :=
  v.verifyInsnsFrom insns insnsSize registersSize insnsSize 0

/-- One typed handler: a type and an address. -/
def verifyHandlerPair (insnsSize p : Nat) : Run Nat := do
  let (typeIdx, p) ← v.readUlebOrFail p "code: bad handler type_idx"
  failIf (v.header.typeIdsSize ≤ typeIdx) "code: handler type_idx out of range"
  let (addr, p) ← v.readUlebOrFail p "code: bad handler addr"
  failIf (insnsSize ≤ addr) "code: handler addr out of range"
  pure p

/-- One encoded_catch_handler; the cursor after it. -/
def verifyHandler (insnsSize p : Nat) : Run Nat := do
  let read ← v.readSleb p
  let (size, p) ← orFail read "code: bad handler size"
  failIf (size < -65536 ∨ 65536 < size) "code: handler size out of range"
  let p ← loop size.natAbs p fun _ p => v.verifyHandlerPair insnsSize p
  if size ≤ 0 then do
    let (addr, p) ← v.readUlebOrFail p "code: bad catch_all addr"
    failIf (insnsSize ≤ addr) "code: catch_all addr out of range"
    pure p
  else pure p

/-- The handler list: the offset of every handler, in order. -/
def verifyHandlers (insnsSize handlersBase handlersSize p : Nat) : Run (List Nat) := do
  let (_, offsets) ← loop handlersSize (p, []) fun _ (p, offsets) => do
    let next ← v.verifyHandler insnsSize p
    pure (next, offsets ++ [(p - handlersBase) % 2 ^ 32])
  pure offsets

/-- One try_item after one that ended at `lastAddr`. -/
def verifyTryItem (insnsSize : Nat) (handlerOffsets : List Nat) (tryItems t lastAddr : Nat) :
    Run Nat := do
  let ti ← read TryBlock.bytes tryBlockAt v.image (tryItems + t * TryBlock.bytes)
  failIf (ti.startAddr < lastAddr) "code: out-of-order try_item"
  failIf (insnsSize ≤ ti.startAddr) "code: try_item start out of range"
  failIf (ti.handlerOff ∉ handlerOffsets) "code: bogus handler offset"
  let lastAddr := (ti.startAddr + ti.insnCount) % 2 ^ 32
  failIf (insnsSize < lastAddr) "code: try_item insn_count out of range"
  pure lastAddr

/-- The first try_item, past the padding of an odd number of code units. -/
def skipTryPadding (insnsEnd insnsSize : Nat) : Run Nat :=
  if insnsSize &&& 1 ≠ 0 then do
    v.checkListSize insnsEnd 1 2 "try padding"
    let padding ← readU2 v.image insnsEnd
    failIf (padding ≠ 0) "code: non-zero try padding"
    pure (insnsEnd + 2)
  else pure insnsEnd

/-- The part of `VerifyCodeItem` after the instructions, for a code item with
try blocks. -/
def verifyTries (insnsEnd insnsSize triesSize : Nat) : Run Unit := do
  let tryItems ← v.skipTryPadding insnsEnd insnsSize
  v.checkListSize tryItems triesSize TryBlock.bytes "try_items"
  let handlersBase := tryItems + triesSize * TryBlock.bytes
  let (handlersSize, p) ← v.readUlebOrFail handlersBase "code: bad handlers_size"
  failIf (handlersSize = 0 ∨ 65536 ≤ handlersSize) "code: handlers_size out of range"
  let handlerOffsets ← v.verifyHandlers insnsSize handlersBase handlersSize p
  let _ ← loop triesSize 0 fun t lastAddr =>
    v.verifyTryItem insnsSize handlerOffsets tryItems t lastAddr
  pure ()

/-- `VerifyCodeItem`. -/
def verifyCodeItem (off : Nat) : Run Unit := do
  let base := v.offsetToPtr off
  v.checkListSize base 1 Code.bytes "code"
  let code ← read Code.bytes codeAt v.image base
  failIf (code.registersSize < code.insSize) "code: ins_size > registers_size"
  failIf (5 < code.outsSize ∧ code.registersSize < code.outsSize)
    "code: outs_size > registers_size"
  let insns := base + Code.bytes
  v.checkListSize insns code.insnsSize 2 "insns"
  onlyIf (v.checkInsns = true) (v.verifyInsns insns code.insnsSize code.registersSize)
  onlyIf (code.triesSize ≠ 0)
    (v.verifyTries (insns + code.insnsSize * 2) code.insnsSize code.triesSize)

/-- A list of encoded_field in class_data: each index goes to `check`. -/
def walkFields (bad : String) (check : Nat → Run Unit) (n p : Nat) : Run Nat := do
  let (p, _) ← loop n (p, 0) fun _ (p, idx) => do
    let (diff, p) ← v.readUlebOrFail p bad
    let (_, p) ← v.readUlebOrFail p bad
    let idx := (idx + diff) % 2 ^ 32
    failIf (v.header.fieldIdsSize ≤ idx) "class_data field idx out of range"
    check idx
    pure (p, idx)
  pure p

/-- A list of encoded_method in class_data: each index and code offset goes to
`check`. -/
def walkMethods (bad : String) (check : Nat → Nat → Run Unit) (n p : Nat) : Run Nat := do
  let (p, _) ← loop n (p, 0) fun _ (p, idx) => do
    let (diff, p) ← v.readUlebOrFail p bad
    let (_, p) ← v.readUlebOrFail p bad
    let (codeOff, p) ← v.readUlebOrFail p bad
    let idx := (idx + diff) % 2 ^ 32
    failIf (v.header.methodIdsSize ≤ idx) "class_data method idx out of range"
    check idx codeOff
    pure (p, idx)
  pure p

/-- The four counts of a class_data item and its four lists. -/
def walkClassData (badField badMethod : String) (checkField : Nat → Run Unit)
    (checkMethod : Nat → Nat → Run Unit) (p : Nat) : Run Unit := do
  let (staticFields, p) ← v.readUlebOrFail p "class_data bad counts"
  let (instanceFields, p) ← v.readUlebOrFail p "class_data bad counts"
  let (directMethods, p) ← v.readUlebOrFail p "class_data bad counts"
  let (virtualMethods, p) ← v.readUlebOrFail p "class_data bad counts"
  let p ← v.walkFields badField checkField staticFields p
  let p ← v.walkFields badField checkField instanceFields p
  let p ← v.walkMethods badMethod checkMethod directMethods p
  let _ ← v.walkMethods badMethod checkMethod virtualMethods p
  pure ()

/-- `VerifyClassData`. -/
def verifyClassData (off : Nat) : Run Unit := do
  let p := v.offsetToPtr off
  failIf (v.endOfFile ≤ p) "class_data offset out of range"
  v.walkClassData "class_data bad encoded_field" "class_data bad encoded_method"
    (fun _ => pure ())
    (fun _ codeOff => onlyIf (codeOff ≠ 0) (v.verifyCodeItem codeOff)) p

end Verifier

end Dexllm
