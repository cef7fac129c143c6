import Dexllm.Flow.BuildCfg

/-!
`MethodSnapshotBuilder::Build` up to the blocks and their child edges: the
decoded instructions without payloads, the leaders, the blocks between them and
the edges at the end of each block.
-/

namespace Dexllm

open Guarded Bytes Leaders

/-! The opcode classes of the builder. -/

def isConditionalBranch (op : Nat) : Bool := 0x32 ≤ op && op ≤ 0x3D

def isUnconditionalBranch (op : Nat) : Bool := 0x28 ≤ op && op ≤ 0x2A

def isSwitch (op : Nat) : Bool := op == 0x2B || op == 0x2C

def isFillArrayData (op : Nat) : Bool := op == 0x26

def isReturn (op : Nat) : Bool := 0x0E ≤ op && op ≤ 0x11

def isThrow (op : Nat) : Bool := op == 0x27

def isBranchOpcode (op : Nat) : Bool :=
  isUnconditionalBranch op || isConditionalBranch op || isSwitch op || isFillArrayData op

def isBlockTerminator (op : Nat) : Bool := isReturn op || isThrow op || isUnconditionalBranch op

/-- `ExtractBranchOffsetCodeUnits`. -/
def extractBranchOffsetCodeUnits (d : Instruction) (op : Nat) : Int :=
  match getFormatFromOpcode op with
  | .k10t => toS1 (d.vA % 2 ^ 8)
  | .k20t => toS2 (d.vA % 2 ^ 16)
  | .k21t => toS2 (d.vB % 2 ^ 16)
  | .k22t => toS2 (d.vC % 2 ^ 16)
  | .k30t => Verifier.toS4 d.vA
  | .k31t => Verifier.toS4 d.vB
  | _ => 0

def uint32Max : Nat := 2 ^ 32 - 1

/-- `static_cast<uint32_t>` of a byte offset. -/
def castU4 (offset : Int) : Nat := (offset % 2 ^ 32).toNat

/-- A decoded instruction; `payload` is its entry of `owner_to_payload`. -/
structure RawIns where
  byteOff : Nat
  opcode : Nat
  branchTarget : Nat := uint32Max
  payload : Option Nat := none
  deriving DecidableEq, Repr

/-- The instruction at byte `byteOff` with its branch target. -/
def rawIns (byteOff op : Nat) (d : Instruction) : RawIns :=
  if isBranchOpcode op then
    let target := castU4 (byteOff + extractBranchOffsetCodeUnits d op * 2)
    if isSwitch op || isFillArrayData op then ⟨byteOff, op, uint32Max, some target⟩
    else ⟨byteOff, op, target, none⟩
  else ⟨byteOff, op, uint32Max, none⟩

inductive PayloadVariant where
  | monostate
  | packedSwitch (firstKey : Int) (targets : List Int)
  | sparseSwitch (keys targets : List Int)
  | fillArray
  deriving DecidableEq, Repr

/-- The branch offsets of a switch payload with the key of each. -/
def PayloadVariant.cases : PayloadVariant → List (Int × Int)
  | packedSwitch firstKey targets => targets.zipIdx.map fun (target, i) => (firstKey + i, target)
  | sparseSwitch keys targets => keys.zip targets
  | monostate | fillArray => []

inductive ChildKind where
  | fallthrough | branch | branchFalse | switchDefault
  | switchCase (value : Int)
  deriving DecidableEq, Repr

structure ChildEdge where
  kind : ChildKind
  target : Nat
  deriving DecidableEq, Repr

structure RawBlock where
  startByte : Nat
  endByte : Nat
  ins : List RawIns
  childs : List ChildEdge := []
  deriving DecidableEq, Repr

/-- `FindBlockIdForByteOff`. -/
def findBlockIdForByteOff (blocks : List RawBlock) (byteOff : Nat) : Option Nat :=
  blocks.findIdx? fun blk => blk.startByte == byteOff

/-- The child edge to the block at a byte offset, when one starts there. -/
def childEdge (blocks : List RawBlock) (kind : ChildKind) (byteOff : Nat) : List ChildEdge :=
  match findBlockIdForByteOff blocks byteOff with
  | none => []
  | some id => [⟨kind, id⟩]

/-- The instructions of the block `[start, end_)`. The storage is sorted, so the
lookup of `start` and the search behind it find the same first one. -/
def blockIns (ins : List RawIns) (start end_ : Nat) : List RawIns :=
  match ins.dropWhile fun ri => ri.byteOff < start with
  | [] => []
  | first :: rest =>
    if first.byteOff = start ∨ first.byteOff < end_ then
      first :: rest.takeWhile fun ri => ri.byteOff < end_
    else []

namespace CodeItem

variable (c : CodeItem)

/-- `SafeWidth`. -/
def safeWidth (k : Nat) : Run Nat :=
  if c.insnsSize ≤ k ∨ c.insnsSize < k + headerUnits (c.unit k) then
    .error (.thrown "malformed dex: truncated instruction/payload header")
  else do
    let w ← getWidthFromBytecode c.mem (c.insns + 2 * k)
    if w = 0 ∨ c.insnsSize < k + w then
      .error (.thrown "malformed dex: instruction extends past insns")
    else pure w

/-- The second pass of `DecodeAllInsns` from unit `k`; the first one only counts
and throws where this one does. -/
def decodeAllFrom : (fuel k : Nat) → Run (List RawIns)
  | 0, _ => pure []
  | fuel + 1, k =>
    if k < c.insnsSize then do
      let w ← c.safeWidth k
      if isPayload (c.unit k) then decodeAllFrom fuel (k + w)
      else do
        let d ← decodeInstruction c.mem (c.insns + 2 * k)
        let rest ← decodeAllFrom fuel (k + w)
        pure (rawIns (2 * k) (c.opcode k) d :: rest)
    else pure []

/-- `ParsePayloadAt`, at unit `t`. -/
def parsePayloadAt (t : Nat) : PayloadVariant :=
  let size := c.unit (t + 1)
  if c.insnsSize < t + 1 then .monostate
  else if c.unit t = 0x0100 then
    if c.insnsSize < t + 4 then .monostate
    else
      let n := min size ((c.insnsSize - (t + 4)) / 2)
      .packedSwitch (c.readInt (t + 2)) ((List.range n).map fun i => c.readInt (t + 4 + 2 * i))
  else if c.unit t = 0x0200 then
    if c.insnsSize < t + 4 then .monostate
    else
      let n := min size ((c.insnsSize - (t + 2)) / 2 / 2)
      .sparseSwitch ((List.range n).map fun i => c.readInt (t + 2 + 2 * i))
        ((List.range n).map fun i => c.readInt (t + 2 + 2 * n + 2 * i))
  else if c.unit t = 0x0300 then
    if c.insnsSize < t + 4 then .monostate else .fillArray
  else .monostate

/-- The leaders the payload of an instruction contributes. -/
def payloadLeaders (ri : RawIns) : List Nat :=
  match ri.payload with
  | none => []
  | some payload =>
    if c.codeBytes < payload + 4 then []
    else (c.parsePayloadAt (payload / 2)).cases.flatMap fun case =>
      c.note (ri.byteOff + case.2 * 2)

/-- The loop of `ComputeLeaders`. -/
def computeLeaders : List RawIns → List Nat
  | [] => []
  | ri :: rest =>
    (if isBlockTerminator ri.opcode || isConditionalBranch ri.opcode || isSwitch ri.opcode then
      (rest.take 1).map (·.byteOff) else []) ++
    (if ri.branchTarget ≠ uint32Max then [ri.branchTarget] else []) ++
    c.payloadLeaders ri ++ computeLeaders rest

/-- All leaders, those of the exception table among them. -/
def leaders (ins : List RawIns) : List Nat :=
  ascending ((ins.take 1).map (·.byteOff) ++ c.computeLeaders ins ++
    c.parseExceptions.flatMap fun item => item.startByte :: item.handlers)

/-- `SplitIntoBlocks`. -/
def splitIntoBlocks (ins : List RawIns) : List RawBlock :=
  let leaders := c.leaders ins
  (List.range leaders.length).map fun i =>
    let start := leaders.getD i 0
    let end_ := leaders.getD (i + 1) c.codeBytes
    { startByte := start, endByte := end_, ins := blockIns ins start end_ }

/-- The child edges of one block. -/
def childEdges (blocks : List RawBlock) (blk : RawBlock) : List ChildEdge :=
  match blk.ins.getLast? with
  | none =>
    if blk.startByte < blk.endByte ∧ blk.startByte ∉ c.handlerOffs then
      childEdge blocks .fallthrough blk.endByte
    else []
  | some last =>
    if isReturn last.opcode || isThrow last.opcode then []
    else if isUnconditionalBranch last.opcode then childEdge blocks .branch last.branchTarget
    else if isConditionalBranch last.opcode then
      childEdge blocks .branchFalse blk.endByte ++ childEdge blocks .branch last.branchTarget
    else if isSwitch last.opcode then
      childEdge blocks .switchDefault blk.endByte ++
        match last.payload with
        | none => []
        | some payload => (c.parsePayloadAt (payload / 2)).cases.flatMap fun (value, offset) =>
          childEdge blocks (.switchCase value) (castU4 (last.byteOff + offset * 2))
    else childEdge blocks .fallthrough blk.endByte

/-- `ComputeChildEdges`. -/
def computeChildEdges (blocks : List RawBlock) : List RawBlock :=
  blocks.map fun blk => { blk with childs := c.childEdges blocks blk }

/-- The blocks of the snapshot. -/
def snapshotBlocks : Run (List RawBlock) := do
  let ins ← c.decodeAllFrom c.insnsSize 0
  pure (c.computeChildEdges (c.splitIntoBlocks ins))

end CodeItem

/-- Where control that enters a block meets an instruction: at its first one, or
in a block without instructions wherever its own child edges lead. -/
def blockEntry (blocks : List RawBlock) : (fuel id : Nat) → List Nat
  | 0, _ => []
  | fuel + 1, id =>
    match blocks[id]? with
    | none => []
    | some blk =>
      match blk.ins with
      | first :: _ => [first.byteOff]
      | [] => blk.childs.flatMap fun edge => blockEntry blocks fuel edge.target

/-- What a block says of the instruction at byte `off`: the next instruction
inside the block, or the child edges at its end. -/
def blockSuccs (blocks : List RawBlock) (blk : RawBlock) (off : Nat) : List Nat :=
  match (blk.ins.map (·.byteOff)).dropWhile fun o => o ≠ off with
  | [] => []
  | [_] => blk.childs.flatMap fun edge => blockEntry blocks blocks.length edge.target
  | _ :: next :: _ => [next]

/-- The normal-flow successors of the instruction at byte `off` that the blocks
of a snapshot give. -/
def snapshotSuccs (blocks : List RawBlock) (off : Nat) : List Nat :=
  blocks.flatMap fun blk => blockSuccs blocks blk off

end Dexllm
