import Mathlib.Data.List.DropRight
import Dexllm.Flow.Coverage
import Dexllm.JavaText
import Dexllm.Lib.BreadthFirst
import Dexllm.Lib.FreshCell

/-!
The IR of calls and of the move-results behind them. `Construct` builds the blocks breadth
first, handlers before childs, and one cell of the method hands the variable of a call to
the next move-result that is built.
-/

namespace Dexllm

open Guarded Bytes FreshCell

/-- What the constants of a call resolve to: the proto of a method, a proto, and whether a
call site could be read with the proto it has. -/
structure CallSource where
  methodProto : Nat → Text
  proto : Nat → Text
  callSite : Nat → Bool × Text

/-- What follows the parameters of a proto. -/
def returnType (sig : Text) : Text := if 0x29 ∈ sig then sig.rtakeWhile (· ≠ 0x29) else ascii "V"

/-- What `Construct` reads of a method: `thisReg` has the receiver, `handlers` are the
blocks of a block's exception handlers. -/
structure MethodSnapshot where
  source : CallSource
  thisReg : Option Nat
  decoded : RawIns → Instruction
  blocks : List RawBlock
  handlers : Nat → List Nat
  entry : Option Nat

/-- A variable a call assigns: `tmp%d`, or the base of a constructor call. -/
abbrev ResultVar := Value (Option Nat)

/-- `GenInvokeRetName`: `New` is a fresh value and `SetTo` pins one. -/
abbrev GenInvokeRetName := FreshCell.State (Option Nat)

/-- The part of the IR nodes that concerns results: the left-hand side of a call, and the
operands of a move-result. -/
inductive ResultNode where
  | call (returned : Option ResultVar)
  | moveResult (dst : Nat) (rhs : ResultVar)
  | other
  deriving DecidableEq, Repr

/-- The calls the handlers tell apart. -/
inductive CallForm where
  | plain (retType : Text)
  | direct (retType : Text) (base : Option Nat)
  | filledArray

def isMoveResult (op : Nat) : Bool := op == 0x0A || op == 0x0B || op == 0x0C

def isMonitor (op : Nat) : Bool := op == 0x1D || op == 0x1E

namespace MethodSnapshot

variable (m : MethodSnapshot)

/-- The call an instruction builds. The invoke opcodes come in the order virtual, super,
direct, static, interface, plain and ranged. -/
def callForm (ri : RawIns) : Option CallForm :=
  let d := m.decoded ri
  let retType := returnType (m.source.methodProto d.vB)
  let polymorphic :=
    let proto := m.source.proto (d.arg.getD 4 0)
    returnType (if proto = [] then m.source.methodProto d.vB else proto)
  let site := m.source.callSite d.vB
  match ri.opcode with
  | 0x24 | 0x25 => some .filledArray
  | 0x6E | 0x6F | 0x71 | 0x72 => some (.plain retType)
  | 0x70 => some (.direct retType (if d.vA = 0 then none else some (d.arg.getD 0 0)))
  | 0x74 | 0x75 | 0x77 | 0x78 => some (.plain retType)
  | 0x76 => some (.direct retType (some d.vC))
  | 0xFA | 0xFB => some (.plain polymorphic)
  | 0xFC | 0xFD => if site.1 then some (.plain (returnType site.2)) else none
  | _ => none

/-- The ranged invokes with a receiver need a register. -/
def emptyRange (ri : RawIns) : Bool :=
  (m.decoded ri).vA == 0 &&
    (ri.opcode == 0x74 || ri.opcode == 0x75 || ri.opcode == 0x76 || ri.opcode == 0x78 ||
      ri.opcode == 0xFB)

/-- The node of a call with the cell behind it. -/
def buildCall (call : CallForm) (s : GenInvokeRetName) : ResultNode × GenInvokeRetName :=
  let fresh := s.step .fresh
  match call with
  | .filledArray => (.call fresh.last, fresh)
  | .plain retType => if retType = ascii "V" then (.call none, s) else (.call fresh.last, fresh)
  | .direct retType base =>
    if retType = ascii "V" then
      if base.isSome ∧ base = m.thisReg then (.call none, s)
      else (.call (some (.pinned base)), s.step (.pin base))
    else (.call fresh.last, fresh)

/-- `DispatchInstruction`. -/
def dispatchInstruction (ri : RawIns) (s : GenInvokeRetName) :
    Run (ResultNode × GenInvokeRetName) :=
  if isMoveResult ri.opcode then
    match s.last with
    | none => .error (.thrown "malformed bytecode: null operand to MoveExpression")
    | some rhs => .ok (.moveResult (m.decoded ri).vA rhs, s)
  else
    match m.callForm ri with
    | none => .ok (.other, s)
    | some call =>
      if m.emptyRange ri then .error (.thrown "empty register range") else .ok (m.buildCall call s)

/-- `BuildNodeFromBlock`. -/
def buildNodeFromBlock : List RawIns → GenInvokeRetName →
    Run (List (RawIns × ResultNode) × GenInvokeRetName)
  | [], s => .ok ([], s)
  | ri :: rest, s =>
    if isMonitor ri.opcode then buildNodeFromBlock rest s
    else do
      let (node, s) ← m.dispatchInstruction ri s
      let (nodes, s) ← buildNodeFromBlock rest s
      pure ((ri, node) :: nodes, s)

/-- The blocks entered from a block. -/
def succs (id : Nat) : List Nat :=
  match m.blocks[id]? with
  | none => []
  | some blk => (m.handlers id ++ blk.childs.map (·.target)).filter (· < m.blocks.length)

/-- The order in which `Construct` builds the blocks. -/
def buildOrder : List Nat :=
  match m.entry with
  | none => []
  | some entry => BreadthFirst.search m.succs (m.blocks.length + 1) 0 [entry]

def insOf (id : Nat) : List RawIns :=
  match m.blocks[id]? with
  | none => []
  | some blk => blk.ins

def buildBlocks : List Nat → GenInvokeRetName →
    Run (List (RawIns × ResultNode) × GenInvokeRetName)
  | [], s => .ok ([], s)
  | id :: rest, s => do
    let (nodes, s) ← m.buildNodeFromBlock (m.insOf id) s
    let (more, s) ← buildBlocks rest s
    pure (nodes ++ more, s)

/-- The nodes of `Construct`, in the order they are built. -/
def construct : Run (List (RawIns × ResultNode)) := do
  let (nodes, _) ← m.buildBlocks m.buildOrder {}
  pure nodes

end MethodSnapshot

/-- The snapshot of a code item. -/
def CodeItem.snapshot (c : CodeItem) (typeName : Nat → Text) (source : CallSource)
    (thisReg : Option Nat) (ins : List RawIns) : MethodSnapshot :=
  let blocks := c.computeChildEdges (c.splitIntoBlocks ins)
  { source, thisReg, blocks
    decoded := fun ri => c.decodedAt (ri.byteOff / 2)
    handlers := fun id =>
      match blocks[id]? with
      | none => []
      | some blk => (attachHandlers blocks (c.parseTypedTries typeName) blk).map Prod.snd
    entry := ins.head?.bind fun first => findBlockIdForByteOff blocks first.byteOff }

end Dexllm
