import Dexllm.Dad.InstructionSet
import Dexllm.Lib.MachineWords

/-!
What an instruction does to the registers and the heap, by the definition of its opcode. The
operands are read off the code units as the format of the opcode lays them out.
-/

namespace Dexllm

open Guarded Bytes Payloads MachineWords

/-- The kinds of an array or field access. -/
inductive AccessKind where
  | single | wide | object | boolean | byte | char | short
  deriving DecidableEq, Repr

namespace AccessKind

def width : AccessKind → Width
  | wide => .wide
  | _ => .narrow

/-- The kind of an access to a field of a type. -/
def ofDescriptor (type : Text) : AccessKind :=
  match type.head? with
  | some 0x4a | some 0x44 => wide
  | some 0x4c | some 0x5b => object
  | some 0x5a => boolean
  | some 0x42 => byte
  | some 0x43 => char
  | some 0x53 => short
  | _ => single

end AccessKind

/-- What an instruction is executed on besides its registers: a heap, and the operations on
it. An operation that gives nothing throws. `unordered` is what a comparison that says
nothing of unordered operands gives on them. -/
structure Machine (H : Type) where
  floats : FloatUnit
  unordered : BitVec 32
  stringRef : Text → H → Option (BitVec 32 × H)
  classRef : Text → H → Option (BitVec 32 × H)
  methodHandleRef : Nat → H → Option (BitVec 32 × H)
  methodTypeRef : Nat → H → Option (BitVec 32 × H)
  castable : Text → BitVec 32 → H → Bool
  isInstance : Text → BitVec 32 → H → Bool
  monitor : Bool → BitVec 32 → H → Option H
  newInstance : Text → H → Option (BitVec 32 × H)
  newArray : Text → BitVec 32 → H → Option (BitVec 32 × H)
  arrayLength : BitVec 32 → H → Option (BitVec 32)
  fillArray : List Int → BitVec 32 → H → Option H
  arrayLoad : AccessKind → BitVec 32 → BitVec 32 → H → Option (BitVec 64)
  arrayStore : AccessKind → BitVec 32 → BitVec 32 → Value → H → Option H
  instanceLoad : AccessKind → RefTriple → BitVec 32 → H → Option (BitVec 64)
  instanceStore : AccessKind → RefTriple → BitVec 32 → Value → H → Option H
  staticLoad : AccessKind → RefTriple → H → Option (BitVec 64 × H)
  staticStore : AccessKind → RefTriple → Value → H → Option H

/-- The register or variable that is assigned, with its value, and the heap left. -/
structure Outcome (N H : Type) where
  write : Option (N × Value)
  heap : H

namespace Outcome

variable {N N' H : Type}

def assigns (n : N) (x : Value) (heap : H) : Outcome N H := ⟨some (n, x), heap⟩

/-- A reference that is assigned, with the heap it was made in. -/
def ofRef (n : N) (r : BitVec 32 × H) : Outcome N H := assigns n (.narrow r.1) r.2

def keeps (heap : H) : Outcome N H := ⟨none, heap⟩

def map (f : N → N') (o : Outcome N H) : Outcome N' H :=
  ⟨o.write.map fun w => (f w.1, w.2), o.heap⟩

end Outcome

/-- -1, 0 or 1. -/
def orderingBits : Ordering → BitVec 32
  | .lt => -1
  | .eq => 0
  | .gt => 1

/-- The instructions that transfer no control, by what they do. -/
inductive Meaning where
  | nop
  | move (width : Width)
  | moveResult (width : Width)
  | moveException
  | const (width : Width) (shift : Nat)
  | constString | constClass | constMethodHandle | constMethodType
  | monitor (enter : Bool)
  | checkCast | instanceOf | arrayLength | newInstance | newArray | fillArrayData
  | compare (type : NumType) (unordered : Ordering)
  | arrayGet (kind : AccessKind)
  | arrayPut (kind : AccessKind)
  | instanceGet (kind : AccessKind)
  | instancePut (kind : AccessKind)
  | staticGet (kind : AccessKind)
  | staticPut (kind : AccessKind)
  | neg (type : NumType)
  | not (width : Width)
  | convert (src dst : NumType)
  | narrowInt (type : SmallInt)
  | arith (op : BinOp) (type : NumType)
  | arithInPlace (op : BinOp) (type : NumType)
  | arithLit (op : BinOp)
  | reverseSubLit
  deriving DecidableEq, Repr

namespace Meaning

def accesses (access : AccessKind → Meaning) : List (Option Meaning) :=
  [.single, .wide, .object, .boolean, .byte, .char, .short].map fun kind => some (access kind)

def arithmetic : List BinOp := [.add, .sub, .mul, .div, .rem]

def integerArithmetic : List BinOp := arithmetic ++ [.and, .or, .xor, .shl, .shr, .ushr]

/-- The operations of the four types, in the order of their opcodes. -/
def operations (meaning : BinOp → NumType → Meaning) : List (Option Meaning) :=
  (integerArithmetic.map fun op => some (meaning op .int)) ++
  (integerArithmetic.map fun op => some (meaning op .long)) ++
  (arithmetic.map fun op => some (meaning op .float)) ++
  (arithmetic.map fun op => some (meaning op .double))

/-- The operations with a literal. -/
def literals (ops : List BinOp) : List (Option Meaning) :=
  [some (arithLit .add), some reverseSubLit] ++ (ops.map fun op => some (arithLit op))

/-- The opcodes, 0x00 first. The others transfer control, fill a new array from registers,
or are unused. -/
def table : List (Option Meaning) :=
  ([nop, move .narrow, move .narrow, move .narrow, move .wide, move .wide, move .wide,
    move .narrow, move .narrow, move .narrow, moveResult .narrow, moveResult .wide,
    moveResult .narrow, moveException].map some) ++
  List.replicate 4 none ++
  ([const .narrow 0, const .narrow 0, const .narrow 0, const .narrow 16, const .wide 0,
    const .wide 0, const .wide 0, const .wide 48, constString, constString, constClass,
    monitor true, monitor false, checkCast, instanceOf, arrayLength, newInstance,
    newArray].map some) ++
  [none, none, some fillArrayData] ++
  List.replicate 6 none ++
  ([compare .float .lt, compare .float .gt, compare .double .lt, compare .double .gt,
    compare .long .eq].map some) ++
  List.replicate 18 none ++
  accesses arrayGet ++ accesses arrayPut ++ accesses instanceGet ++ accesses instancePut ++
  accesses staticGet ++ accesses staticPut ++
  List.replicate 13 none ++
  ([neg .int, not .narrow, neg .long, not .wide, neg .float, neg .double, convert .int .long,
    convert .int .float, convert .int .double, convert .long .int, convert .long .float,
    convert .long .double, convert .float .int, convert .float .long, convert .float .double,
    convert .double .int, convert .double .long, convert .double .float, narrowInt .byte,
    narrowInt .char, narrowInt .short].map some) ++
  operations arith ++ operations arithInPlace ++
  literals [.mul, .div, .rem, .and, .or, .xor] ++
  literals [.mul, .div, .rem, .and, .or, .xor, .shl, .shr, .ushr] ++
  List.replicate 27 none ++
  [some constMethodHandle, some constMethodType]

def ofOpcode (op : Nat) : Option Meaning := table.getD op none

end Meaning

/-- The operands an instruction encodes. -/
structure DalvikOperands where
  a : Nat := 0
  b : Nat := 0
  c : Nat := 0
  literal : Int := 0
  index : Nat := 0

/-- A literal of `bits` bits, sign-extended. -/
def signed (bits : Nat) (n : Nat) : Int := Int.bmod n (2 ^ bits)

/-- The fields of the formats: registers of four, eight or sixteen bits, a literal, or the
index of a constant. -/
def dalvikOperands (mem : Memory) (p : Nat) : Run DalvikOperands := do
  let inst ← unitAt mem p 0
  let nibbleA := inst / 2 ^ 8 % 2 ^ 4
  let nibbleB := inst / 2 ^ 12
  let byteA := inst / 2 ^ 8
  match getFormatFromOpcode (opcodeFromBytecode inst) with
  | .k12x => pure { a := nibbleA, b := nibbleB }
  | .k11n => pure { a := nibbleA, literal := signed 4 nibbleB }
  | .k11x | .k31t => pure { a := byteA }
  | .k21s | .k21h => do
    let unit ← unitAt mem p 1
    pure { a := byteA, literal := signed 16 unit }
  | .k21c => do
    let unit ← unitAt mem p 1
    pure { a := byteA, index := unit }
  | .k22x => do
    let unit ← unitAt mem p 1
    pure { a := byteA, b := unit }
  | .k23x => do
    let unit ← unitAt mem p 1
    pure { a := byteA, b := unit % 2 ^ 8, c := unit / 2 ^ 8 }
  | .k22b => do
    let unit ← unitAt mem p 1
    pure { a := byteA, b := unit % 2 ^ 8, literal := signed 8 (unit / 2 ^ 8) }
  | .k22s => do
    let unit ← unitAt mem p 1
    pure { a := nibbleA, b := nibbleB, literal := signed 16 unit }
  | .k22c => do
    let unit ← unitAt mem p 1
    pure { a := nibbleA, b := nibbleB, index := unit }
  | .k32x => do
    let first ← unitAt mem p 1
    let second ← unitAt mem p 2
    pure { a := first, b := second }
  | .k31i => do
    let value ← fetchU4 mem p 1
    pure { a := byteA, literal := signed 32 value }
  | .k31c => do
    let value ← fetchU4 mem p 1
    pure { a := byteA, index := value }
  | .k51l => do
    let value ← fetchU8 mem p 1
    pure { a := byteA, literal := signed 64 value }
  | _ => pure {}

abbrev Registers := Nat → BitVec 32

/-- A register, or the pair that starts with it. -/
def Registers.read (regs : Registers) : Width → Nat → Value
  | .narrow, r => .narrow (regs r)
  | .wide, r => .wide (regs (r + 1) ++ regs r)

/-- What an instruction starts with: `result` is what the last call returned. -/
structure DalvikState (H : Type) where
  regs : Registers
  result : Value
  exception : BitVec 32
  heap : H

/-- The values of an array payload. -/
def payloadValues : Option ParsedPayload → List Int
  | some (.fillArray w size data) => (List.range size).map (elementAt w data)
  | _ => []

namespace DalvikState

variable {H : Type} (M : Machine H) (pool : ConstPool) (payload : Option ParsedPayload)
  (o : DalvikOperands) (s : DalvikState H)

/-- One instruction; it throws where there is no outcome. A check-cast leaves its register
as it is. -/
def step : Meaning → Option (Outcome Nat H)
  | .nop => some (.keeps s.heap)
  | .move w => some (.assigns o.a (s.regs.read w o.b) s.heap)
  | .moveResult w => if s.result.width = w then some (.assigns o.a s.result s.heap) else none
  | .moveException => some (.assigns o.a (.narrow s.exception) s.heap)
  | .const w shift => some (.assigns o.a (.ofInt w (o.literal * 2 ^ shift)) s.heap)
  | .constString => (M.stringRef (pool.getString o.index) s.heap).map (.ofRef o.a)
  | .constClass => (M.classRef (pool.getTypeName o.index) s.heap).map (.ofRef o.a)
  | .constMethodHandle => (M.methodHandleRef o.index s.heap).map (.ofRef o.a)
  | .constMethodType => (M.methodTypeRef o.index s.heap).map (.ofRef o.a)
  | .monitor enter => (M.monitor enter (s.regs o.a) s.heap).map .keeps
  | .checkCast =>
    if M.castable (pool.getTypeName o.index) (s.regs o.a) s.heap then
      some (.assigns o.a (.narrow (s.regs o.a)) s.heap)
    else none
  | .instanceOf =>
    let is := M.isInstance (pool.getTypeName o.index) (s.regs o.b) s.heap
    some (.assigns o.a (.narrow (if is then 1 else 0)) s.heap)
  | .arrayLength => (M.arrayLength (s.regs o.b) s.heap).map fun n => .assigns o.a (.narrow n) s.heap
  | .newInstance => (M.newInstance (pool.getTypeName o.index) s.heap).map (.ofRef o.a)
  | .newArray => (M.newArray (pool.getTypeName o.index) (s.regs o.b) s.heap).map (.ofRef o.a)
  | .fillArrayData => (M.fillArray (payloadValues payload) (s.regs o.a) s.heap).map .keeps
  | .compare t unordered =>
    let order := M.floats.compare (s.regs.read t.width o.b) (s.regs.read t.width o.c) t
    some (.assigns o.a (.narrow (orderingBits (order.getD unordered))) s.heap)
  | .arrayGet kind =>
    (M.arrayLoad kind (s.regs o.b) (s.regs o.c) s.heap).map fun x =>
      .assigns o.a (.ofBits kind.width x) s.heap
  | .arrayPut kind =>
    (M.arrayStore kind (s.regs o.b) (s.regs o.c) (s.regs.read kind.width o.a) s.heap).map .keeps
  | .instanceGet kind =>
    (M.instanceLoad kind (pool.getFieldRefTriple o.index) (s.regs o.b) s.heap).map fun x =>
      .assigns o.a (.ofBits kind.width x) s.heap
  | .instancePut kind =>
    (M.instanceStore kind (pool.getFieldRefTriple o.index) (s.regs o.b)
      (s.regs.read kind.width o.a) s.heap).map .keeps
  | .staticGet kind =>
    (M.staticLoad kind (pool.getFieldRefTriple o.index) s.heap).map fun x =>
      .assigns o.a (.ofBits kind.width x.1) x.2
  | .staticPut kind =>
    (M.staticStore kind (pool.getFieldRefTriple o.index) (s.regs.read kind.width o.a)
      s.heap).map .keeps
  | .neg t => some (.assigns o.a (M.floats.neg (s.regs.read t.width o.b) t) s.heap)
  | .not w => some (.assigns o.a (.complement (s.regs.read w o.b) w) s.heap)
  | .convert src dst =>
    some (.assigns o.a (M.floats.cast (s.regs.read src.width o.b) src dst) s.heap)
  | .narrowInt t => some (.assigns o.a (t.ofInt (.narrow (s.regs o.b))) s.heap)
  | .arith op t =>
    (M.floats.arith op (s.regs.read t.width o.b) (s.regs.read (op.rightWidth t) o.c) t).map
      fun x => .assigns o.a x s.heap
  | .arithInPlace op t =>
    (M.floats.arith op (s.regs.read t.width o.a) (s.regs.read (op.rightWidth t) o.b) t).map
      fun x => .assigns o.a x s.heap
  | .arithLit op =>
    (M.floats.arith op (.narrow (s.regs o.b)) (.ofInt .narrow o.literal) .int).map
      fun x => .assigns o.a x s.heap
  | .reverseSubLit =>
    (M.floats.arith .sub (.ofInt .narrow o.literal) (.narrow (s.regs o.b)) .int).map
      fun x => .assigns o.a x s.heap

end DalvikState

end Dexllm
