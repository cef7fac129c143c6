import Dexllm.Dad.IrNodes

/-!
The handlers of the opcodes and the table that picks one. A handler is the helper it calls
with the arguments it passes on; the handlers of a family differ in these.
-/

namespace Dexllm

open Guarded Payloads Dad

/-- What an operand resolves to. -/
inductive OperandRef where
  | monostate
  | string (value : Text)
  | type (descriptor : Text)
  | field (triple : RefTriple)
  | call (ref : ConstRef)

/-- The constants of a dex, by their indices. -/
structure ConstPool where
  getString : Nat → Text
  getTypeName : Nat → Text
  getFieldRefTriple : Nat → RefTriple
  calls : ConstSource

/-- Where the index of a constant lives. -/
def pickIdx (op : Nat) (decoded : Instruction) : Nat :=
  match getFormatFromOpcode op with
  | .k22c | .k22cs => decoded.vC
  | _ => decoded.vB

/-- `ResolveConstRef`. -/
def resolveOperand (pool : ConstPool) (op : Nat) (decoded : Instruction) : OperandRef :=
  match getIndexTypeFromOpcode op with
  | .kIndexStringRef => .string (pool.getString (pickIdx op decoded))
  | .kIndexTypeRef => .type (pool.getTypeName (pickIdx op decoded))
  | .kIndexFieldRef => .field (pool.getFieldRefTriple (pickIdx op decoded))
  | .kIndexMethodRef | .kIndexMethodAndProtoRef | .kIndexCallSiteRef =>
    .call (resolveConstRef pool.calls op decoded)
  | _ => .monostate

namespace OperandRef

def strConst : OperandRef → Text
  | .string value => value
  | _ => []

def typeDesc : OperandRef → Text
  | .type descriptor => descriptor
  | _ => []

def fieldTriple : OperandRef → RefTriple
  | .field triple => triple
  | _ => {}

def callRef : OperandRef → ConstRef
  | .call ref => ref
  | _ => .none

end OperandRef

/-- How the dispatch reads a literal back from the decoded fields. -/
inductive LiteralCast where
  | const4 | int16 | int32 | wide
  deriving DecidableEq, Repr

/-- A `static_cast` to a signed type of some bits. -/
def staticCast (bits : Nat) (value : Int) : Int := Int.bmod value (2 ^ bits)

def LiteralCast.read (cast : LiteralCast) (d : Instruction) : Int :=
  match cast with
  | .const4 => staticCast 8 (d.vB * 16) / 16
  | .int16 => staticCast 16 d.vB
  | .int32 => staticCast 32 d.vB
  | .wide => staticCast 64 d.vBWide

/-- A shift of a `uint64_t`, as an `int64_t`. -/
def shiftLeft64 (value : Int) (shift : Nat) : Int := staticCast 64 (value * 2 ^ shift)

/-- The handlers, by the helper that builds their node. -/
inductive Handler where
  | nop
  | moveImpl (kind : MoveKind)
  | moveResultImpl
  | moveException
  | returnVoid
  | returnRegImpl
  | constNumImpl (cast : LiteralCast) (shift : Nat) (type : TypeTag)
  | constString | constClass | monitorEnter | monitorExit | checkCast | instanceOf | arrayLength
  | newInstance | newArray | filledNewArray | filledNewArrayRange | fillArrayData | throw_
  | switch
  | assignCmp (cmpType : TypeTag)
  | ifCondImpl (op : Op)
  | ifZCondImpl (op : Op)
  | loadArrayExp (arType : TypeTag)
  | storeArrayInst (arType : TypeTag)
  | iGetImpl | iPutImpl | sGetImpl | sPutImpl
  | invoke
  | unaryImpl (op : Op) (type : TypeTag)
  | assignCastExp (op : Text) (opType srcType : TypeTag)
  | assignBinaryExp (op : Op) (opType : TypeTag)
  | assignBinary2AddrExp (op : Op) (opType : TypeTag)
  | assignLit (op : Op)
  | rSubInt
  | addIntLit8

namespace Handler

def move : Handler := .moveImpl .plain
def moveFrom16 : Handler := .moveImpl .plain
def move16 : Handler := .moveImpl .plain
def moveWide : Handler := .moveImpl .wide
def moveWideFrom16 : Handler := .moveImpl .wide
def moveWide16 : Handler := .moveImpl .wide
def moveObject : Handler := .moveImpl .object
def moveObjectFrom16 : Handler := .moveImpl .object
def moveObject16 : Handler := .moveImpl .object

def moveResult : Handler := .moveResultImpl
def moveResultWide : Handler := .moveResultImpl
def moveResultObject : Handler := .moveResultImpl

def returnReg : Handler := .returnRegImpl
def returnWide : Handler := .returnRegImpl
def returnObject : Handler := .returnRegImpl

def const4 : Handler := .constNumImpl .const4 0 .I
def const16 : Handler := .constNumImpl .int16 0 .I
def const : Handler := .constNumImpl .int32 0 .I
def constHigh16 : Handler := .constNumImpl .int16 16 .I
def constWide16 : Handler := .constNumImpl .int16 0 .J
def constWide32 : Handler := .constNumImpl .int32 0 .J
def constWide : Handler := .constNumImpl .wide 0 .J
def constWideHigh16 : Handler := .constNumImpl .int16 48 .J

def constStringJumbo : Handler := .constString

def goto : Handler := .nop
def goto16 : Handler := .nop
def goto32 : Handler := .nop

def packedSwitch : Handler := .switch
def sparseSwitch : Handler := .switch

def cmplFloat : Handler := .assignCmp .F
def cmpgFloat : Handler := .assignCmp .F
def cmplDouble : Handler := .assignCmp .D
def cmpgDouble : Handler := .assignCmp .D
def cmpLong : Handler := .assignCmp .J

def ifEq : Handler := .ifCondImpl .equal
def ifNe : Handler := .ifCondImpl .nequal
def ifLt : Handler := .ifCondImpl .lower
def ifGe : Handler := .ifCondImpl .gequal
def ifGt : Handler := .ifCondImpl .greater
def ifLe : Handler := .ifCondImpl .leqal

def ifEqz : Handler := .ifZCondImpl .equal
def ifNez : Handler := .ifZCondImpl .nequal
def ifLtz : Handler := .ifZCondImpl .lower
def ifGez : Handler := .ifZCondImpl .gequal
def ifGtz : Handler := .ifZCondImpl .greater
def ifLez : Handler := .ifZCondImpl .leqal

def aGet : Handler := .loadArrayExp .empty
def aGetWide : Handler := .loadArrayExp .W
def aGetObject : Handler := .loadArrayExp .O
def aGetBoolean : Handler := .loadArrayExp .Z
def aGetByte : Handler := .loadArrayExp .B
def aGetChar : Handler := .loadArrayExp .C
def aGetShort : Handler := .loadArrayExp .S

def aPut : Handler := .storeArrayInst .empty
def aPutWide : Handler := .storeArrayInst .W
def aPutObject : Handler := .storeArrayInst .O
def aPutBoolean : Handler := .storeArrayInst .Z
def aPutByte : Handler := .storeArrayInst .B
def aPutChar : Handler := .storeArrayInst .C
def aPutShort : Handler := .storeArrayInst .S

def iGet : Handler := .iGetImpl
def iGetWide : Handler := .iGetImpl
def iGetObject : Handler := .iGetImpl
def iGetBoolean : Handler := .iGetImpl
def iGetByte : Handler := .iGetImpl
def iGetChar : Handler := .iGetImpl
def iGetShort : Handler := .iGetImpl

def iPut : Handler := .iPutImpl
def iPutWide : Handler := .iPutImpl
def iPutObject : Handler := .iPutImpl
def iPutBoolean : Handler := .iPutImpl
def iPutByte : Handler := .iPutImpl
def iPutChar : Handler := .iPutImpl
def iPutShort : Handler := .iPutImpl

def sGet : Handler := .sGetImpl
def sGetWide : Handler := .sGetImpl
def sGetObject : Handler := .sGetImpl
def sGetBoolean : Handler := .sGetImpl
def sGetByte : Handler := .sGetImpl
def sGetChar : Handler := .sGetImpl
def sGetShort : Handler := .sGetImpl

def sPut : Handler := .sPutImpl
def sPutWide : Handler := .sPutImpl
def sPutObject : Handler := .sPutImpl
def sPutBoolean : Handler := .sPutImpl
def sPutByte : Handler := .sPutImpl
def sPutChar : Handler := .sPutImpl
def sPutShort : Handler := .sPutImpl

def invokeVirtual : Handler := .invoke
def invokeSuper : Handler := .invoke
def invokeDirect : Handler := .invoke
def invokeStatic : Handler := .invoke
def invokeInterface : Handler := .invoke
def invokeVirtualRange : Handler := .invoke
def invokeSuperRange : Handler := .invoke
def invokeDirectRange : Handler := .invoke
def invokeStaticRange : Handler := .invoke
def invokeInterfaceRange : Handler := .invoke

def negInt : Handler := .unaryImpl .neg .I
def notInt : Handler := .unaryImpl .not_ .I
def negLong : Handler := .unaryImpl .neg .J
def notLong : Handler := .unaryImpl .not_ .J
def negFloat : Handler := .unaryImpl .neg .F
def negDouble : Handler := .unaryImpl .neg .D

def intToLong : Handler := .assignCastExp (ascii "(long)") .J .I
def intToFloat : Handler := .assignCastExp (ascii "(float)") .F .I
def intToDouble : Handler := .assignCastExp (ascii "(double)") .D .I
def longToInt : Handler := .assignCastExp (ascii "(int)") .I .J
def longToFloat : Handler := .assignCastExp (ascii "(float)") .F .J
def longToDouble : Handler := .assignCastExp (ascii "(double)") .D .J
def floatToInt : Handler := .assignCastExp (ascii "(int)") .I .F
def floatToLong : Handler := .assignCastExp (ascii "(long)") .J .F
def floatToDouble : Handler := .assignCastExp (ascii "(double)") .D .F
def doubleToInt : Handler := .assignCastExp (ascii "(int)") .I .D
def doubleToLong : Handler := .assignCastExp (ascii "(long)") .J .D
def doubleToFloat : Handler := .assignCastExp (ascii "(float)") .F .D
def intToByte : Handler := .assignCastExp (ascii "(byte)") .B .I
def intToChar : Handler := .assignCastExp (ascii "(char)") .C .I
def intToShort : Handler := .assignCastExp (ascii "(short)") .S .I

def addInt : Handler := .assignBinaryExp .add .I
def subInt : Handler := .assignBinaryExp .sub .I
def mulInt : Handler := .assignBinaryExp .mul .I
def divInt : Handler := .assignBinaryExp .div .I
def remInt : Handler := .assignBinaryExp .mod .I
def andInt : Handler := .assignBinaryExp .and_ .I
def orInt : Handler := .assignBinaryExp .or_ .I
def xorInt : Handler := .assignBinaryExp .xor_ .I
def shlInt : Handler := .assignBinaryExp .intshl .I
def shrInt : Handler := .assignBinaryExp .intshr .I
def uShrInt : Handler := .assignBinaryExp .intshr .I
def addLong : Handler := .assignBinaryExp .add .J
def subLong : Handler := .assignBinaryExp .sub .J
def mulLong : Handler := .assignBinaryExp .mul .J
def divLong : Handler := .assignBinaryExp .div .J
def remLong : Handler := .assignBinaryExp .mod .J
def andLong : Handler := .assignBinaryExp .and_ .J
def orLong : Handler := .assignBinaryExp .or_ .J
def xorLong : Handler := .assignBinaryExp .xor_ .J
def shlLong : Handler := .assignBinaryExp .longshl .J
def shrLong : Handler := .assignBinaryExp .longshr .J
def uShrLong : Handler := .assignBinaryExp .longshr .J
def addFloat : Handler := .assignBinaryExp .add .F
def subFloat : Handler := .assignBinaryExp .sub .F
def mulFloat : Handler := .assignBinaryExp .mul .F
def divFloat : Handler := .assignBinaryExp .div .F
def remFloat : Handler := .assignBinaryExp .mod .F
def addDouble : Handler := .assignBinaryExp .add .D
def subDouble : Handler := .assignBinaryExp .sub .D
def mulDouble : Handler := .assignBinaryExp .mul .D
def divDouble : Handler := .assignBinaryExp .div .D
def remDouble : Handler := .assignBinaryExp .mod .D

def addInt2Addr : Handler := .assignBinary2AddrExp .add .I
def subInt2Addr : Handler := .assignBinary2AddrExp .sub .I
def mulInt2Addr : Handler := .assignBinary2AddrExp .mul .I
def divInt2Addr : Handler := .assignBinary2AddrExp .div .I
def remInt2Addr : Handler := .assignBinary2AddrExp .mod .I
def andInt2Addr : Handler := .assignBinary2AddrExp .and_ .I
def orInt2Addr : Handler := .assignBinary2AddrExp .or_ .I
def xorInt2Addr : Handler := .assignBinary2AddrExp .xor_ .I
def shlInt2Addr : Handler := .assignBinary2AddrExp .intshl .I
def shrInt2Addr : Handler := .assignBinary2AddrExp .intshr .I
def uShrInt2Addr : Handler := .assignBinary2AddrExp .intshr .I
def addLong2Addr : Handler := .assignBinary2AddrExp .add .J
def subLong2Addr : Handler := .assignBinary2AddrExp .sub .J
def mulLong2Addr : Handler := .assignBinary2AddrExp .mul .J
def divLong2Addr : Handler := .assignBinary2AddrExp .div .J
def remLong2Addr : Handler := .assignBinary2AddrExp .mod .J
def andLong2Addr : Handler := .assignBinary2AddrExp .and_ .J
def orLong2Addr : Handler := .assignBinary2AddrExp .or_ .J
def xorLong2Addr : Handler := .assignBinary2AddrExp .xor_ .J
def shlLong2Addr : Handler := .assignBinary2AddrExp .longshl .J
def shrLong2Addr : Handler := .assignBinary2AddrExp .longshr .J
def uShrLong2Addr : Handler := .assignBinary2AddrExp .longshr .J
def addFloat2Addr : Handler := .assignBinary2AddrExp .add .F
def subFloat2Addr : Handler := .assignBinary2AddrExp .sub .F
def mulFloat2Addr : Handler := .assignBinary2AddrExp .mul .F
def divFloat2Addr : Handler := .assignBinary2AddrExp .div .F
def remFloat2Addr : Handler := .assignBinary2AddrExp .mod .F
def addDouble2Addr : Handler := .assignBinary2AddrExp .add .D
def subDouble2Addr : Handler := .assignBinary2AddrExp .sub .D
def mulDouble2Addr : Handler := .assignBinary2AddrExp .mul .D
def divDouble2Addr : Handler := .assignBinary2AddrExp .div .D
def remDouble2Addr : Handler := .assignBinary2AddrExp .mod .D

def addIntLit16 : Handler := .assignLit .add
def mulIntLit16 : Handler := .assignLit .mul
def divIntLit16 : Handler := .assignLit .div
def remIntLit16 : Handler := .assignLit .mod
def andIntLit16 : Handler := .assignLit .and_
def orIntLit16 : Handler := .assignLit .or_
def xorIntLit16 : Handler := .assignLit .xor_

def rSubIntLit8 : Handler := .rSubInt

def mulIntLit8 : Handler := .assignLit .mul
def divIntLit8 : Handler := .assignLit .div
def remIntLit8 : Handler := .assignLit .mod
def andIntLit8 : Handler := .assignLit .and_
def orIntLit8 : Handler := .assignLit .or_
def xorIntLit8 : Handler := .assignLit .xor_
def shlIntLit8 : Handler := .assignLit .intshl
def shrIntLit8 : Handler := .assignLit .intshr
def uShrIntLit8 : Handler := .assignLit .intshr

def unused : Handler := .nop

def invokePolymorphic : Handler := .invoke
def invokePolymorphicRange : Handler := .invoke
def invokeCustom : Handler := .invoke
def invokeCustomRange : Handler := .invoke

/-- `kInstructionSet`, opcode 0x00 first. -/
def kInstructionSet : List Handler := [
    nop, move, moveFrom16, move16, moveWide, moveWideFrom16, moveWide16, moveObject,
    moveObjectFrom16, moveObject16, moveResult, moveResultWide, moveResultObject, moveException,
    returnVoid, returnReg,
    returnWide, returnObject, const4, const16, const, constHigh16, constWide16, constWide32,
    constWide, constWideHigh16, constString, constStringJumbo, constClass, monitorEnter,
    monitorExit, checkCast,
    instanceOf, arrayLength, newInstance, newArray, filledNewArray, filledNewArrayRange,
    fillArrayData, throw_, goto, goto16, goto32, packedSwitch, sparseSwitch, cmplFloat, cmpgFloat,
    cmplDouble,
    cmpgDouble, cmpLong, ifEq, ifNe, ifLt, ifGe, ifGt, ifLe, ifEqz, ifNez, ifLtz, ifGez, ifGtz,
    ifLez, nop, nop,
    nop, nop, nop, nop, aGet, aGetWide, aGetObject, aGetBoolean, aGetByte, aGetChar, aGetShort,
    aPut, aPutWide, aPutObject, aPutBoolean, aPutByte,
    aPutChar, aPutShort, iGet, iGetWide, iGetObject, iGetBoolean, iGetByte, iGetChar, iGetShort,
    iPut, iPutWide, iPutObject, iPutBoolean, iPutByte, iPutChar, iPutShort,
    sGet, sGetWide, sGetObject, sGetBoolean, sGetByte, sGetChar, sGetShort, sPut, sPutWide,
    sPutObject, sPutBoolean, sPutByte, sPutChar, sPutShort, invokeVirtual, invokeSuper,
    invokeDirect, invokeStatic, invokeInterface, nop, invokeVirtualRange, invokeSuperRange,
    invokeDirectRange, invokeStaticRange, invokeInterfaceRange, nop, nop, negInt, notInt, negLong,
    notLong, negFloat,
    negDouble, intToLong, intToFloat, intToDouble, longToInt, longToFloat, longToDouble,
    floatToInt, floatToLong, floatToDouble, doubleToInt, doubleToLong, doubleToFloat, intToByte,
    intToChar, intToShort,
    addInt, subInt, mulInt, divInt, remInt, andInt, orInt, xorInt, shlInt, shrInt, uShrInt,
    addLong, subLong, mulLong, divLong, remLong,
    andLong, orLong, xorLong, shlLong, shrLong, uShrLong, addFloat, subFloat, mulFloat, divFloat,
    remFloat, addDouble, subDouble, mulDouble, divDouble, remDouble,
    addInt2Addr, subInt2Addr, mulInt2Addr, divInt2Addr, remInt2Addr, andInt2Addr, orInt2Addr,
    xorInt2Addr, shlInt2Addr, shrInt2Addr, uShrInt2Addr, addLong2Addr, subLong2Addr, mulLong2Addr,
    divLong2Addr, remLong2Addr,
    andLong2Addr, orLong2Addr, xorLong2Addr, shlLong2Addr, shrLong2Addr, uShrLong2Addr,
    addFloat2Addr, subFloat2Addr, mulFloat2Addr, divFloat2Addr, remFloat2Addr, addDouble2Addr,
    subDouble2Addr, mulDouble2Addr, divDouble2Addr, remDouble2Addr,
    addIntLit16, rSubInt, mulIntLit16, divIntLit16, remIntLit16, andIntLit16, orIntLit16,
    xorIntLit16, addIntLit8, rSubIntLit8, mulIntLit8, divIntLit8, remIntLit8, andIntLit8,
    orIntLit8, xorIntLit8,
    shlIntLit8, shrIntLit8, uShrIntLit8, unused, unused, unused, unused, unused, unused, unused,
    unused, unused, unused, unused, unused, unused,
    unused, unused, unused, unused, unused, unused, unused, unused, unused, unused,
    invokePolymorphic, invokePolymorphicRange, invokeCustom, invokeCustomRange, unused, unused]
end Handler

/-- `DispatchInstruction`. -/
def dispatchInstruction (op : Nat) (ref : OperandRef) (d : Instruction)
    (payload : Option ParsedPayload) (exceptionType : Text) (ret : RetState) (vmap : Vmap) :
    Run (IrNode × RetState × Vmap) :=
  let vA := regName d.vA
  let vB := regName d.vB
  let vC := regName d.vC
  let field := ref.fieldTriple
  let literal := staticCast 32 d.vC
  let built (b : IrNode × Vmap) : Run (IrNode × RetState × Vmap) := .ok (b.1, ret, b.2)
  let withVariable (make : Variable → IrNode) : Run (IrNode × RetState × Vmap) :=
    .ok (make (vmap.getVariable vA).1, ret, (vmap.getVariable vA).2)
  let fresh := ret.step .fresh
  match Handler.kInstructionSet.getD op .nop with
  | .nop => .ok (.nop, ret, vmap)
  | .moveImpl kind => built (vmap.moveImpl vA vB kind)
  | .moveResultImpl => (vmap.moveResultImpl vA ret.last).map fun b => (b.1, ret, b.2)
  | .moveException => built (vmap.moveException vA exceptionType)
  | .returnVoid => .ok (.return_ none, ret, vmap)
  | .returnRegImpl => withVariable fun x => .return_ (some x)
  | .constNumImpl cast shift type =>
    built (vmap.constNumImpl vA (shiftLeft64 (cast.read d) shift) type)
  | .constString => built (vmap.constString vA ref.strConst)
  | .constClass => built (vmap.constClass vA ref.typeDesc)
  | .monitorEnter => withVariable .monitorEnter
  | .monitorExit => withVariable .monitorExit
  | .checkCast => built (vmap.checkCast vA ref.typeDesc)
  | .instanceOf => built (vmap.instanceOf vA vB ref.typeDesc)
  | .arrayLength => built (vmap.arrayLength vA vB)
  | .newInstance => built (vmap.newInstance vA ref.typeDesc)
  | .newArray => built (vmap.newArray vA vB ref.typeDesc)
  | .filledNewArray =>
    let b := vmap.filledNewArray d.vA ref.typeDesc (InvokeRegs.buildInvokeRegs d).largs5 fresh.last
    .ok (b.1, fresh, b.2)
  | .filledNewArrayRange =>
    let b := vmap.filledNewArrayRange d.vA ref.typeDesc vC (regName (d.vC + (d.vA - 1))) fresh.last
    .ok (b.1, fresh, b.2)
  | .fillArrayData => do
    let values ← match payload with
      | some (.fillArray elementWidth size data) => fillArrayValues elementWidth size data
      | _ => .ok []
    withVariable fun x => .fillArray x values
  | .throw_ => withVariable .throw_
  | .switch => withVariable fun x => .switch_ x (staticCast 32 d.vB)
  | .assignCmp cmpType => built (vmap.assignCmp vA vB vC cmpType)
  | .ifCondImpl op =>
    let (a, vmap) := vmap.getVariable vA
    let (b, vmap) := vmap.getVariable vB
    .ok (.condition op a b, ret, vmap)
  | .ifZCondImpl op => withVariable (.conditionZ op)
  | .loadArrayExp arType => built (vmap.loadArrayExp vA vB vC arType)
  | .storeArrayInst arType => built (vmap.storeArrayInst vA vB vC arType)
  | .iGetImpl => built (vmap.iGetImpl vA vB field.cls field.sig field.name)
  | .iPutImpl => built (vmap.iPutImpl vA vB field.cls field.sig field.name)
  | .sGetImpl => built (vmap.sGetImpl vA field.cls field.sig field.name)
  | .sPutImpl => built (vmap.sPutImpl vA field.cls field.sig field.name)
  | .invoke =>
    (dispatchInvoke op ref.callRef d ret vmap).map fun
      | none => (.nop, ret, vmap)
      | some b => (.call b.1, b.2)
  | .unaryImpl op type => built (vmap.unaryImpl vA vB op type)
  | .assignCastExp op opType srcType => built (vmap.assignCastExp vA vB op opType srcType)
  | .assignBinaryExp op opType => built (vmap.assignBinaryExp vA vB vC op opType)
  | .assignBinary2AddrExp op opType => built (vmap.assignBinary2AddrExp vA vB op opType)
  | .assignLit op => built (vmap.assignLit op literal vA vB)
  | .rSubInt => built (vmap.rSubInt vA vB literal)
  | .addIntLit8 => built (vmap.addIntLit8 vA vB literal)

end Dexllm
