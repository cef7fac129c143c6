import Dexllm.Dad.FloatMoves
import Dexllm.Dad.InvokeOperands
import Dexllm.Flow.FillArray

/-!
The nodes that instructions are built into, and the helpers that build one from the names of
its registers. An expression names its operands by id and keeps them in a map; the map of a
node holds the operand that was entered last under an id.
-/

namespace Dexllm

open Guarded Dad

/-- The operator texts of `Op`, and `instanceof`. -/
inductive Op where
  | cmp | add | sub | mul | div | mod | and_ | or_ | xor_ | equal | nequal | greater | lower
  | gequal | leqal | not_ | shl | shr | instanceof
  deriving DecidableEq, Repr

namespace Op

/-! Operators that share a text. -/

abbrev neg : Op := .sub

abbrev intshl : Op := .shl

abbrev intshr : Op := .shr

abbrev longshl : Op := .shl

abbrev longshr : Op := .shr

end Op

/-- The types the handlers write into their nodes: primitive descriptors, and what tells the
array accesses apart. -/
inductive TypeTag where
  | I | J | F | D | Z | B | C | S | W | O | empty
  deriving DecidableEq, Repr

/-- `Constant`, as the handlers make it. -/
inductive Constant where
  | number (value : Int) (type : TypeTag)
  | string (value : Text)
  | cls (value descriptor : Text)

/-- What an expression has as an operand. -/
inductive Leaf where
  | var (x : Variable)
  | number (value : Int) (type : TypeTag)
  | baseClass (cls descriptor : Text)

/-- `Vid`. -/
def Leaf.vid : Leaf → Text
  | .var x => x.v
  | .number value _ => ascii "c" ++ decimal value
  | .baseClass cls _ => ascii "c" ++ cls

/-- `var_map`, the last entry first. -/
abbrev VarMap := List (Text × Leaf)

/-- `var_map` of a constructor that enters its operands in turn. -/
def VarMap.ofLeaves (operands : List Leaf) : VarMap := operands.reverse.map fun x => (x.vid, x)

inductive BinaryNode where
  | plain | comp | twoAddr | lit

/-- The right-hand sides of `AssignExpression`. -/
inductive IrExpression where
  | constant (cst : Constant)
  | binary (node : BinaryNode) (op : Op) (arg1 arg2 : Text) (varMap : VarMap) (type : TypeTag)
  | unary (op : Op) (arg : Text) (varMap : VarMap) (type : TypeTag)
  | cast (op : Text) (arg : Text) (varMap : VarMap) (type srcType : TypeTag)
  | checkCast (arg : Text) (varMap : VarMap) (type : Text)
  | arrayLoad (array idx : Text) (varMap : VarMap) (type : TypeTag)
  | arrayLength (array : Text) (varMap : VarMap)
  | newInstance (type : Text)
  | newArray (size : Text) (varMap : VarMap) (type : Text)
  | instance_ (arg : Text) (varMap : VarMap) (cls ftype name clsdesc : Text)
  | static_ (cls ftype name clsdesc : Text)

namespace IrExpression

/-! The constructors with operands. -/

def makeBinary (node : BinaryNode) (op : Op) (arg1 arg2 : Leaf) (type : TypeTag) :
    IrExpression :=
  .binary node op arg1.vid arg2.vid (.ofLeaves [arg1, arg2]) type

def makeUnary (op : Op) (arg : Leaf) (type : TypeTag) : IrExpression :=
  .unary op arg.vid (.ofLeaves [arg]) type

/-- `CastExpression` with `set_src_type`. -/
def makeCast (op : Text) (type : TypeTag) (arg : Leaf) (srcType : TypeTag) : IrExpression :=
  .cast op arg.vid (.ofLeaves [arg]) type srcType

def makeCheckCast (arg : Leaf) (descriptor : Text) : IrExpression :=
  .checkCast arg.vid (.ofLeaves [arg]) descriptor

def makeArrayLoad (arg index : Leaf) (type : TypeTag) : IrExpression :=
  .arrayLoad arg.vid index.vid (.ofLeaves [arg, index]) type

def makeArrayLength (array : Leaf) : IrExpression := .arrayLength array.vid (.ofLeaves [array])

def makeNewArray (asize : Leaf) (type : Text) : IrExpression :=
  .newArray asize.vid (.ofLeaves [asize]) type

def makeInstance (arg : Leaf) (klass ftype name : Text) : IrExpression :=
  .instance_ arg.vid (.ofLeaves [arg]) (getType klass) ftype name klass

def makeStatic (clsName fieldType fieldName : Text) : IrExpression :=
  .static_ (getType clsName) fieldType fieldName clsName

end IrExpression

/-- What `DispatchInstruction` returns. A result cell is a variable a call assigns. -/
inductive IrNode where
  | nop
  | assign (lhs : Variable) (rhs : IrExpression)
  | move (lhs rhs : Variable) (kind : MoveKind)
  | moveResult (lhs : Variable) (rhs : FreshCell.Value Variable)
  | moveException (ref : Variable) (type : Text)
  | arrayStore (rhs array index : Text) (varMap : VarMap) (type : TypeTag)
  | instanceStore (lhs rhs : Text) (varMap : VarMap) (cls atype name clsdesc : Text)
  | staticStore (rhs : Text) (varMap : VarMap) (cls ftype name clsdesc : Text)
  | fillArray (reg : Variable) (value : List Int)
  | filledArray (lhs : Option (FreshCell.Value Variable)) (count : Nat) (type : Text)
      (args : List Variable)
  | monitorEnter (ref : Variable)
  | monitorExit (ref : Variable)
  | return_ (arg : Option Variable)
  | throw_ (ref : Variable)
  | switch_ (arg : Variable) (branch : Int)
  | condition (op : Op) (arg1 arg2 : Variable)
  | conditionZ (op : Op) (arg : Variable)
  | call (expr : CallExpression)

namespace IrNode

def makeArrayStore (rhs array index : Leaf) (type : TypeTag) : IrNode :=
  .arrayStore rhs.vid array.vid index.vid (.ofLeaves [rhs, array, index]) type

/-- `InstanceInstruction`: the value comes first. -/
def makeInstanceStore (rhs lhs : Leaf) (klass atype name : Text) : IrNode :=
  .instanceStore lhs.vid rhs.vid (.ofLeaves [lhs, rhs]) (getType klass) atype name klass

/-- `StaticInstruction`. -/
def makeStaticStore (rhs : Leaf) (klass ftype name : Text) : IrNode :=
  .staticStore rhs.vid (.ofLeaves [rhs]) (getType klass) ftype name klass

end IrNode

namespace Vmap

/-! The helpers. `GetVariables` gets its variables one after the other. -/

variable (vmap : Vmap)

def assignConst (destReg : Text) (cst : Constant) : IrNode × Vmap :=
  let (reg, vmap) := vmap.getVariable destReg
  (.assign reg (.constant cst), vmap)

def assignCmp (a b c : Text) (cmpType : TypeTag) : IrNode × Vmap :=
  let (ra, vmap) := vmap.getVariable a
  let (rb, vmap) := vmap.getVariable b
  let (rc, vmap) := vmap.getVariable c
  (.assign ra (.makeBinary .comp .cmp (.var rb) (.var rc) cmpType), vmap)

def loadArrayExp (a b c : Text) (arType : TypeTag) : IrNode × Vmap :=
  let (ra, vmap) := vmap.getVariable a
  let (rb, vmap) := vmap.getVariable b
  let (rc, vmap) := vmap.getVariable c
  (.assign ra (.makeArrayLoad (.var rb) (.var rc) arType), vmap)

def storeArrayInst (a b c : Text) (arType : TypeTag) : IrNode × Vmap :=
  let (ra, vmap) := vmap.getVariable a
  let (rb, vmap) := vmap.getVariable b
  let (rc, vmap) := vmap.getVariable c
  (.makeArrayStore (.var ra) (.var rb) (.var rc) arType, vmap)

def assignCastExp (a b op : Text) (opType srcType : TypeTag) : IrNode × Vmap :=
  let (ra, vmap) := vmap.getVariable a
  let (rb, vmap) := vmap.getVariable b
  (.assign ra (.makeCast op opType (.var rb) srcType), vmap)

def assignBinaryExp (aa bb cc : Text) (op : Op) (opType : TypeTag) : IrNode × Vmap :=
  let (ra, vmap) := vmap.getVariable aa
  let (rb, vmap) := vmap.getVariable bb
  let (rc, vmap) := vmap.getVariable cc
  (.assign ra (.makeBinary .plain op (.var rb) (.var rc) opType), vmap)

def assignBinary2AddrExp (a b : Text) (op : Op) (opType : TypeTag) : IrNode × Vmap :=
  let (ra, vmap) := vmap.getVariable a
  let (rb, vmap) := vmap.getVariable b
  (.assign ra (.makeBinary .twoAddr op (.var ra) (.var rb) opType), vmap)

def assignLit (op : Op) (valCst : Int) (a b : Text) : IrNode × Vmap :=
  let (ra, vmap) := vmap.getVariable a
  let (rb, vmap) := vmap.getVariable b
  (.assign ra (.makeBinary .lit op (.var rb) (.number valCst .I) .I), vmap)

def moveImpl (dst src : Text) (kind : MoveKind) : IrNode × Vmap :=
  let (rd, vmap) := vmap.getVariable dst
  let (rs, vmap) := vmap.getVariable src
  (.move rd rs kind, vmap)

/-- The constructor of a move refuses a null operand. -/
def moveResultImpl (dst : Text) (ret : Option (FreshCell.Value Variable)) :
    Run (IrNode × Vmap) :=
  let (lhs, vmap) := vmap.getVariable dst
  match ret with
  | none => .error (.thrown "malformed bytecode: null operand to MoveExpression")
  | some rhs => .ok (.moveResult lhs rhs, vmap)

def moveException (aa atype : Text) : IrNode × Vmap :=
  let (ref, vmap) := vmap.getVariable aa
  (.moveException ref (if atype = [] then ascii "Ljava/lang/Throwable;" else atype), vmap)

def constNumImpl (dst : Text) (value : Int) (atype : TypeTag) : IrNode × Vmap :=
  vmap.assignConst dst (.number value atype)

def constString (aa rawString : Text) : IrNode × Vmap := vmap.assignConst aa (.string rawString)

def constClass (aa kind : Text) : IrNode × Vmap := vmap.assignConst aa (.cls (getType kind) kind)

def checkCast (aa kind : Text) : IrNode × Vmap :=
  let (castVar, vmap) := vmap.getVariable aa
  (.assign castVar (.makeCheckCast (.var castVar) kind), vmap)

def instanceOf (a b kind : Text) : IrNode × Vmap :=
  let (ra, vmap) := vmap.getVariable a
  let (rb, vmap) := vmap.getVariable b
  (.assign ra (.makeBinary .plain .instanceof (.var rb) (.baseClass (getType kind) kind) .Z),
    vmap)

def arrayLength (a b : Text) : IrNode × Vmap :=
  let (ra, vmap) := vmap.getVariable a
  let (rb, vmap) := vmap.getVariable b
  (.assign ra (.makeArrayLength (.var rb)), vmap)

def newInstance (aa typeDesc : Text) : IrNode × Vmap :=
  let (reg, vmap) := vmap.getVariable aa
  (.assign reg (.newInstance typeDesc), vmap)

def newArray (a b typeDesc : Text) : IrNode × Vmap :=
  let (ra, vmap) := vmap.getVariable a
  let (rb, vmap) := vmap.getVariable b
  (.assign ra (.makeNewArray (.var rb) typeDesc), vmap)

/-- `FilledNewArray`: the first `count` of the five names. -/
def filledNewArray (count : Nat) (typeDesc : Text) (all : List Text)
    (ret : Option (FreshCell.Value Variable)) : IrNode × Vmap :=
  let (args, vmap) := vmap.getVariables (all.take count)
  (.filledArray ret count typeDesc args, vmap)

/-- `FilledNewArrayRange`: the first and the last name only. -/
def filledNewArrayRange (count : Nat) (typeDesc cccc nnnn : Text)
    (ret : Option (FreshCell.Value Variable)) : IrNode × Vmap :=
  let (args, vmap) := vmap.getVariables [cccc, nnnn]
  (.filledArray ret count typeDesc args, vmap)

def iGetImpl (a b klass ftype name : Text) : IrNode × Vmap :=
  let (ra, vmap) := vmap.getVariable a
  let (rb, vmap) := vmap.getVariable b
  (.assign ra (.makeInstance (.var rb) klass ftype name), vmap)

def iPutImpl (a b klass atype name : Text) : IrNode × Vmap :=
  let (ra, vmap) := vmap.getVariable a
  let (rb, vmap) := vmap.getVariable b
  (.makeInstanceStore (.var ra) (.var rb) klass atype name, vmap)

def sGetImpl (aa klass atype name : Text) : IrNode × Vmap :=
  let (reg, vmap) := vmap.getVariable aa
  (.assign reg (.makeStatic klass atype name), vmap)

def sPutImpl (aa klass ftype name : Text) : IrNode × Vmap :=
  let (reg, vmap) := vmap.getVariable aa
  (.makeStaticStore (.var reg) klass ftype name, vmap)

def unaryImpl (a b : Text) (op : Op) (type : TypeTag) : IrNode × Vmap :=
  let (ra, vmap) := vmap.getVariable a
  let (rb, vmap) := vmap.getVariable b
  (.assign ra (.makeUnary op (.var rb) type), vmap)

/-- `RSubInt`, and `RSubIntLit8` with the same body: the constant comes first. -/
def rSubInt (a b : Text) (cccc : Int) : IrNode × Vmap :=
  let (ra, vmap) := vmap.getVariable a
  let (rb, vmap) := vmap.getVariable b
  (.assign ra (.makeBinary .lit .sub (.number cccc .I) (.var rb) .I), vmap)

/-- `AddIntLit8`: a negative literal is subtracted. -/
def addIntLit8 (aa bb : Text) (cc : Int) : IrNode × Vmap :=
  if cc < 0 then vmap.assignLit .sub (-cc) aa bb else vmap.assignLit .add cc aa bb

end Vmap

end Dexllm
