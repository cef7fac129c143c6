import Mathlib.Data.List.AList

/-!
The instructions as the block builders leave them: the operands of an expression
are variables, constants, class names, and the bootstrap call of an
`invoke-custom`, which reads no variable. An instruction names its operands by
their ids and keeps a map from the ids to the operands.
-/

namespace Dexllm.Dad.VarSplit

/-- The `.v` of a form. A register is `v` with its number; other ids are those of
the invoke results, of constants and of class names. -/
inductive Vid where
  | reg (n : Nat)
  | named (text : String)
  deriving DecidableEq

def Vid.text : Vid → String
  | .reg n => "v" ++ toString n
  | .named text => text

inductive VarKind where
  | variable
  | param
  | thisParam
  deriving DecidableEq

/-- A `Variable` object, or one of its two subclasses. -/
structure VarObj where
  vid : Vid
  kind : VarKind := .variable
  type : String := ""
  invokeResult : Bool := false
  deriving DecidableEq

/-- An operand; a variable is known by its object. -/
inductive Operand where
  | variable (obj : Nat)
  | constant (vid : Vid) (type : String) (intValue : Int)
  | baseClass (vid : Vid)
  | call (vid : Vid) (type : String)
  deriving DecidableEq

abbrev VarMap := AList fun _ : Vid => Operand

namespace Operand

def vid (objs : Nat → VarObj) : Operand → Vid
  | .variable obj => (objs obj).vid
  | .constant vid _ _ => vid
  | .baseClass vid => vid
  | .call vid _ => vid

def getType (objs : Nat → VarObj) : Operand → String
  | .variable obj => (objs obj).type
  | .constant _ type _ => type
  | .baseClass _ => ""
  | .call _ type => type

end Operand

/-- The classes of forms with operands, or without a variable to replace, with
what their types are made from. -/
inductive FormClass where
  | arrayStore (atype : String)
  | staticInstruction
  | instanceInstruction
  | newInstance (insType : String)
  | invoke (name rtype : String)
  | returnInstruction
  | nop
  | switch
  | checkCast (descriptor : String)
  | arrayLoad
  | arrayLength
  | newArray (atype : String)
  | filledArray (atype : String)
  | fillArray
  | ref
  | binary (atype : String)
  | unary
  | cast (atype : String)
  | conditional
  | conditionalZ
  | instanceExpression (ftype : String)
  | staticExpression (ftype : String)
  deriving DecidableEq

namespace FormClass

/-- The classes whose `replace_var` sets their one operand, whatever id it has. -/
def single : FormClass → Bool
  | .staticInstruction | .returnInstruction | .switch | .checkCast _ | .arrayLength
  | .newArray _ | .fillArray | .ref | .unary | .cast _ | .conditionalZ
  | .instanceExpression _ => true
  | _ => false

/-- The classes without a `replace_var` of their own. -/
def fixed : FormClass → Bool
  | .newInstance _ | .nop | .staticExpression _ => true
  | _ => false

end FormClass

/-- A form with the ids of its operands in the order of the source (of an invoke the
base, then the arguments). -/
structure FlatForm where
  cls : FormClass
  slots : List Vid
  varMap : VarMap

namespace FlatForm

/-- The operand of the first slot. -/
def first (e : FlatForm) : Option Operand := e.slots.head?.bind e.varMap.lookup

def getType (objs : Nat → VarObj) (e : FlatForm) : String :=
  let firstType := ((e.first).map (Operand.getType objs)).getD ""
  match e.cls with
  | .invoke name rtype => if name = "<init>" ∧ e.first.isSome then firstType else rtype
  | .arrayLoad => String.ofList (firstType.toList.erase '[')
  | .arrayLength => "I"
  | .unary => firstType
  | .newInstance type | .checkCast type | .newArray type | .filledArray type | .binary type
  | .cast type | .instanceExpression type | .staticExpression type | .arrayStore type => type
  | .staticInstruction | .instanceInstruction | .returnInstruction | .nop | .switch
  | .fillArray | .ref | .conditional | .conditionalZ => ""

/-- `replace_var`; without a result it throws. -/
def replaceVar (e : FlatForm) (old new : Vid) (obj : Nat) : Option FlatForm :=
  if e.cls.fixed then none
  else some
    { e with
      slots := if e.cls.single then [new] else e.slots.map fun v => if v = old then new else v
      varMap := (e.varMap.erase old).insert new (.variable obj) }

end FlatForm

/-- The right-hand side of an assignment or a move. Before the propagation an
assignment has a constant or a form there. -/
inductive Rhs where
  | operand (x : Operand)
  | form (e : FlatForm)

namespace Rhs

def getType (objs : Nat → VarObj) : Rhs → String
  | .operand x => x.getType objs
  | .form e => e.getType objs

def isIdent : Rhs → Bool
  | .operand (.variable _) => true
  | _ => false

def invokeResult (objs : Nat → VarObj) : Rhs → Bool
  | .operand (.variable obj) => (objs obj).invokeResult
  | _ => false

def replaceVar (old new : Vid) (obj : Nat) : Rhs → Option Rhs
  | .operand _ => none
  | .form e => (e.replaceVar old new obj).map .form

end Rhs

/-- An instruction of a block. `move` is a `MoveExpression` or a
`MoveResultExpression`, whose two sides share one map; `other` is a form that
defines nothing. -/
inductive Ins where
  | assign (lhs : Option Vid) (varMap : VarMap) (rhs : Rhs)
  | move (lhs rhs : Vid) (varMap : VarMap)
  | moveException (ref : Vid) (varMap : VarMap)
  | other (e : FlatForm)

namespace Ins

def getLhs : Ins → Option Vid
  | .assign lhs _ _ => lhs
  | .move lhs _ _ => some lhs
  | .moveException ref _ => some ref
  | .other _ => none

def getRhs : Ins → Option Rhs
  | .assign _ _ rhs => some rhs
  | .move _ rhs varMap => (varMap.lookup rhs).map .operand
  | .moveException _ _ => none
  | .other _ => none

/-- `replace_lhs`; without a result it throws. -/
def replaceLhs (new : Vid) (obj : Nat) : Ins → Option Ins
  | .assign _ varMap rhs => some (.assign (some new) (varMap.insert new (.variable obj)) rhs)
  | .move lhs rhs varMap =>
    let varMap := if lhs ≠ rhs then varMap.erase lhs else varMap
    some (.move new rhs (varMap.insert new (.variable obj)))
  | .moveException ref varMap =>
    some (.moveException new ((varMap.erase ref).insert new (.variable obj)))
  | .other _ => none

/-- `replace_var`; without a result it throws. -/
def replaceVar (old new : Vid) (obj : Nat) : Ins → Option Ins
  | .assign lhs varMap rhs => (rhs.replaceVar old new obj).map (.assign lhs varMap)
  | .move lhs _ varMap =>
    let varMap := if lhs ≠ old then varMap.erase old else varMap
    some (.move lhs new (varMap.insert new (.variable obj)))
  | .moveException _ varMap =>
    some (.moveException new ((varMap.erase old).insert new (.variable obj)))
  | .other e => (e.replaceVar old new obj).map .other

/-- The object behind the variable written. -/
def written : Ins → Option Operand
  | .assign lhs varMap _ => lhs.bind varMap.lookup
  | .move lhs _ varMap => varMap.lookup lhs
  | .moveException ref varMap => varMap.lookup ref
  | .other _ => none

/-- The ids of the operands read, in order. -/
def slots : Ins → List Vid
  | .assign _ _ (.operand _) => []
  | .assign _ _ (.form e) => e.slots
  | .move _ rhs _ => [rhs]
  | .moveException _ _ => []
  | .other e => e.slots

/-- The operand behind an id that is read. -/
def readAt (v : Vid) : Ins → Option Operand
  | .assign _ _ (.operand _) => none
  | .assign _ _ (.form e) => e.varMap.lookup v
  | .move _ _ varMap => varMap.lookup v
  | .moveException _ _ => none
  | .other e => e.varMap.lookup v

end Ins

end Dexllm.Dad.VarSplit
