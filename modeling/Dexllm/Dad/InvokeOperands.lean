import Dexllm.Core.CallSiteItems
import Dexllm.Dad.ReturnCell
import Dexllm.Lib.Association
import Dexllm.ProtoParams

/-!
The operands of a call. An invoke instruction lists registers, and its signature says which
of them start a parameter; the IR call names its operands by the ids of their variables.
-/

namespace Dexllm

open Guarded Bytes

/-- `GetTypeSize`. -/
def getTypeSize : Text → Nat
  | [] => 1
  | c :: _ => if c = 0x4a ∨ c = 0x44 then 2 else 1

inductive VariableKind where
  | variable
  | param (type : Text)
  | thisParam (type : Text)
  deriving DecidableEq, Repr

/-- `Variable` and its subclasses. -/
structure Variable where
  v : Text
  kind : VariableKind := .variable
  deriving DecidableEq, Repr

/-- `Vmap`: a variable is filed under its own id. -/
structure Vmap where
  entries : List (Text × Variable)
  keyed : ∀ e ∈ entries, e.2.v = e.1

namespace Vmap

/-- `GetVariable`. -/
def getVariable (vmap : Vmap) (key : Text) : Variable × Vmap :=
  match vmap.entries.lookup key with
  | some v => (v, vmap)
  | none =>
    (⟨key, .variable⟩, ⟨(key, ⟨key, .variable⟩) :: vmap.entries,
      List.forall_mem_cons.mpr ⟨rfl, vmap.keyed⟩⟩)

def getVariables : Vmap → List Text → List Variable × Vmap
  | vmap, [] => ([], vmap)
  | vmap, name :: names =>
    let (v, vmap) := vmap.getVariable name
    let (vs, vmap) := getVariables vmap names
    (v :: vs, vmap)

/-- The loop of `GetArgs`: one name for each parameter, as long as there are some. -/
def pickArgs : List Text → Nat → List Text → List Text
  | [], _, _ => []
  | t :: paramType, numParam, largs =>
    match largs[numParam]? with
    | none => []
    | some name => name :: pickArgs paramType (numParam + getTypeSize t) largs

/-- `GetArgs`. -/
def getArgs (vmap : Vmap) (paramType largs : List Text) : List Variable × Vmap :=
  if largs.length < paramType.length then ([], vmap)
  else
    let args := pickArgs paramType 0 largs
    if paramType.length = 1 then
      let (v, vmap) := vmap.getVariable (args.getD 0 [])
      ([v], vmap)
    else vmap.getVariables args

end Vmap

/-- What stands as the base or an argument of a call. -/
inductive Operand where
  | var (x : Variable)
  | baseClass (name descriptor : Text)
  | dynamicInvoker (site : CallSiteInfo)
  deriving DecidableEq, Repr

/-- `Vid`. -/
def Operand.vid : Operand → Text
  | .var x => x.v
  | .baseClass name _ => ascii "c" ++ name
  | .dynamicInvoker _ => ascii "$dynamicInvoker"

inductive InvokeNode where
  | invoke | direct | static | range
  deriving DecidableEq, Repr

/-- `InvokeInstruction` and its subclasses. `varMap` has the last write first. -/
structure InvokeInstruction where
  node : InvokeNode
  cls : Text
  name : Text
  base : Text
  rtype : Text
  ptype : List Text
  args : List Text
  varMap : List (Text × Operand)
  triple : RefTriple
  callSiteMarker : Bool := false
  deriving DecidableEq, Repr

namespace InvokeInstruction

/-- The constructor. -/
def make (node : InvokeNode) (cls name : Text) (base : Operand) (rtype : Text)
    (ptype : List Text) (args : List Variable) (triple : RefTriple) : InvokeInstruction where
  node := node
  cls := cls
  name := name
  base := base.vid
  rtype := rtype
  ptype := ptype
  args := args.map fun x => x.v
  varMap := (args.reverse.map fun x => (x.v, .var x)) ++ [(base.vid, base)]
  triple := triple

/-- `var_map[base_]`. -/
def receiver (call : InvokeInstruction) : Option Operand := call.varMap.lookup call.base

/-- `var_map[args_[i]]`. -/
def argument (call : InvokeInstruction) (i : Nat) : Option Operand := do
  let id ← call.args[i]?
  call.varMap.lookup id

end InvokeInstruction

/-- `MethodConst`. -/
structure MethodConst where
  triple : RefTriple
  callSiteProto : Text := []

/-- The part of `ConstRef` a call reads. -/
inductive ConstRef where
  | none
  | method (mc : MethodConst)
  | callSite (info : CallSiteInfo)

/-- What the source of the code answers about the constants of a dex. -/
structure ConstSource where
  getMethodRefTriple : Nat → RefTriple
  getProto : Nat → Text
  getCallSite : Nat → CallSiteInfo

/-- `ResolveConstRef` for calls. -/
def resolveConstRef (src : ConstSource) (op : Nat) (decoded : Instruction) : ConstRef :=
  match getIndexTypeFromOpcode op with
  | .kIndexMethodRef => .method { triple := src.getMethodRefTriple decoded.vB }
  | .kIndexMethodAndProtoRef =>
    .method ⟨src.getMethodRefTriple decoded.vB, src.getProto (decoded.arg.getD 4 0)⟩
  | .kIndexCallSiteRef => .callSite (src.getCallSite decoded.vB)
  | _ => .none

/-- `MethodRef`. -/
structure MethodRef where
  clsName : Text
  name : Text
  paramType : List Text
  retType : Text
  triple : RefTriple
  originalClsDescriptor : Text

/-- `BuildMethodRef`. -/
def buildMethodRef (mc : MethodConst) : MethodRef :=
  let sig := if mc.callSiteProto = [] then mc.triple.sig else mc.callSiteProto
  { clsName := getType mc.triple.cls
    name := mc.triple.name
    paramType := parseParamsType sig
    retType := returnType sig
    triple := mc.triple
    originalClsDescriptor := mc.triple.cls }

/-- `RegName`. -/
def regName (n : Nat) : Text := ascii "v" ++ decimal n

/-- `BuildRangeRegs`. -/
def buildRangeRegs (count firstReg : Nat) : List Text :=
  (List.range count).map fun i => regName (firstReg + i)

/-- `InvokeRegs`. -/
structure InvokeRegs where
  c : Text
  d : Text
  e : Text
  f : Text
  g : Text

namespace InvokeRegs

/-- A slot of the window is empty past the count. -/
def slot (count i reg : Nat) : Text := if i < count then regName reg else []

/-- `BuildPolymorphicRegs`. -/
def buildPolymorphicRegs (dec : Instruction) : InvokeRegs where
  c := slot dec.vA 0 dec.vC
  d := slot dec.vA 1 (dec.arg.getD 0 0)
  e := slot dec.vA 2 (dec.arg.getD 1 0)
  f := slot dec.vA 3 (dec.arg.getD 2 0)
  g := slot dec.vA 4 (dec.arg.getD 3 0)

/-- `BuildInvokeRegs`. -/
def buildInvokeRegs (dec : Instruction) : InvokeRegs where
  c := slot dec.vA 0 (dec.arg.getD 0 0)
  d := slot dec.vA 1 (dec.arg.getD 1 0)
  e := slot dec.vA 2 (dec.arg.getD 2 0)
  f := slot dec.vA 3 (dec.arg.getD 3 0)
  g := slot dec.vA 4 (dec.arg.getD 4 0)

/-- `BuildLargs4`. -/
def largs4 (r : InvokeRegs) : List Text := [r.d, r.e, r.f, r.g]

/-- `BuildLargs5`. -/
def largs5 (r : InvokeRegs) : List Text := [r.c, r.d, r.e, r.f, r.g]

end InvokeRegs

abbrev RetState := FreshCell.State Variable

/-- `AssignExpression` with a call on its right. -/
structure CallExpression where
  lhs : Option (FreshCell.Value Variable)
  rhs : InvokeInstruction

abbrev Built := CallExpression × RetState × Vmap

/-- The variable of a result: none of a void call. -/
def returned (retType : Text) (ret : RetState) : Option (FreshCell.Value Variable) × RetState :=
  if retType = ascii "V" then (none, ret) else ((ret.step .fresh).last, ret.step .fresh)

/-- The variable of an invoke-direct: a void call on an object that is not `this` builds it. -/
def returnedDirect (retType : Text) (base : Variable) (ret : RetState) :
    Option (FreshCell.Value Variable) × RetState :=
  if retType = ascii "V" then
    match base.kind with
    | .thisParam _ => (none, ret)
    | _ => (some (.pinned base), ret.step (.pin base))
  else ((ret.step .fresh).last, ret.step .fresh)

namespace MethodRef

variable (m : MethodRef)

/-- The call on a base. -/
def call (node : InvokeNode) (base : Operand) (args : List Variable) : InvokeInstruction :=
  .make node m.clsName m.name base m.retType m.paramType args m.triple

/-- `InvokeVirtual`, and `InvokeInterface` by it. -/
def invokeVirtual (r : InvokeRegs) (ret : RetState) (vmap : Vmap) : Built :=
  let (args, vmap) := vmap.getArgs m.paramType r.largs4
  let (cReg, vmap) := vmap.getVariable r.c
  let (lhs, ret) := returned m.retType ret
  (⟨lhs, m.call .invoke (.var cReg) args⟩, ret, vmap)

/-- `InvokeSuper`. -/
def invokeSuper (r : InvokeRegs) (ret : RetState) (vmap : Vmap) : Built :=
  let (args, vmap) := vmap.getArgs m.paramType r.largs4
  let (lhs, ret) := returned m.retType ret
  (⟨lhs, m.call .invoke (.baseClass (ascii "super") []) args⟩, ret, vmap)

/-- `InvokeDirect`. -/
def invokeDirect (r : InvokeRegs) (ret : RetState) (vmap : Vmap) : Built :=
  let (args, vmap) := vmap.getArgs m.paramType r.largs4
  let (base, vmap) := vmap.getVariable r.c
  let (lhs, ret) := returnedDirect m.retType base ret
  (⟨lhs, m.call .direct (.var base) args⟩, ret, vmap)

/-- `InvokeStatic` and `InvokeStaticRange`, on the names they take. -/
def invokeStatic (largs : List Text) (ret : RetState) (vmap : Vmap) : Built :=
  let (args, vmap) := vmap.getArgs m.paramType largs
  let (lhs, ret) := returned m.retType ret
  (⟨lhs, m.call .static (.baseClass m.clsName m.originalClsDescriptor) args⟩, ret, vmap)

/-- `InvokeVirtualRange`, and `InvokeInterfaceRange` with the same body. -/
def invokeVirtualRange (regs : List Text) (ret : RetState) (vmap : Vmap) : Run Built :=
  match regs with
  | [] => .error (.thrown "InvokeVirtualRange: empty register range")
  | reg :: tail =>
    let (thisArg, vmap) := vmap.getVariable reg
    let (args, vmap) := vmap.getArgs m.paramType tail
    let (lhs, ret) := returned m.retType ret
    .ok (⟨lhs, m.call .range (.var thisArg) args⟩, ret, vmap)

/-- `InvokeSuperRange`. -/
def invokeSuperRange (regs : List Text) (ret : RetState) (vmap : Vmap) : Run Built :=
  match regs with
  | [] => .error (.thrown "InvokeSuperRange: empty register range")
  | _ :: tail =>
    let (args, vmap) := vmap.getArgs m.paramType tail
    let (lhs, ret) := returned m.retType ret
    .ok (⟨lhs, m.call .range (.baseClass (ascii "super") []) args⟩, ret, vmap)

/-- `InvokeDirectRange`. -/
def invokeDirectRange (regs : List Text) (ret : RetState) (vmap : Vmap) : Run Built :=
  match regs with
  | [] => .error (.thrown "InvokeDirectRange: empty register range")
  | reg :: tail =>
    let (thisArg, vmap) := vmap.getVariable reg
    let (args, vmap) := vmap.getArgs m.paramType tail
    let (base, vmap) := vmap.getVariable reg
    let (lhs, ret) := returnedDirect m.retType base ret
    .ok (⟨lhs, m.call .range (.var thisArg) args⟩, ret, vmap)

end MethodRef

/-- The last call of `BuildInvokeCustom`, on what the bootstrap of the site gives. -/
def buildInvokeCustom (info : CallSiteInfo) (largs : List Text) (ret : RetState) (vmap : Vmap) :
    Built :=
  let ptype := parseParamsType info.proto
  let rtype := returnType info.proto
  let (args, vmap) := vmap.getArgs ptype largs
  let invoked := InvokeInstruction.make .invoke (getType (ascii "Ljava/lang/invoke/MethodHandle;"))
    (ascii "invoke") (.dynamicInvoker info) rtype ptype args
    ⟨ascii "Ljava/lang/invoke/MethodHandle;", ascii "invoke", info.proto⟩
  let (lhs, ret) := returned rtype ret
  (⟨lhs, { invoked with callSiteMarker := true }⟩, ret, vmap)

inductive InvokeKind where
  | virtual | super | direct | static | interface | polymorphic | custom
  deriving DecidableEq, Repr

/-- The invokes of `kInstructionSet`, and whether they name a range. -/
def invokeKind : Nat → Option (InvokeKind × Bool)
  | 0x6E => some (.virtual, false)
  | 0x6F => some (.super, false)
  | 0x70 => some (.direct, false)
  | 0x71 => some (.static, false)
  | 0x72 => some (.interface, false)
  | 0x74 => some (.virtual, true)
  | 0x75 => some (.super, true)
  | 0x76 => some (.direct, true)
  | 0x77 => some (.static, true)
  | 0x78 => some (.interface, true)
  | 0xFA => some (.polymorphic, false)
  | 0xFB => some (.polymorphic, true)
  | 0xFC => some (.custom, false)
  | 0xFD => some (.custom, true)
  | _ => none

/-- The call of a method by its kind: `none` is the `NopExpression`. -/
def dispatchMethod (m : MethodRef) (kind : InvokeKind) (ranged : Bool) (d : Instruction)
    (ret : RetState) (vmap : Vmap) : Run (Option Built) :=
  let regs := InvokeRegs.buildInvokeRegs d
  let range := buildRangeRegs d.vA d.vC
  match kind, ranged with
  | .virtual, false | .interface, false => .ok (some (m.invokeVirtual regs ret vmap))
  | .super, false => .ok (some (m.invokeSuper regs ret vmap))
  | .direct, false => .ok (some (m.invokeDirect regs ret vmap))
  | .static, false => .ok (some (m.invokeStatic regs.largs5 ret vmap))
  | .polymorphic, false =>
    .ok (some (m.invokeVirtual (InvokeRegs.buildPolymorphicRegs d) ret vmap))
  | .virtual, true | .interface, true | .polymorphic, true =>
    (m.invokeVirtualRange range ret vmap).map some
  | .super, true => (m.invokeSuperRange range ret vmap).map some
  | .direct, true => (m.invokeDirectRange range ret vmap).map some
  | .static, true => .ok (some (m.invokeStatic range ret vmap))
  | .custom, _ => .ok none

/-- The call of a site that could be read. -/
def dispatchCustom (info : CallSiteInfo) (ranged : Bool) (d : Instruction) (ret : RetState)
    (vmap : Vmap) : Option Built :=
  let all := (InvokeRegs.buildInvokeRegs d).largs5
  let largs := if ranged then buildRangeRegs d.vA d.vC else all.take (min d.vA all.length)
  if info.ok then some (buildInvokeCustom info largs ret vmap) else none

/-- `DispatchInstruction` on the invokes. -/
def dispatchInvoke (op : Nat) (constRef : ConstRef) (d : Instruction) (ret : RetState)
    (vmap : Vmap) : Run (Option Built) :=
  match invokeKind op, constRef with
  | some (.custom, ranged), .callSite info => .ok (dispatchCustom info ranged d ret vmap)
  | some (kind, ranged), .method mc => dispatchMethod (buildMethodRef mc) kind ranged d ret vmap
  | _, _ => .ok none

end Dexllm
