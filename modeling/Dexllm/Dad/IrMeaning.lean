import Dexllm.Dad.ArgumentPicks
import Dexllm.Dad.DalvikMeaning

/-!
What executing a node does to the variables and the heap. A variable is named by its id; the
operands of an expression are what its map holds under their ids.
-/

namespace Dexllm

open Guarded Dad MachineWords

/-- The Java text of a cast. -/
def castText : TypeTag → Text
  | .I => ascii "(int)"
  | .J => ascii "(long)"
  | .F => ascii "(float)"
  | .D => ascii "(double)"
  | .B => ascii "(byte)"
  | .C => ascii "(char)"
  | .S => ascii "(short)"
  | _ => []

namespace TypeTag

def numType : TypeTag → Option NumType
  | I => some .int
  | J => some .long
  | F => some .float
  | D => some .double
  | _ => none

def smallInt : TypeTag → Option SmallInt
  | B => some .byte
  | C => some .char
  | S => some .short
  | _ => none

/-- The access an array node stands for. -/
def access : TypeTag → AccessKind
  | W => .wide
  | O => .object
  | Z => .boolean
  | B => .byte
  | C => .char
  | S => .short
  | _ => .single

end TypeTag

/-- The arithmetic an operator stands for. -/
def Op.binOp : Op → Option BinOp
  | add => some .add
  | sub => some .sub
  | mul => some .mul
  | div => some .div
  | mod => some .rem
  | and_ => some .and
  | or_ => some .or
  | xor_ => some .xor
  | shl => some .shl
  | shr => some .shr
  | _ => none

/-- The id of a result: `tmp%d`, or the variable a constructor call builds. -/
def resultId : FreshCell.Value Variable → Text
  | .fresh n => ascii "tmp" ++ decimal n
  | .pinned x => x.v

/-- What a node is executed on. -/
structure IrState (H : Type) where
  env : Text → Value
  exception : BitVec 32
  heap : H

namespace IrState

variable {H : Type} (M : Machine H) (s : IrState H)

/-- The value of an operand. -/
def operand (varMap : VarMap) (id : Text) : Option Value :=
  match varMap.lookup id with
  | some (.var x) => some (s.env x.v)
  | some (.number value type) => type.numType.map fun t => .ofInt t.width value
  | _ => none

/-- A reference operand. -/
def ref (varMap : VarMap) (id : Text) : Option (BitVec 32) := (s.operand varMap id).map (·.bits 32)

/-- The operand of `instanceof` that is a class. -/
def classOf (varMap : VarMap) (id : Text) : Option Text :=
  match varMap.lookup id with
  | some (.baseClass _ descriptor) => some descriptor
  | _ => none

def evalBinary (op : Op) (type : TypeTag) (x y : Value) : Option Value := do
  let t ← type.numType
  if op = .cmp then
    let order := (M.floats.compare x y t).map orderingBits
    pure (.narrow (order.getD M.unordered))
  else
    let op ← op.binOp
    M.floats.arith op x y t

def evalUnary (op : Op) (type : TypeTag) (x : Value) : Option Value := do
  let t ← type.numType
  match op with
  | .sub => pure (M.floats.neg x t)
  | .not_ => pure (.complement x t.width)
  | _ => none

/-- The text of the cast says what its type does. -/
def evalCast (op : Text) (type srcType : TypeTag) (x : Value) : Option Value :=
  if op = castText type then
    match srcType.numType, type.numType, type.smallInt with
    | some src, some dst, _ => some (M.floats.cast x src dst)
    | some .int, none, some small => some (small.ofInt x)
    | _, _, _ => none
  else none

/-- The value of a right-hand side, and the heap it leaves. -/
def eval : IrExpression → Option (Value × H)
  | .constant (.number value type) =>
    type.numType.map fun t => (.ofInt t.width value, s.heap)
  | .constant (.string value) => (M.stringRef value s.heap).map fun r => (.narrow r.1, r.2)
  | .constant (.cls _ descriptor) => (M.classRef descriptor s.heap).map fun r => (.narrow r.1, r.2)
  | .binary _ op arg1 arg2 varMap type =>
    if op = .instanceof then do
      let r ← s.ref varMap arg1
      let descriptor ← classOf varMap arg2
      some (.narrow (if M.isInstance descriptor r s.heap then 1 else 0), s.heap)
    else do
      let x ← s.operand varMap arg1
      let y ← s.operand varMap arg2
      (evalBinary M op type x y).map fun value => (value, s.heap)
  | .unary op arg varMap type => do
    let x ← s.operand varMap arg
    (evalUnary M op type x).map fun value => (value, s.heap)
  | .cast op arg varMap type srcType => do
    let x ← s.operand varMap arg
    (evalCast M op type srcType x).map fun value => (value, s.heap)
  | .checkCast arg varMap type => do
    let r ← s.ref varMap arg
    if M.castable type r s.heap then some (.narrow r, s.heap) else none
  | .arrayLoad array idx varMap type => do
    let r ← s.ref varMap array
    let i ← s.ref varMap idx
    (M.arrayLoad type.access r i s.heap).map fun value =>
      (.ofBits type.access.width value, s.heap)
  | .arrayLength array varMap => do
    let r ← s.ref varMap array
    (M.arrayLength r s.heap).map fun n => (.narrow n, s.heap)
  | .newInstance type => (M.newInstance type s.heap).map fun r => (.narrow r.1, r.2)
  | .newArray size varMap type => do
    let n ← s.ref varMap size
    (M.newArray type n s.heap).map fun r => (.narrow r.1, r.2)
  | .instance_ arg varMap _ ftype name clsdesc => do
    let r ← s.ref varMap arg
    let kind := AccessKind.ofDescriptor ftype
    (M.instanceLoad kind ⟨clsdesc, name, ftype⟩ r s.heap).map fun value =>
      (.ofBits kind.width value, s.heap)
  | .static_ _ ftype name clsdesc =>
    let kind := AccessKind.ofDescriptor ftype
    (M.staticLoad kind ⟨clsdesc, name, ftype⟩ s.heap).map fun x => (.ofBits kind.width x.1, x.2)

/-- The value a move copies. -/
def moved (kind : MoveKind) (x : Value) : Value :=
  match kind with
  | .unknown => x
  | .wide => x.view .wide
  | .plain | .object => x.view .narrow

/-- Executes a node that transfers no control. -/
def exec : IrNode → Option (Outcome Text H)
  | .nop => some (.keeps s.heap)
  | .assign lhs rhs => (s.eval M rhs).map fun x => .assigns lhs.v x.1 x.2
  | .move lhs rhs kind => some (.assigns lhs.v (moved kind (s.env rhs.v)) s.heap)
  | .moveResult lhs rhs => some (.assigns lhs.v (s.env (resultId rhs)) s.heap)
  | .moveException ref _ => some (.assigns ref.v (.narrow s.exception) s.heap)
  | .arrayStore rhs array index varMap type => do
    let r ← s.ref varMap array
    let i ← s.ref varMap index
    let x ← s.operand varMap rhs
    (M.arrayStore type.access r i (x.view type.access.width) s.heap).map .keeps
  | .instanceStore lhs rhs varMap _ atype name clsdesc => do
    let r ← s.ref varMap lhs
    let x ← s.operand varMap rhs
    let kind := AccessKind.ofDescriptor atype
    (M.instanceStore kind ⟨clsdesc, name, atype⟩ r (x.view kind.width) s.heap).map .keeps
  | .staticStore rhs varMap _ ftype name clsdesc => do
    let x ← s.operand varMap rhs
    let kind := AccessKind.ofDescriptor ftype
    (M.staticStore kind ⟨clsdesc, name, ftype⟩ (x.view kind.width) s.heap).map .keeps
  | .fillArray reg values =>
    (M.fillArray values ((s.env reg.v).bits 32) s.heap).map .keeps
  | .monitorEnter ref => (M.monitor true ((s.env ref.v).bits 32) s.heap).map .keeps
  | .monitorExit ref => (M.monitor false ((s.env ref.v).bits 32) s.heap).map .keeps
  | _ => none

end IrState

namespace Vmap

@[simp] theorem getVariable_v (vmap : Vmap) (k : Text) : (vmap.getVariable k).1.v = k :=
  (vmap.getVariable_spec k).1.id

end Vmap

/-- No constant has the id of a register. -/
theorem constant_ne_regName {t : Text} {r : Nat} : ascii "c" ++ t ≠ regName r := by
  simp [regName, ascii]

namespace IrState

variable {H : Type} {M : Machine H} {s : IrState H} {x y z : Variable}

/-- A variable among the operands is found under its id, where no constant has that id. -/
theorem operand_of_mem {operands : List Leaf} (hx : .var x ∈ operands)
    (hvars : ∀ l ∈ operands, l.vid = x.v → ∃ y, l = .var y) :
    s.operand (.ofLeaves operands) x.v = some (s.env x.v) := by
  have hmem : (x.v, Leaf.var x) ∈ VarMap.ofLeaves operands :=
    List.mem_map.mpr ⟨.var x, List.mem_reverse.mpr hx, rfl⟩
  obtain ⟨l, hl⟩ :=
    Option.isSome_iff_exists.mp (Association.lookup_isSome_iff.mpr ⟨_, hmem, rfl⟩)
  obtain ⟨l', hl', heq⟩ := List.mem_map.mp (Association.mem_of_lookup hl)
  obtain ⟨hvid, rfl⟩ := Prod.mk.inj heq
  obtain ⟨y, rfl⟩ := hvars l' (List.mem_reverse.mp hl') hvid
  have hy : y.v = x.v := hvid
  rw [operand, hl]
  exact congrArg (fun id => some (s.env id)) hy

/-- The reference a variable among others has. -/
theorem ref_of_mem {operands : List Leaf} (hx : .var x ∈ operands)
    (hvars : ∀ l ∈ operands, l.vid = x.v → ∃ y, l = .var y) :
    s.ref (.ofLeaves operands) x.v = some ((s.env x.v).bits 32) := by
  rw [ref, operand_of_mem hx hvars]
  rfl

/-! The right-hand sides and the stores on the variables they are made of. -/

theorem eval_makeBinary {op : Op} {node : BinaryNode} {type : TypeTag} (hop : op ≠ .instanceof) :
    s.eval M (.makeBinary node op (.var x) (.var y) type) =
      (evalBinary M op type (s.env x.v) (s.env y.v)).map fun v => (v, s.heap) := by
  have hleft : s.operand (.ofLeaves [.var x, .var y]) x.v = some (s.env x.v) :=
    operand_of_mem (by simp) (by simp)
  have hright : s.operand (.ofLeaves [.var x, .var y]) y.v = some (s.env y.v) :=
    operand_of_mem (by simp) (by simp)
  rw [IrExpression.makeBinary, eval, if_neg hop]
  simp only [Leaf.vid, hleft, hright]
  rfl

/-- A constant on the right, next to the variable of a register. -/
theorem eval_makeLit {op : Op} {n : Int} {r : Nat} (hop : op ≠ .instanceof)
    (hx : x.v = regName r) :
    s.eval M (.makeBinary .lit op (.var x) (.number n .I) .I) =
      (evalBinary M op .I (s.env x.v) (.ofInt .narrow n)).map fun v => (v, s.heap) := by
  have hleft : s.operand (.ofLeaves [.var x, .number n .I]) x.v = some (s.env x.v) :=
    operand_of_mem (by simp) (by simp [hx, Leaf.vid, constant_ne_regName])
  have hright : s.operand (.ofLeaves [.var x, .number n .I]) (Leaf.number n .I).vid =
      some (.ofInt .narrow n) := by
    simp [operand, VarMap.ofLeaves, TypeTag.numType, NumType.width]
  rw [IrExpression.makeBinary, eval, if_neg hop, Leaf.vid, hleft, hright]
  rfl

/-- A constant on the left. -/
theorem eval_makeReverse {n : Int} {r : Nat} (hx : x.v = regName r) :
    s.eval M (.makeBinary .lit .sub (.number n .I) (.var x) .I) =
      (evalBinary M .sub .I (.ofInt .narrow n) (s.env x.v)).map fun v => (v, s.heap) := by
  have hright : s.operand (.ofLeaves [.number n .I, .var x]) x.v = some (s.env x.v) :=
    operand_of_mem (by simp) (by simp [hx, Leaf.vid, constant_ne_regName])
  have hleft : s.operand (.ofLeaves [.number n .I, .var x]) (Leaf.number n .I).vid =
      some (.ofInt .narrow n) := by
    have hne : (ascii "c" ++ decimal n == x.v) = false := by
      rw [hx, beq_eq_false_iff_ne]
      exact constant_ne_regName
    simp [operand, VarMap.ofLeaves, List.lookup_cons, Leaf.vid, hne, TypeTag.numType,
      NumType.width]
  rw [IrExpression.makeBinary, eval, if_neg (by decide)]
  simp only [hleft]
  rw [Leaf.vid, hright]
  rfl

theorem eval_instanceOf {cls descriptor : Text} {type : TypeTag} {r : Nat} (hx : x.v = regName r) :
    s.eval M (.makeBinary .plain .instanceof (.var x) (.baseClass cls descriptor) type) =
      some (.narrow (if M.isInstance descriptor ((s.env x.v).bits 32) s.heap then 1 else 0),
        s.heap) := by
  have hleft : s.ref (.ofLeaves [.var x, .baseClass cls descriptor]) x.v =
      some ((s.env x.v).bits 32) :=
    ref_of_mem (by simp) (by simp [hx, Leaf.vid, constant_ne_regName])
  have hright : classOf (.ofLeaves [.var x, .baseClass cls descriptor])
      (Leaf.baseClass cls descriptor).vid = some descriptor := by
    simp [classOf, VarMap.ofLeaves]
  rw [IrExpression.makeBinary, eval, if_pos rfl, Leaf.vid, hleft, hright]
  rfl

theorem eval_makeUnary {op : Op} {type : TypeTag} : s.eval M (.makeUnary op (.var x) type) =
    (evalUnary M op type (s.env x.v)).map fun v => (v, s.heap) := by
  rw [IrExpression.makeUnary, eval, Leaf.vid, operand_of_mem (by simp) (by simp)]
  rfl

theorem eval_makeCast {op : Text} {type srcType : TypeTag} :
    s.eval M (.makeCast op type (.var x) srcType) =
      (evalCast M op type srcType (s.env x.v)).map fun v => (v, s.heap) := by
  rw [IrExpression.makeCast, eval, Leaf.vid, operand_of_mem (by simp) (by simp)]
  rfl

theorem eval_makeCheckCast {descriptor : Text} :
    s.eval M (.makeCheckCast (.var x) descriptor) =
      if M.castable descriptor ((s.env x.v).bits 32) s.heap then
        some (.narrow ((s.env x.v).bits 32), s.heap)
      else none := by
  rw [IrExpression.makeCheckCast, eval, Leaf.vid, ref_of_mem (by simp) (by simp)]
  rfl

theorem eval_makeArrayLoad {type : TypeTag} :
    s.eval M (.makeArrayLoad (.var x) (.var y) type) =
      (M.arrayLoad type.access ((s.env x.v).bits 32) ((s.env y.v).bits 32) s.heap).map fun v =>
        (.ofBits type.access.width v, s.heap) := by
  have hleft : s.ref (.ofLeaves [.var x, .var y]) x.v = some ((s.env x.v).bits 32) :=
    ref_of_mem (by simp) (by simp)
  have hright : s.ref (.ofLeaves [.var x, .var y]) y.v = some ((s.env y.v).bits 32) :=
    ref_of_mem (by simp) (by simp)
  simp only [IrExpression.makeArrayLoad, eval, Leaf.vid, hleft, hright]
  rfl

theorem eval_makeArrayLength : s.eval M (.makeArrayLength (.var x)) =
    (M.arrayLength ((s.env x.v).bits 32) s.heap).map fun n => (.narrow n, s.heap) := by
  rw [IrExpression.makeArrayLength, eval, Leaf.vid, ref_of_mem (by simp) (by simp)]
  rfl

theorem eval_makeNewArray {type : Text} : s.eval M (.makeNewArray (.var x) type) =
    (M.newArray type ((s.env x.v).bits 32) s.heap).map fun r => (.narrow r.1, r.2) := by
  rw [IrExpression.makeNewArray, eval, Leaf.vid, ref_of_mem (by simp) (by simp)]
  rfl

theorem eval_makeInstance {klass ftype name : Text} :
    s.eval M (.makeInstance (.var x) klass ftype name) =
      (M.instanceLoad (.ofDescriptor ftype) ⟨klass, name, ftype⟩ ((s.env x.v).bits 32)
        s.heap).map fun v => (.ofBits (AccessKind.ofDescriptor ftype).width v, s.heap) := by
  rw [IrExpression.makeInstance, eval, Leaf.vid, ref_of_mem (by simp) (by simp)]
  rfl

theorem exec_makeArrayStore {type : TypeTag} :
    s.exec M (.makeArrayStore (.var x) (.var y) (.var z) type) =
      (M.arrayStore type.access ((s.env y.v).bits 32) ((s.env z.v).bits 32)
        ((s.env x.v).view type.access.width) s.heap).map .keeps := by
  have hvalue : s.operand (.ofLeaves [.var x, .var y, .var z]) x.v = some (s.env x.v) :=
    operand_of_mem (by simp) (by simp)
  have harray : s.ref (.ofLeaves [.var x, .var y, .var z]) y.v = some ((s.env y.v).bits 32) :=
    ref_of_mem (by simp) (by simp)
  have hindex : s.ref (.ofLeaves [.var x, .var y, .var z]) z.v = some ((s.env z.v).bits 32) :=
    ref_of_mem (by simp) (by simp)
  simp only [IrNode.makeArrayStore, exec, Leaf.vid, hvalue, harray, hindex]
  rfl

theorem exec_makeInstanceStore {klass atype name : Text} :
    s.exec M (.makeInstanceStore (.var x) (.var y) klass atype name) =
      (M.instanceStore (.ofDescriptor atype) ⟨klass, name, atype⟩ ((s.env y.v).bits 32)
        ((s.env x.v).view (AccessKind.ofDescriptor atype).width) s.heap).map .keeps := by
  have hvalue : s.operand (.ofLeaves [.var y, .var x]) x.v = some (s.env x.v) :=
    operand_of_mem (by simp) (by simp)
  have hobject : s.ref (.ofLeaves [.var y, .var x]) y.v = some ((s.env y.v).bits 32) :=
    ref_of_mem (by simp) (by simp)
  simp only [IrNode.makeInstanceStore, exec, Leaf.vid, hvalue, hobject]
  rfl

theorem exec_makeStaticStore {klass ftype name : Text} :
    s.exec M (.makeStaticStore (.var x) klass ftype name) =
      (M.staticStore (.ofDescriptor ftype) ⟨klass, name, ftype⟩
        ((s.env x.v).view (AccessKind.ofDescriptor ftype).width) s.heap).map .keeps := by
  rw [IrNode.makeStaticStore, exec, Leaf.vid, operand_of_mem (by simp) (by simp)]
  rfl

end IrState

end Dexllm
