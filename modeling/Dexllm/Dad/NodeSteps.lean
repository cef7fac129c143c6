import Dexllm.Dad.DalvikMeaning
import Dexllm.Dad.IrMeaning

/-!
What the node of a handler can stand for, and that the tables put each handler at an opcode
that means it. Two families are lost: unsigned shifts are built as signed ones, and the
constants of method handles and types are not built.
-/

namespace Dexllm

open Dad MachineWords

/-- The formats a literal is read from. -/
def LiteralCast.formats : LiteralCast → List InstructionFormat
  | .const4 => [.k11n]
  | .int16 => [.k21s, .k21h]
  | .int32 => [.k31i]
  | .wide => [.k51l]

def accessKinds : List AccessKind :=
  [.single, .wide, .object, .boolean, .byte, .char, .short]

namespace Handler

/-- The formats of the instructions a handler is for. -/
def formats : Handler → List InstructionFormat
  | moveImpl _ => [.k12x, .k22x, .k32x]
  | moveResultImpl | moveException | monitorEnter | monitorExit => [.k11x]
  | constNumImpl cast _ _ => cast.formats
  | constString => [.k21c, .k31c]
  | constClass | checkCast | newInstance | sGetImpl | sPutImpl => [.k21c]
  | instanceOf | newArray | iGetImpl | iPutImpl => [.k22c]
  | arrayLength | unaryImpl _ _ | assignCastExp _ _ _ | assignBinary2AddrExp _ _ => [.k12x]
  | fillArrayData => [.k31t]
  | assignCmp _ | loadArrayExp _ | storeArrayInst _ | assignBinaryExp _ _ => [.k23x]
  | assignLit _ | rSubInt => [.k22b, .k22s]
  | addIntLit8 => [.k22b]
  | _ => [.k10x]

/-- What a cast stands for: its text is that of its type. -/
def castMeanings (op : Text) (type srcType : TypeTag) : List Meaning :=
  if op = castText type then
    match srcType.numType, type.numType, type.smallInt with
    | some src, some dst, _ => [.convert src dst]
    | some .int, none, some small => [.narrowInt small]
    | _, _, _ => []
  else []

/-- What its node can stand for: a field access has the kind of the field, and a comparison
does not say what unordered operands give. -/
def meanings : Handler → List Meaning
  | nop => [.nop]
  | moveImpl .wide => [.move .wide]
  | moveImpl .plain | moveImpl .object => [.move .narrow]
  | moveResultImpl => [.moveResult .narrow, .moveResult .wide]
  | moveException => [.moveException]
  | constNumImpl _ shift type => type.numType.toList.map fun t => .const t.width shift
  | constString => [.constString]
  | constClass => [.constClass]
  | monitorEnter => [.monitor true]
  | monitorExit => [.monitor false]
  | checkCast => [.checkCast]
  | instanceOf => [.instanceOf]
  | arrayLength => [.arrayLength]
  | newInstance => [.newInstance]
  | newArray => [.newArray]
  | fillArrayData => [.fillArrayData]
  | assignCmp type =>
    type.numType.toList.flatMap fun t => [.compare t .lt, .compare t .eq, .compare t .gt]
  | loadArrayExp type => [.arrayGet type.access]
  | storeArrayInst type => [.arrayPut type.access]
  | iGetImpl => accessKinds.map .instanceGet
  | iPutImpl => accessKinds.map .instancePut
  | sGetImpl => accessKinds.map .staticGet
  | sPutImpl => accessKinds.map .staticPut
  | unaryImpl .sub type => type.numType.toList.map .neg
  | unaryImpl .not_ type => type.numType.toList.map fun t => .not t.width
  | assignCastExp op type srcType => castMeanings op type srcType
  | assignBinaryExp op type =>
    op.binOp.toList.flatMap fun op => type.numType.toList.map (.arith op)
  | assignBinary2AddrExp op type =>
    op.binOp.toList.flatMap fun op => type.numType.toList.map (.arithInPlace op)
  | assignLit op => op.binOp.toList.map .arithLit
  | rSubInt => [.reverseSubLit]
  | addIntLit8 => [.arithLit .add]
  | _ => []

end Handler

/-- The unsigned shifts, which are built as signed ones. -/
def Meaning.unsignedShift : Meaning → Bool
  | arith op _ | arithInPlace op _ | arithLit op => op = .ushr
  | _ => false

/-- The meanings that are not lost: the constants of method handles and types are not built. -/
def Meaning.built : Meaning → Bool
  | constMethodHandle | constMethodType => false
  | m => !m.unsignedShift

/-- The constant a handler asks for. -/
def Handler.indexType : Handler → Option InstructionIndexType
  | constString => some .kIndexStringRef
  | constClass | checkCast | instanceOf | newInstance | newArray => some .kIndexTypeRef
  | iGetImpl | iPutImpl | sGetImpl | sPutImpl => some .kIndexFieldRef
  | _ => none

/-- A handler stands at an opcode of its own. -/
structure Handler.Fits (h : Handler) (desc : InstructionDescriptor) (m : Meaning) : Prop where
  meaning : m ∈ h.meanings
  format : desc.format ∈ h.formats
  constant : ∀ i ∈ h.indexType, desc.indexType = i

/-- The tables, opcode by opcode. -/
def opcodeRows : List (Option Meaning × Handler × InstructionDescriptor) :=
  Meaning.table.zip (Handler.kInstructionSet.zip gInstructionDescriptors)

set_option maxRecDepth 20000 in
theorem rows_fit : ∀ row ∈ opcodeRows, ∀ m ∈ row.1, m.built = true →
    m ∈ row.2.1.meanings ∧ row.2.2.format ∈ row.2.1.formats ∧
      ∀ i ∈ row.2.1.indexType, row.2.2.indexType = i := by
  decide

set_option maxRecDepth 4000 in
theorem rows_length : Meaning.table.length = 256 ∧ Handler.kInstructionSet.length = 256 ∧
    gInstructionDescriptors.length = 256 := ⟨rfl, rfl, rfl⟩

theorem fits_of_opcode {op : Nat} {m : Meaning} (hm : Meaning.ofOpcode op = some m)
    (hbuilt : m.built = true) :
    (Handler.kInstructionSet.getD op .nop).Fits (descriptorOf op) m := by
  have hrow : Meaning.table[op]? = some (some m) := by
    unfold Meaning.ofOpcode at hm
    rw [List.getD_eq_getElem?_getD] at hm
    cases h : Meaning.table[op]? with
    | none => simp [h] at hm
    | some row => simpa [h] using hm
  obtain ⟨htable, hset, hdescriptors⟩ := rows_length
  have hlt : op < 256 := htable ▸ (List.getElem?_eq_some_iff.mp hrow).1
  obtain ⟨h, hh⟩ : ∃ h, Handler.kInstructionSet[op]? = some h :=
    ⟨_, List.getElem?_eq_getElem (hset ▸ hlt)⟩
  obtain ⟨desc, hdesc⟩ : ∃ desc, gInstructionDescriptors[op]? = some desc :=
    ⟨_, List.getElem?_eq_getElem (hdescriptors ▸ hlt)⟩
  have hmem : (some m, h, desc) ∈ opcodeRows :=
    List.mem_of_getElem? (List.getElem?_zip_eq_some.mpr
      ⟨hrow, List.getElem?_zip_eq_some.mpr ⟨hh, hdesc⟩⟩)
  obtain ⟨hmeaning, hformat, hconstant⟩ := rows_fit _ hmem m rfl hbuilt
  rw [descriptorOf, List.getD_eq_getElem?_getD, List.getD_eq_getElem?_getD, hh, hdesc]
  exact ⟨hmeaning, hformat, hconstant⟩

end Dexllm

/-!
What executing the node of each helper does, next to the instruction it is for. The
variables of the registers hold what the registers hold.
-/

namespace Dexllm

open Guarded Dad MachineWords Payloads

/-- The variables of the registers hold what the registers hold, alone and in pairs. -/
def Agree (env : Text → Value) (regs : Registers) : Prop :=
  ∀ w r, (env (regName r)).view w = regs.read w r

/-- The digits of a number spell it. -/
theorem digits_injective {m n : Nat} (h : digits 10 m = digits 10 n) : m = n := by
  have hchars (k : Nat) : (digits 10 k).map (fun b => Char.ofNat b.toNat) = Nat.toDigits 10 k := by
    rw [digits, List.map_map]
    refine (List.map_congr_left fun c hc => ?_).trans (List.map_id _)
    have hdigit := Nat.isDigit_of_mem_toDigits (by decide) le_rfl hc
    have hlt : c.toNat < 2 ^ 8 := by
      simp only [Char.isDigit, Bool.and_eq_true, decide_eq_true_eq] at hdigit
      have hle : c.toNat ≤ 57 := hdigit.2
      omega
    change Char.ofNat (UInt8.ofNat c.toNat).toNat = c
    rw [UInt8.toNat_ofNat', Nat.mod_eq_of_lt hlt, Char.ofNat_toNat]
  have hdigits : Nat.toDigits 10 m = Nat.toDigits 10 n := by rw [← hchars m, h, hchars n]
  rw [← Nat.ofDigitChars_toDigits (b := 10) (n := m) (by decide) le_rfl, hdigits,
    Nat.ofDigitChars_toDigits (by decide) le_rfl]

theorem regName_injective : Function.Injective regName := by
  intro m n h
  have hdecimal : decimal m = decimal n := List.append_cancel_left h
  rw [decimal, decimal, if_neg (by omega), if_neg (by omega)] at hdecimal
  exact digits_injective hdecimal

/-- Every register file has variables for it. -/
theorem exists_agree (regs : Registers) : ∃ env, Agree env regs := by
  refine ⟨fun name => .wide (regs (Function.invFun regName name + 1) ++
    regs (Function.invFun regName name)), fun w r => ?_⟩
  simp only [Function.leftInverse_invFun regName_injective r]
  cases w with
  | narrow =>
    refine congrArg Value.narrow ?_
    exact BitVec.setWidth_append_eq_right (a := regs (r + 1)) (b := regs r)
  | wide => exact congrArg Value.wide (BitVec.setWidth_eq _)

section Nodes

variable {H : Type} {M : Machine H} {pool : ConstPool} {payload : Option ParsedPayload}
  {o : DalvikOperands} {s : DalvikState H} {env : Text → Value} {vmap : Vmap}

/-- Executing a node does what an instruction does, on variables for registers. -/
def Does (M : Machine H) (pool : ConstPool) (payload : Option ParsedPayload) (o : DalvikOperands)
    (s : DalvikState H) (env : Text → Value) (node : IrNode) (m : Meaning) : Prop :=
  IrState.exec M ⟨env, s.exception, s.heap⟩ node =
    (s.step M pool payload o m).map (Outcome.map regName)

theorem Agree.bits (hagree : Agree env s.regs) (r : Nat) :
    (env (regName r)).bits 32 = s.regs r := Value.narrow.inj (hagree .narrow r)

theorem Agree.read (hagree : Agree env s.regs) (w : Width) (r : Nat) :
    (env (regName r)).view w = (s.regs.read w r).view w := by
  rw [hagree]
  cases w <;> rfl

theorem evalBinary_arith {op : Op} {b : BinOp} {type : TypeTag} {t : NumType} (x y : Value)
    (hop : op.binOp = some b) (ht : type.numType = some t) :
    IrState.evalBinary M op type x y = M.floats.arith b x y t := by
  have hcmp : op ≠ .cmp := by
    rintro rfl
    cases hop
  simp [IrState.evalBinary, ht, hop, hcmp]

/-- The operations with a literal are on ints. -/
theorem evalBinary_int {op : Op} {b : BinOp} (x y : Value) (hop : op.binOp = some b) :
    IrState.evalBinary M op .I x y = M.floats.arith b x y .int := evalBinary_arith x y hop rfl

theorem ne_instanceof {op : Op} {b : BinOp} (hop : op.binOp = some b) : op ≠ .instanceof := by
  rintro rfl
  cases hop

theorem does_binary (hagree : Agree env s.regs) {op : Op} {b : BinOp} {type : TypeTag}
    {t : NumType} (hop : op.binOp = some b) (ht : type.numType = some t) :
    Does M pool payload o s env
      (vmap.assignBinaryExp (regName o.a) (regName o.b) (regName o.c) op type).1 (.arith b t) := by
  have harith : M.floats.arith b (env (regName o.b)) (env (regName o.c)) t =
      M.floats.arith b (s.regs.read t.width o.b) (s.regs.read (b.rightWidth t) o.c) t :=
    FloatUnit.arith_congr (hagree.read _ _) (hagree.read _ _)
  simp only [Does, Vmap.assignBinaryExp, IrState.exec, Vmap.getVariable_v,
    IrState.eval_makeBinary (ne_instanceof hop), evalBinary_arith _ _ hop ht, harith,
    DalvikState.step, Option.map_map]
  rfl

theorem does_binary2Addr (hagree : Agree env s.regs) {op : Op} {b : BinOp} {type : TypeTag}
    {t : NumType} (hop : op.binOp = some b) (ht : type.numType = some t) :
    Does M pool payload o s env
      (vmap.assignBinary2AddrExp (regName o.a) (regName o.b) op type).1 (.arithInPlace b t) := by
  have harith : M.floats.arith b (env (regName o.a)) (env (regName o.b)) t =
      M.floats.arith b (s.regs.read t.width o.a) (s.regs.read (b.rightWidth t) o.b) t :=
    FloatUnit.arith_congr (hagree.read _ _) (hagree.read _ _)
  simp only [Does, Vmap.assignBinary2AddrExp, IrState.exec, Vmap.getVariable_v,
    IrState.eval_makeBinary (ne_instanceof hop), evalBinary_arith _ _ hop ht, harith,
    DalvikState.step, Option.map_map]
  rfl

theorem does_lit (hagree : Agree env s.regs) {op : Op} {b : BinOp} (hop : op.binOp = some b) :
    Does M pool payload o s env
      (vmap.assignLit op o.literal (regName o.a) (regName o.b)).1 (.arithLit b) := by
  have harith : M.floats.arith b (env (regName o.b)) (.ofInt .narrow o.literal) .int =
      M.floats.arith b (.narrow (s.regs o.b)) (.ofInt .narrow o.literal) .int :=
    FloatUnit.arith_congr (hagree.read .narrow _) rfl
  simp only [Does, Vmap.assignLit, IrState.exec, Vmap.getVariable_v,
    IrState.eval_makeLit (ne_instanceof hop) (Vmap.getVariable_v _ _),
    evalBinary_int _ _ hop, harith, DalvikState.step, Option.map_map]
  rfl

theorem does_rSub (hagree : Agree env s.regs) :
    Does M pool payload o s env
      (vmap.rSubInt (regName o.a) (regName o.b) o.literal).1 .reverseSubLit := by
  have harith : M.floats.arith .sub (.ofInt .narrow o.literal) (env (regName o.b)) .int =
      M.floats.arith .sub (.ofInt .narrow o.literal) (.narrow (s.regs o.b)) .int :=
    FloatUnit.arith_congr rfl (hagree.read .narrow _)
  simp only [Does, Vmap.rSubInt, IrState.exec, Vmap.getVariable_v,
    IrState.eval_makeReverse (Vmap.getVariable_v _ _),
    evalBinary_int _ _ (rfl : Op.binOp .sub = some .sub), harith, DalvikState.step,
    Option.map_map]
  rfl

/-- A negative literal is negated and subtracted. -/
theorem does_addLit8 (hagree : Agree env s.regs) :
    Does M pool payload o s env
      (vmap.addIntLit8 (regName o.a) (regName o.b) o.literal).1 (.arithLit .add) := by
  unfold Vmap.addIntLit8
  split
  · have harith : M.floats.arith .sub (env (regName o.b)) (.ofInt .narrow (-o.literal)) .int =
        M.floats.arith .add (.narrow (s.regs o.b)) (.ofInt .narrow o.literal) .int :=
      (FloatUnit.arith_sub_neg _).trans (FloatUnit.arith_congr (hagree.read .narrow _) rfl)
    simp only [Does, Vmap.assignLit, IrState.exec, Vmap.getVariable_v,
      IrState.eval_makeLit (by decide : Op.sub ≠ .instanceof) (Vmap.getVariable_v _ _),
      evalBinary_int _ _ (rfl : Op.binOp .sub = some .sub), harith, DalvikState.step,
      Option.map_map]
    rfl
  · exact does_lit hagree rfl

/-- A comparison of ordered operands. -/
theorem does_cmp (hagree : Agree env s.regs) {type : TypeTag} {t : NumType} {u : Ordering}
    (ht : type.numType = some t)
    (hordered : M.floats.compare (s.regs.read t.width o.b) (s.regs.read t.width o.c) t ≠ none) :
    Does M pool payload o s env
      (vmap.assignCmp (regName o.a) (regName o.b) (regName o.c) type).1 (.compare t u) := by
  have hcompare : M.floats.compare (env (regName o.b)) (env (regName o.c)) t =
      M.floats.compare (s.regs.read t.width o.b) (s.regs.read t.width o.c) t :=
    FloatUnit.compare_congr (hagree.read _ _) (hagree.read _ _)
  obtain ⟨order, horder⟩ := Option.ne_none_iff_exists'.mp hordered
  simp only [Does, Vmap.assignCmp, IrState.exec, Vmap.getVariable_v,
    IrState.eval_makeBinary (by decide : Op.cmp ≠ .instanceof), DalvikState.step,
    IrState.evalBinary, ht]
  simp [hcompare, horder]
  rfl

theorem does_neg (hagree : Agree env s.regs) {type : TypeTag} {t : NumType}
    (ht : type.numType = some t) : Does M pool payload o s env
      (vmap.unaryImpl (regName o.a) (regName o.b) .sub type).1 (.neg t) := by
  have hneg : M.floats.neg (env (regName o.b)) t = M.floats.neg (s.regs.read t.width o.b) t :=
    FloatUnit.neg_congr (hagree.read _ _)
  simp only [Does, Vmap.unaryImpl, IrState.exec, Vmap.getVariable_v, IrState.eval_makeUnary,
    IrState.evalUnary, ht, DalvikState.step, ← hneg]
  rfl

theorem does_not (hagree : Agree env s.regs) {type : TypeTag} {t : NumType}
    (ht : type.numType = some t) : Does M pool payload o s env
      (vmap.unaryImpl (regName o.a) (regName o.b) .not_ type).1 (.not t.width) := by
  have hnot : (env (regName o.b)).complement t.width =
      (s.regs.read t.width o.b).complement t.width :=
    Value.complement_congr (hagree.read _ _)
  simp only [Does, Vmap.unaryImpl, IrState.exec, Vmap.getVariable_v, IrState.eval_makeUnary,
    IrState.evalUnary, ht, DalvikState.step, ← hnot]
  rfl

theorem does_convert (hagree : Agree env s.regs) {type srcType : TypeTag} {src dst : NumType}
    (hsrc : srcType.numType = some src) (hdst : type.numType = some dst) :
    Does M pool payload o s env
      (vmap.assignCastExp (regName o.a) (regName o.b) (castText type) type srcType).1
      (.convert src dst) := by
  have hcast : M.floats.cast (env (regName o.b)) src dst =
      M.floats.cast (s.regs.read src.width o.b) src dst :=
    FloatUnit.cast_congr (hagree.read _ _)
  simp only [Does, Vmap.assignCastExp, IrState.exec, Vmap.getVariable_v, IrState.eval_makeCast,
    IrState.evalCast, hsrc, hdst, DalvikState.step, ← hcast]
  rfl

theorem does_narrowInt (hagree : Agree env s.regs) {type srcType : TypeTag} {small : SmallInt}
    (hsrc : srcType.numType = some .int) (hdst : type.numType = none)
    (hsmall : type.smallInt = some small) : Does M pool payload o s env
      (vmap.assignCastExp (regName o.a) (regName o.b) (castText type) type srcType).1
      (.narrowInt small) := by
  have hcast : small.ofInt (env (regName o.b)) = small.ofInt (.narrow (s.regs o.b)) :=
    SmallInt.ofInt_congr (hagree.read .narrow _)
  simp only [Does, Vmap.assignCastExp, IrState.exec, Vmap.getVariable_v, IrState.eval_makeCast,
    IrState.evalCast, hsrc, hdst, hsmall, DalvikState.step, ← hcast]
  rfl

theorem does_move (hagree : Agree env s.regs) {kind : MoveKind} {w : Width}
    (hkind : .move w ∈ (Handler.moveImpl kind).meanings) : Does M pool payload o s env
      (vmap.moveImpl (regName o.a) (regName o.b) kind).1 (.move w) := by
  have hmoved : IrState.moved kind (env (regName o.b)) = s.regs.read w o.b := by
    cases kind with
    | unknown => cases hkind
    | plain | object =>
      obtain rfl := Meaning.move.inj (List.mem_singleton.mp hkind)
      exact hagree .narrow o.b
    | wide =>
      obtain rfl := Meaning.move.inj (List.mem_singleton.mp hkind)
      exact hagree .wide o.b
  simp only [Does, Vmap.moveImpl, IrState.exec, Vmap.getVariable_v, hmoved, DalvikState.step]
  rfl

theorem does_moveResult {w : Width} {x : FreshCell.Value Variable} {lhs : Variable}
    (hlhs : lhs.v = regName o.a) (hwidth : s.result.width = w)
    (hresult : env (resultId x) = s.result) :
    Does M pool payload o s env (.moveResult lhs x) (.moveResult w) := by
  simp only [Does, IrState.exec, hlhs, hresult, DalvikState.step, if_pos hwidth]
  rfl

theorem does_moveException {type : Text} : Does M pool payload o s env
    (vmap.moveException (regName o.a) type).1 .moveException := by
  simp only [Does, Vmap.moveException, IrState.exec, Vmap.getVariable_v, DalvikState.step]
  rfl

theorem does_const {type : TypeTag} {t : NumType} {shift : Nat} (ht : type.numType = some t) :
    Does M pool payload o s env
      (vmap.constNumImpl (regName o.a) (shiftLeft64 o.literal shift) type).1
      (.const t.width shift) := by
  have hvalue : Value.ofInt t.width (shiftLeft64 o.literal shift) =
      .ofInt t.width (o.literal * 2 ^ shift) := Value.ofInt_bmod _ _
  simp only [Does, Vmap.constNumImpl, Vmap.assignConst, IrState.exec, IrState.eval,
    Vmap.getVariable_v, ht, DalvikState.step, ← hvalue]
  rfl

theorem does_constString : Does M pool payload o s env
    (vmap.constString (regName o.a) (pool.getString o.index)).1 .constString := by
  simp only [Does, Vmap.constString, Vmap.assignConst, IrState.exec, IrState.eval,
    Vmap.getVariable_v, DalvikState.step, Option.map_map]
  rfl

theorem does_constClass : Does M pool payload o s env
    (vmap.constClass (regName o.a) (pool.getTypeName o.index)).1 .constClass := by
  simp only [Does, Vmap.constClass, Vmap.assignConst, IrState.exec, IrState.eval,
    Vmap.getVariable_v, DalvikState.step, Option.map_map]
  rfl

theorem does_monitor (hagree : Agree env s.regs) {x : Variable} (hx : x.v = regName o.a) :
    Does M pool payload o s env (.monitorEnter x) (.monitor true) ∧
      Does M pool payload o s env (.monitorExit x) (.monitor false) := by
  simp only [Does, IrState.exec, hx, hagree.bits, DalvikState.step, Option.map_map]
  exact ⟨rfl, rfl⟩

theorem does_checkCast (hagree : Agree env s.regs) : Does M pool payload o s env
    (vmap.checkCast (regName o.a) (pool.getTypeName o.index)).1 .checkCast := by
  simp only [Does, Vmap.checkCast, IrState.exec, Vmap.getVariable_v,
    IrState.eval_makeCheckCast, hagree.bits, DalvikState.step]
  split <;> rfl

theorem does_instanceOf (hagree : Agree env s.regs) : Does M pool payload o s env
    (vmap.instanceOf (regName o.a) (regName o.b) (pool.getTypeName o.index)).1 .instanceOf := by
  simp only [Does, Vmap.instanceOf, IrState.exec, Vmap.getVariable_v,
    IrState.eval_instanceOf (Vmap.getVariable_v _ _), hagree.bits, DalvikState.step]
  rfl

theorem does_arrayLength (hagree : Agree env s.regs) : Does M pool payload o s env
    (vmap.arrayLength (regName o.a) (regName o.b)).1 .arrayLength := by
  simp only [Does, Vmap.arrayLength, IrState.exec, Vmap.getVariable_v,
    IrState.eval_makeArrayLength, hagree.bits, DalvikState.step, Option.map_map]
  rfl

theorem does_newInstance : Does M pool payload o s env
    (vmap.newInstance (regName o.a) (pool.getTypeName o.index)).1 .newInstance := by
  simp only [Does, Vmap.newInstance, IrState.exec, IrState.eval, Vmap.getVariable_v,
    DalvikState.step, Option.map_map]
  rfl

theorem does_newArray (hagree : Agree env s.regs) : Does M pool payload o s env
    (vmap.newArray (regName o.a) (regName o.b) (pool.getTypeName o.index)).1 .newArray := by
  simp only [Does, Vmap.newArray, IrState.exec, Vmap.getVariable_v, IrState.eval_makeNewArray,
    hagree.bits, DalvikState.step, Option.map_map]
  rfl

theorem does_fillArray (hagree : Agree env s.regs) {x : Variable} (hx : x.v = regName o.a) :
    Does M pool payload o s env (.fillArray x (payloadValues payload)) .fillArrayData := by
  simp only [Does, IrState.exec, hx, hagree.bits, DalvikState.step, Option.map_map]
  rfl

theorem does_arrayGet (hagree : Agree env s.regs) {type : TypeTag} :
    Does M pool payload o s env
      (vmap.loadArrayExp (regName o.a) (regName o.b) (regName o.c) type).1
      (.arrayGet type.access) := by
  simp only [Does, Vmap.loadArrayExp, IrState.exec, Vmap.getVariable_v,
    IrState.eval_makeArrayLoad, hagree.bits, DalvikState.step, Option.map_map]
  rfl

theorem does_arrayPut (hagree : Agree env s.regs) {type : TypeTag} :
    Does M pool payload o s env
      (vmap.storeArrayInst (regName o.a) (regName o.b) (regName o.c) type).1
      (.arrayPut type.access) := by
  simp only [Does, Vmap.storeArrayInst, Vmap.getVariable_v, IrState.exec_makeArrayStore,
    hagree.bits, hagree _ _, DalvikState.step, Option.map_map]
  rfl

variable {field : RefTriple} {kind : AccessKind}

theorem does_instanceGet (hagree : Agree env s.regs)
    (hfield : pool.getFieldRefTriple o.index = field)
    (hkind : AccessKind.ofDescriptor field.sig = kind) : Does M pool payload o s env
      (vmap.iGetImpl (regName o.a) (regName o.b) field.cls field.sig field.name).1
      (.instanceGet kind) := by
  subst hkind hfield
  simp only [Does, Vmap.iGetImpl, IrState.exec, Vmap.getVariable_v, IrState.eval_makeInstance,
    hagree.bits, DalvikState.step, Option.map_map]
  rfl

theorem does_instancePut (hagree : Agree env s.regs)
    (hfield : pool.getFieldRefTriple o.index = field)
    (hkind : AccessKind.ofDescriptor field.sig = kind) : Does M pool payload o s env
      (vmap.iPutImpl (regName o.a) (regName o.b) field.cls field.sig field.name).1
      (.instancePut kind) := by
  subst hkind hfield
  simp only [Does, Vmap.iPutImpl, Vmap.getVariable_v, IrState.exec_makeInstanceStore,
    hagree.bits, hagree _ _, DalvikState.step, Option.map_map]
  rfl

theorem does_staticGet (hfield : pool.getFieldRefTriple o.index = field)
    (hkind : AccessKind.ofDescriptor field.sig = kind) : Does M pool payload o s env
      (vmap.sGetImpl (regName o.a) field.cls field.sig field.name).1 (.staticGet kind) := by
  subst hkind hfield
  simp only [Does, Vmap.sGetImpl, IrState.exec, IrState.eval, IrExpression.makeStatic,
    Vmap.getVariable_v, DalvikState.step, Option.map_map]
  rfl

theorem does_staticPut (hagree : Agree env s.regs) (hfield : pool.getFieldRefTriple o.index = field)
    (hkind : AccessKind.ofDescriptor field.sig = kind) : Does M pool payload o s env
      (vmap.sPutImpl (regName o.a) field.cls field.sig field.name).1 (.staticPut kind) := by
  subst hkind hfield
  simp only [Does, Vmap.sPutImpl, Vmap.getVariable_v, IrState.exec_makeStaticStore,
    hagree _ _, DalvikState.step, Option.map_map]
  rfl

end Nodes

end Dexllm
