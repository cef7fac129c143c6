import Dexllm.Dad.DecodedFields
import Dexllm.Dad.NodeSteps

/-!
The nodes that are built for the instructions that transfer no control. Each does what its
instruction does, but for the constants of method handles and types, which are not built,
and for float comparisons, whose node is the same for both opcodes of a type.
-/

namespace Dexllm

open Guarded Dad MachineWords Payloads Bytes

/-- An instruction as it is decoded and as its format lays it out. -/
structure EncodedInstruction (mem : Memory) (p inst : Nat) (d : Instruction) (o : DalvikOperands)
    (m : Meaning) : Prop where
  unit : unitAt mem p 0 = .ok inst
  decoded : decodeInstruction mem p = .ok d
  operands : dalvikOperands mem p = .ok o
  meaning : Meaning.ofOpcode (opcodeFromBytecode inst) = some m

/-- The operands that are no registers are what the instruction needs: the variable of the
last call holds its result, of the width of the move; a field has the kind of its access; the
payload of an array is there in full. -/
structure ResolvedOperands {H : Type} (pool : ConstPool) (payload : Option ParsedPayload)
    (ret : RetState) (env : Text → Value) (o : DalvikOperands) (s : DalvikState H) (m : Meaning) :
    Prop where
  result : ∀ w, m = .moveResult w →
    s.result.width = w ∧ ∃ x, ret.last = some x ∧ env (resultId x) = s.result
  field : ∀ kind, m = .instanceGet kind ∨ m = .instancePut kind ∨ m = .staticGet kind ∨
    m = .staticPut kind → AccessKind.ofDescriptor (pool.getFieldRefTriple o.index).sig = kind
  payload : m = .fillArrayData → ∃ w size data, payload = some (.fillArray w size data) ∧
    IsWidth w ∧ w * size ≤ data.length ∧ data.length < 2 ^ 32

/-- The operands of a comparison can be compared. -/
def OrderedOperands {H : Type} (M : Machine H) (o : DalvikOperands) (s : DalvikState H)
    (m : Meaning) : Prop :=
  ∀ t u, m = .compare t u →
    M.floats.compare (s.regs.read t.width o.b) (s.regs.read t.width o.c) t ≠ none

section Dispatch

variable {H : Type} {M : Machine H} {pool : ConstPool} {payload : Option ParsedPayload}
  {ret : RetState} {env : Text → Value} {mem : Memory} {p inst op : Nat} {d : Instruction}
  {o : DalvikOperands} {s : DalvikState H} {m : Meaning} {f : InstructionFormat}

/-- The index of a constant is where the format has it. -/
theorem pickIdx_eq (hdecodes : DecodesTo d o (getFormatFromOpcode op))
    (hformat : getFormatFromOpcode op ∈ [.k21c, .k31c, .k22c]) : pickIdx op d = o.index := by
  unfold pickIdx
  generalize getFormatFromOpcode op = f at hdecodes hformat
  simp only [List.mem_cons, List.not_mem_nil, or_false] at hformat
  obtain rfl | rfl | rfl := hformat
  · exact hdecodes.2
  · exact hdecodes.2
  · exact hdecodes.2.2

theorem resolve_string (hindex : getIndexTypeFromOpcode op = .kIndexStringRef)
    (hpick : pickIdx op d = o.index) :
    (resolveOperand pool op d).strConst = pool.getString o.index := by
  rw [resolveOperand, hindex, hpick]
  rfl

theorem resolve_type (hindex : getIndexTypeFromOpcode op = .kIndexTypeRef)
    (hpick : pickIdx op d = o.index) :
    (resolveOperand pool op d).typeDesc = pool.getTypeName o.index := by
  rw [resolveOperand, hindex, hpick]
  rfl

theorem resolve_field (hindex : getIndexTypeFromOpcode op = .kIndexFieldRef)
    (hpick : pickIdx op d = o.index) :
    (resolveOperand pool op d).fieldTriple = pool.getFieldRefTriple o.index := by
  rw [resolveOperand, hindex, hpick]
  rfl

/-- The registers of the formats with two. -/
theorem decodes_pair (hdecodes : DecodesTo d o f) (hformat : f ∈ [.k12x, .k22x, .k32x]) :
    d.vA = o.a ∧ d.vB = o.b := by
  simp only [List.mem_cons, List.not_mem_nil, or_false] at hformat
  obtain rfl | rfl | rfl := hformat <;> exact hdecodes

/-- The literals of the constants. -/
theorem decodes_constant {cast : LiteralCast} (hdecodes : DecodesTo d o f)
    (hformat : f ∈ cast.formats) : d.vA = o.a ∧ cast.read d = o.literal := by
  cases cast with
  | const4 =>
    obtain rfl := List.mem_singleton.mp hformat
    exact hdecodes
  | int16 =>
    simp only [LiteralCast.formats, List.mem_cons, List.not_mem_nil, or_false] at hformat
    obtain rfl | rfl := hformat <;> exact hdecodes
  | int32 =>
    obtain rfl := List.mem_singleton.mp hformat
    exact hdecodes
  | wide =>
    obtain rfl := List.mem_singleton.mp hformat
    exact hdecodes

/-- The literals of the arithmetic. -/
theorem decodes_literal (hdecodes : DecodesTo d o f) (hformat : f ∈ [.k22b, .k22s]) :
    d.vA = o.a ∧ d.vB = o.b ∧ staticCast 32 d.vC = o.literal := by
  simp only [List.mem_cons, List.not_mem_nil, or_false] at hformat
  obtain rfl | rfl := hformat <;> exact hdecodes

/-- The meaning of a cast handler is that of its text. -/
theorem does_cast {op : Text} {type srcType : TypeTag} (hagree : Agree env s.regs)
    (hmeaning : m ∈ Handler.castMeanings op type srcType) (vmap : Vmap) :
    Does M pool payload o s env
      (vmap.assignCastExp (regName o.a) (regName o.b) op type srcType).1 m := by
  unfold Handler.castMeanings at hmeaning
  split at hmeaning
  case isFalse => cases hmeaning
  case isTrue hop =>
    subst hop
    split at hmeaning
    case h_1 src dst _ hsrc hdst =>
      obtain rfl := List.mem_singleton.mp hmeaning
      exact does_convert hagree hsrc hdst
    case h_2 small hsrc hdst hsmall =>
      obtain rfl := List.mem_singleton.mp hmeaning
      exact does_narrowInt hagree hsrc hdst hsmall
    case h_3 => cases hmeaning

theorem does_unary {op : Op} {type : TypeTag} (hagree : Agree env s.regs)
    (hmeaning : m ∈ (Handler.unaryImpl op type).meanings) (vmap : Vmap) :
    Does M pool payload o s env (vmap.unaryImpl (regName o.a) (regName o.b) op type).1 m := by
  cases op with
  | sub =>
    obtain ⟨t, ht, rfl⟩ := List.mem_map.mp hmeaning
    exact does_neg hagree (Option.mem_toList.mp ht)
  | not_ =>
    obtain ⟨t, ht, rfl⟩ := List.mem_map.mp hmeaning
    exact does_not hagree (Option.mem_toList.mp ht)
  | _ => cases hmeaning

/-- The dispatch builds a node that does what the instruction does. -/
def BuiltFaithfully (M : Machine H) (pool : ConstPool) (payload : Option ParsedPayload)
    (ret : RetState) (env : Text → Value) (op : Nat) (d : Instruction) (o : DalvikOperands)
    (s : DalvikState H) (m : Meaning) : Prop :=
  ∀ (vmap : Vmap) (exceptionType : Text), ∃ node ret' vmap',
    dispatchInstruction op (resolveOperand pool op d) d payload exceptionType ret vmap =
        .ok (node, ret', vmap') ∧
      Does M pool payload o s env node m

end Dispatch

/-- A machine whose operations all succeed, and whose numbers have no order. -/
def blankMachine (unordered : BitVec 32) : Machine Unit where
  floats :=
    { arith32 := fun _ x _ => x
      arith64 := fun _ x _ => x
      neg32 := id
      neg64 := id
      convert := fun _ _ x => x
      compare32 := fun _ _ => none
      compare64 := fun _ _ => none }
  unordered := unordered
  stringRef _ h := some (0, h)
  classRef _ h := some (0, h)
  methodHandleRef _ h := some (0, h)
  methodTypeRef _ h := some (0, h)
  castable _ _ _ := true
  isInstance _ _ _ := true
  monitor _ _ h := some h
  newInstance _ h := some (0, h)
  newArray _ _ h := some (0, h)
  arrayLength _ _ := some 0
  fillArray _ _ h := some h
  arrayLoad _ _ _ _ := some 0
  arrayStore _ _ _ _ h := some h
  instanceLoad _ _ _ _ := some 0
  instanceStore _ _ _ _ h := some h
  staticLoad _ _ h := some (0, h)
  staticStore _ _ _ h := some h

def blankPool : ConstPool :=
  ⟨fun _ => [], fun _ => [], fun _ => {}, ⟨fun _ => {}, fun _ => [], fun _ => {}⟩⟩

def blankState : DalvikState Unit := ⟨fun _ => 0, .narrow 0, 0, ()⟩

def blankEnv : Text → Value := fun _ => .wide 0

theorem blankEnv_agree : Agree blankEnv blankState.regs := by
  intro w r
  cases w with
  | narrow => rfl
  | wide => exact congrArg Value.wide (show (0 : BitVec 64) = 0#32 ++ 0#32 by decide)

set_option maxRecDepth 4000 in
/-- `add-int/lit8 v0, v1, #-1`. -/
theorem addIntLit8_encoded : EncodedInstruction [0xD8, 0x00, 0x01, 0xFF] 0 0x00D8
    { vA := 0, vB := 1, vC := 0xFFFFFFFF } { a := 0, b := 1, literal := -1 } (.arithLit .add) :=
  ⟨rfl, rfl, rfl, rfl⟩

/-- A const-method-handle is built into a node that assigns nothing. -/
theorem methodHandle_lost : ¬BuiltFaithfully (blankMachine 0) blankPool none {} blankEnv 0xFE {} {}
    blankState .constMethodHandle := by
  intro h
  obtain ⟨node, ret', vmap', hnode, hdoes⟩ := h ⟨[], nofun⟩ []
  cases hnode
  exact absurd (congrArg (Option.map Outcome.write) hdoes) nofun

/-- The comparisons of floats are built into one node, whatever it gives on operands without
an order. -/
theorem comparison_lost (unordered : BitVec 32) :
    ¬(BuiltFaithfully (blankMachine unordered) blankPool none {} blankEnv 0x2D {} {} blankState
        (.compare .float .lt) ∧
      BuiltFaithfully (blankMachine unordered) blankPool none {} blankEnv 0x2E {} {} blankState
        (.compare .float .gt)) := by
  rintro ⟨hless, hgreater⟩
  obtain ⟨node, ret', vmap', hnode, hless⟩ := hless ⟨[], nofun⟩ []
  obtain ⟨node', ret'', vmap'', hnode', hgreater⟩ := hgreater ⟨[], nofun⟩ []
  cases hnode
  cases hnode'
  have hboth := hless.symm.trans hgreater
  have hwrite : (some (some (regName 0, Value.narrow (-1))) : Option (Option (Text × Value))) =
      some (some (regName 0, Value.narrow 1)) := congrArg (Option.map Outcome.write) hboth
  have hvalue := congrArg Prod.snd (Option.some.inj (Option.some.inj hwrite))
  exact absurd (Value.narrow.inj hvalue) (by decide)

end Dexllm
