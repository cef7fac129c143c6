import Dexllm.Lib.Bytes

/-!
The Dalvik instruction table of `dex_instruction_list.h` and the two slicer
routines over it that the verifier calls: the width of an instruction and its
decoded operands.
-/

namespace Dexllm

open Guarded Bytes

inductive InstructionFormat where
  | k10x | k12x | k11n | k11x | k10t | k20t | k20bc | k22x | k21t | k21s | k21h | k21c | k23x
  | k22b | k22t | k22s | k22c | k22cs | k30t | k32x | k31i | k31t | k31c | k35c | k35ms | k3rc
  | k3rms | k35mi | k3rmi | k45cc | k4rcc | k51l
  deriving DecidableEq, Repr

inductive InstructionIndexType where
  | kIndexUnknown | kIndexNone | kIndexVaries | kIndexTypeRef | kIndexStringRef
  | kIndexMethodRef | kIndexFieldRef | kIndexInlineMethod | kIndexVtableOffset
  | kIndexFieldOffset | kIndexMethodAndProtoRef | kIndexCallSiteRef | kIndexMethodHandleRef
  | kIndexProtoRef
  deriving DecidableEq, Repr

/-! The bits of `VerifyFlags`. -/

def kVerifyNothing : Nat := 0x0

def kVerifyRegA : Nat := 0x1

def kVerifyRegAWide : Nat := 0x2

def kVerifyRegB : Nat := 0x4

def kVerifyRegBField : Nat := 0x8

def kVerifyRegBMethod : Nat := 0x10

def kVerifyRegBNewInstance : Nat := 0x20

def kVerifyRegBString : Nat := 0x40

def kVerifyRegBType : Nat := 0x80

def kVerifyRegBWide : Nat := 0x100

def kVerifyRegC : Nat := 0x200

def kVerifyRegCField : Nat := 0x400

def kVerifyRegCNewArray : Nat := 0x800

def kVerifyRegCType : Nat := 0x1000

def kVerifyRegCWide : Nat := 0x2000

def kVerifyArrayData : Nat := 0x4000

def kVerifyBranchTarget : Nat := 0x8000

def kVerifySwitchTargets : Nat := 0x10000

def kVerifyVarArg : Nat := 0x20000

def kVerifyVarArgNonZero : Nat := 0x40000

def kVerifyVarArgRange : Nat := 0x80000

def kVerifyVarArgRangeNonZero : Nat := 0x100000

def kVerifyRuntimeOnly : Nat := 0x200000

def kVerifyError : Nat := 0x400000

def kVerifyRegHPrototype : Nat := 0x800000

def kVerifyRegBCallSite : Nat := 0x1000000

def kVerifyRegBMethodHandle : Nat := 0x2000000

def kVerifyRegBPrototype : Nat := 0x4000000

structure InstructionDescriptor where
  verifyFlags : Nat
  format : InstructionFormat
  indexType : InstructionIndexType
  deriving DecidableEq, Repr

/-- `gInstructionDescriptors`, opcode 0x00 first. -/
def gInstructionDescriptors : List InstructionDescriptor := [
  ⟨kVerifyNothing, .k10x, .kIndexNone⟩,
  ⟨kVerifyRegA ||| kVerifyRegB, .k12x, .kIndexNone⟩,
  ⟨kVerifyRegA ||| kVerifyRegB, .k22x, .kIndexNone⟩,
  ⟨kVerifyRegA ||| kVerifyRegB, .k32x, .kIndexNone⟩,
  ⟨kVerifyRegAWide ||| kVerifyRegBWide, .k12x, .kIndexNone⟩,
  ⟨kVerifyRegAWide ||| kVerifyRegBWide, .k22x, .kIndexNone⟩,
  ⟨kVerifyRegAWide ||| kVerifyRegBWide, .k32x, .kIndexNone⟩,
  ⟨kVerifyRegA ||| kVerifyRegB, .k12x, .kIndexNone⟩,
  ⟨kVerifyRegA ||| kVerifyRegB, .k22x, .kIndexNone⟩,
  ⟨kVerifyRegA ||| kVerifyRegB, .k32x, .kIndexNone⟩,
  ⟨kVerifyRegA, .k11x, .kIndexNone⟩,
  ⟨kVerifyRegAWide, .k11x, .kIndexNone⟩,
  ⟨kVerifyRegA, .k11x, .kIndexNone⟩,
  ⟨kVerifyRegA, .k11x, .kIndexNone⟩,
  ⟨kVerifyNothing, .k10x, .kIndexNone⟩,
  ⟨kVerifyRegA, .k11x, .kIndexNone⟩,
  ⟨kVerifyRegAWide, .k11x, .kIndexNone⟩,
  ⟨kVerifyRegA, .k11x, .kIndexNone⟩,
  ⟨kVerifyRegA, .k11n, .kIndexNone⟩,
  ⟨kVerifyRegA, .k21s, .kIndexNone⟩,
  ⟨kVerifyRegA, .k31i, .kIndexNone⟩,
  ⟨kVerifyRegA, .k21h, .kIndexNone⟩,
  ⟨kVerifyRegAWide, .k21s, .kIndexNone⟩,
  ⟨kVerifyRegAWide, .k31i, .kIndexNone⟩,
  ⟨kVerifyRegAWide, .k51l, .kIndexNone⟩,
  ⟨kVerifyRegAWide, .k21h, .kIndexNone⟩,
  ⟨kVerifyRegA ||| kVerifyRegBString, .k21c, .kIndexStringRef⟩,
  ⟨kVerifyRegA ||| kVerifyRegBString, .k31c, .kIndexStringRef⟩,
  ⟨kVerifyRegA ||| kVerifyRegBType, .k21c, .kIndexTypeRef⟩,
  ⟨kVerifyRegA, .k11x, .kIndexNone⟩,
  ⟨kVerifyRegA, .k11x, .kIndexNone⟩,
  ⟨kVerifyRegA ||| kVerifyRegBType, .k21c, .kIndexTypeRef⟩,
  ⟨kVerifyRegA ||| kVerifyRegB ||| kVerifyRegCType, .k22c, .kIndexTypeRef⟩,
  ⟨kVerifyRegA ||| kVerifyRegB, .k12x, .kIndexNone⟩,
  ⟨kVerifyRegA ||| kVerifyRegBNewInstance, .k21c, .kIndexTypeRef⟩,
  ⟨kVerifyRegA ||| kVerifyRegB ||| kVerifyRegCNewArray, .k22c, .kIndexTypeRef⟩,
  ⟨kVerifyRegBType ||| kVerifyVarArg, .k35c, .kIndexTypeRef⟩,
  ⟨kVerifyRegBType ||| kVerifyVarArgRange, .k3rc, .kIndexTypeRef⟩,
  ⟨kVerifyRegA ||| kVerifyArrayData, .k31t, .kIndexNone⟩,
  ⟨kVerifyRegA, .k11x, .kIndexNone⟩,
  ⟨kVerifyBranchTarget, .k10t, .kIndexNone⟩,
  ⟨kVerifyBranchTarget, .k20t, .kIndexNone⟩,
  ⟨kVerifyBranchTarget, .k30t, .kIndexNone⟩,
  ⟨kVerifyRegA ||| kVerifySwitchTargets, .k31t, .kIndexNone⟩,
  ⟨kVerifyRegA ||| kVerifySwitchTargets, .k31t, .kIndexNone⟩,
  ⟨kVerifyRegA ||| kVerifyRegB ||| kVerifyRegC, .k23x, .kIndexNone⟩,
  ⟨kVerifyRegA ||| kVerifyRegB ||| kVerifyRegC, .k23x, .kIndexNone⟩,
  ⟨kVerifyRegA ||| kVerifyRegBWide ||| kVerifyRegCWide, .k23x, .kIndexNone⟩,
  ⟨kVerifyRegA ||| kVerifyRegBWide ||| kVerifyRegCWide, .k23x, .kIndexNone⟩,
  ⟨kVerifyRegA ||| kVerifyRegBWide ||| kVerifyRegCWide, .k23x, .kIndexNone⟩,
  ⟨kVerifyRegA ||| kVerifyRegB ||| kVerifyBranchTarget, .k22t, .kIndexNone⟩,
  ⟨kVerifyRegA ||| kVerifyRegB ||| kVerifyBranchTarget, .k22t, .kIndexNone⟩,
  ⟨kVerifyRegA ||| kVerifyRegB ||| kVerifyBranchTarget, .k22t, .kIndexNone⟩,
  ⟨kVerifyRegA ||| kVerifyRegB ||| kVerifyBranchTarget, .k22t, .kIndexNone⟩,
  ⟨kVerifyRegA ||| kVerifyRegB ||| kVerifyBranchTarget, .k22t, .kIndexNone⟩,
  ⟨kVerifyRegA ||| kVerifyRegB ||| kVerifyBranchTarget, .k22t, .kIndexNone⟩,
  ⟨kVerifyRegA ||| kVerifyBranchTarget, .k21t, .kIndexNone⟩,
  ⟨kVerifyRegA ||| kVerifyBranchTarget, .k21t, .kIndexNone⟩,
  ⟨kVerifyRegA ||| kVerifyBranchTarget, .k21t, .kIndexNone⟩,
  ⟨kVerifyRegA ||| kVerifyBranchTarget, .k21t, .kIndexNone⟩,
  ⟨kVerifyRegA ||| kVerifyBranchTarget, .k21t, .kIndexNone⟩,
  ⟨kVerifyRegA ||| kVerifyBranchTarget, .k21t, .kIndexNone⟩,
  ⟨kVerifyError, .k10x, .kIndexUnknown⟩,
  ⟨kVerifyError, .k10x, .kIndexUnknown⟩,
  ⟨kVerifyError, .k10x, .kIndexUnknown⟩,
  ⟨kVerifyError, .k10x, .kIndexUnknown⟩,
  ⟨kVerifyError, .k10x, .kIndexUnknown⟩,
  ⟨kVerifyError, .k10x, .kIndexUnknown⟩,
  ⟨kVerifyRegA ||| kVerifyRegB ||| kVerifyRegC, .k23x, .kIndexNone⟩,
  ⟨kVerifyRegAWide ||| kVerifyRegB ||| kVerifyRegC, .k23x, .kIndexNone⟩,
  ⟨kVerifyRegA ||| kVerifyRegB ||| kVerifyRegC, .k23x, .kIndexNone⟩,
  ⟨kVerifyRegA ||| kVerifyRegB ||| kVerifyRegC, .k23x, .kIndexNone⟩,
  ⟨kVerifyRegA ||| kVerifyRegB ||| kVerifyRegC, .k23x, .kIndexNone⟩,
  ⟨kVerifyRegA ||| kVerifyRegB ||| kVerifyRegC, .k23x, .kIndexNone⟩,
  ⟨kVerifyRegA ||| kVerifyRegB ||| kVerifyRegC, .k23x, .kIndexNone⟩,
  ⟨kVerifyRegA ||| kVerifyRegB ||| kVerifyRegC, .k23x, .kIndexNone⟩,
  ⟨kVerifyRegAWide ||| kVerifyRegB ||| kVerifyRegC, .k23x, .kIndexNone⟩,
  ⟨kVerifyRegA ||| kVerifyRegB ||| kVerifyRegC, .k23x, .kIndexNone⟩,
  ⟨kVerifyRegA ||| kVerifyRegB ||| kVerifyRegC, .k23x, .kIndexNone⟩,
  ⟨kVerifyRegA ||| kVerifyRegB ||| kVerifyRegC, .k23x, .kIndexNone⟩,
  ⟨kVerifyRegA ||| kVerifyRegB ||| kVerifyRegC, .k23x, .kIndexNone⟩,
  ⟨kVerifyRegA ||| kVerifyRegB ||| kVerifyRegC, .k23x, .kIndexNone⟩,
  ⟨kVerifyRegA ||| kVerifyRegB ||| kVerifyRegCField, .k22c, .kIndexFieldRef⟩,
  ⟨kVerifyRegAWide ||| kVerifyRegB ||| kVerifyRegCField, .k22c, .kIndexFieldRef⟩,
  ⟨kVerifyRegA ||| kVerifyRegB ||| kVerifyRegCField, .k22c, .kIndexFieldRef⟩,
  ⟨kVerifyRegA ||| kVerifyRegB ||| kVerifyRegCField, .k22c, .kIndexFieldRef⟩,
  ⟨kVerifyRegA ||| kVerifyRegB ||| kVerifyRegCField, .k22c, .kIndexFieldRef⟩,
  ⟨kVerifyRegA ||| kVerifyRegB ||| kVerifyRegCField, .k22c, .kIndexFieldRef⟩,
  ⟨kVerifyRegA ||| kVerifyRegB ||| kVerifyRegCField, .k22c, .kIndexFieldRef⟩,
  ⟨kVerifyRegA ||| kVerifyRegB ||| kVerifyRegCField, .k22c, .kIndexFieldRef⟩,
  ⟨kVerifyRegAWide ||| kVerifyRegB ||| kVerifyRegCField, .k22c, .kIndexFieldRef⟩,
  ⟨kVerifyRegA ||| kVerifyRegB ||| kVerifyRegCField, .k22c, .kIndexFieldRef⟩,
  ⟨kVerifyRegA ||| kVerifyRegB ||| kVerifyRegCField, .k22c, .kIndexFieldRef⟩,
  ⟨kVerifyRegA ||| kVerifyRegB ||| kVerifyRegCField, .k22c, .kIndexFieldRef⟩,
  ⟨kVerifyRegA ||| kVerifyRegB ||| kVerifyRegCField, .k22c, .kIndexFieldRef⟩,
  ⟨kVerifyRegA ||| kVerifyRegB ||| kVerifyRegCField, .k22c, .kIndexFieldRef⟩,
  ⟨kVerifyRegA ||| kVerifyRegBField, .k21c, .kIndexFieldRef⟩,
  ⟨kVerifyRegAWide ||| kVerifyRegBField, .k21c, .kIndexFieldRef⟩,
  ⟨kVerifyRegA ||| kVerifyRegBField, .k21c, .kIndexFieldRef⟩,
  ⟨kVerifyRegA ||| kVerifyRegBField, .k21c, .kIndexFieldRef⟩,
  ⟨kVerifyRegA ||| kVerifyRegBField, .k21c, .kIndexFieldRef⟩,
  ⟨kVerifyRegA ||| kVerifyRegBField, .k21c, .kIndexFieldRef⟩,
  ⟨kVerifyRegA ||| kVerifyRegBField, .k21c, .kIndexFieldRef⟩,
  ⟨kVerifyRegA ||| kVerifyRegBField, .k21c, .kIndexFieldRef⟩,
  ⟨kVerifyRegAWide ||| kVerifyRegBField, .k21c, .kIndexFieldRef⟩,
  ⟨kVerifyRegA ||| kVerifyRegBField, .k21c, .kIndexFieldRef⟩,
  ⟨kVerifyRegA ||| kVerifyRegBField, .k21c, .kIndexFieldRef⟩,
  ⟨kVerifyRegA ||| kVerifyRegBField, .k21c, .kIndexFieldRef⟩,
  ⟨kVerifyRegA ||| kVerifyRegBField, .k21c, .kIndexFieldRef⟩,
  ⟨kVerifyRegA ||| kVerifyRegBField, .k21c, .kIndexFieldRef⟩,
  ⟨kVerifyRegBMethod ||| kVerifyVarArgNonZero, .k35c, .kIndexMethodRef⟩,
  ⟨kVerifyRegBMethod ||| kVerifyVarArgNonZero, .k35c, .kIndexMethodRef⟩,
  ⟨kVerifyRegBMethod ||| kVerifyVarArgNonZero, .k35c, .kIndexMethodRef⟩,
  ⟨kVerifyRegBMethod ||| kVerifyVarArg, .k35c, .kIndexMethodRef⟩,
  ⟨kVerifyRegBMethod ||| kVerifyVarArgNonZero, .k35c, .kIndexMethodRef⟩,
  ⟨kVerifyNothing, .k10x, .kIndexNone⟩,
  ⟨kVerifyRegBMethod ||| kVerifyVarArgRangeNonZero, .k3rc, .kIndexMethodRef⟩,
  ⟨kVerifyRegBMethod ||| kVerifyVarArgRangeNonZero, .k3rc, .kIndexMethodRef⟩,
  ⟨kVerifyRegBMethod ||| kVerifyVarArgRangeNonZero, .k3rc, .kIndexMethodRef⟩,
  ⟨kVerifyRegBMethod ||| kVerifyVarArgRange, .k3rc, .kIndexMethodRef⟩,
  ⟨kVerifyRegBMethod ||| kVerifyVarArgRangeNonZero, .k3rc, .kIndexMethodRef⟩,
  ⟨kVerifyError, .k10x, .kIndexUnknown⟩,
  ⟨kVerifyError, .k10x, .kIndexUnknown⟩,
  ⟨kVerifyRegA ||| kVerifyRegB, .k12x, .kIndexNone⟩,
  ⟨kVerifyRegA ||| kVerifyRegB, .k12x, .kIndexNone⟩,
  ⟨kVerifyRegAWide ||| kVerifyRegBWide, .k12x, .kIndexNone⟩,
  ⟨kVerifyRegAWide ||| kVerifyRegBWide, .k12x, .kIndexNone⟩,
  ⟨kVerifyRegA ||| kVerifyRegB, .k12x, .kIndexNone⟩,
  ⟨kVerifyRegAWide ||| kVerifyRegBWide, .k12x, .kIndexNone⟩,
  ⟨kVerifyRegAWide ||| kVerifyRegB, .k12x, .kIndexNone⟩,
  ⟨kVerifyRegA ||| kVerifyRegB, .k12x, .kIndexNone⟩,
  ⟨kVerifyRegAWide ||| kVerifyRegB, .k12x, .kIndexNone⟩,
  ⟨kVerifyRegA ||| kVerifyRegBWide, .k12x, .kIndexNone⟩,
  ⟨kVerifyRegA ||| kVerifyRegBWide, .k12x, .kIndexNone⟩,
  ⟨kVerifyRegAWide ||| kVerifyRegBWide, .k12x, .kIndexNone⟩,
  ⟨kVerifyRegA ||| kVerifyRegB, .k12x, .kIndexNone⟩,
  ⟨kVerifyRegAWide ||| kVerifyRegB, .k12x, .kIndexNone⟩,
  ⟨kVerifyRegAWide ||| kVerifyRegB, .k12x, .kIndexNone⟩,
  ⟨kVerifyRegA ||| kVerifyRegBWide, .k12x, .kIndexNone⟩,
  ⟨kVerifyRegAWide ||| kVerifyRegBWide, .k12x, .kIndexNone⟩,
  ⟨kVerifyRegA ||| kVerifyRegBWide, .k12x, .kIndexNone⟩,
  ⟨kVerifyRegA ||| kVerifyRegB, .k12x, .kIndexNone⟩,
  ⟨kVerifyRegA ||| kVerifyRegB, .k12x, .kIndexNone⟩,
  ⟨kVerifyRegA ||| kVerifyRegB, .k12x, .kIndexNone⟩,
  ⟨kVerifyRegA ||| kVerifyRegB ||| kVerifyRegC, .k23x, .kIndexNone⟩,
  ⟨kVerifyRegA ||| kVerifyRegB ||| kVerifyRegC, .k23x, .kIndexNone⟩,
  ⟨kVerifyRegA ||| kVerifyRegB ||| kVerifyRegC, .k23x, .kIndexNone⟩,
  ⟨kVerifyRegA ||| kVerifyRegB ||| kVerifyRegC, .k23x, .kIndexNone⟩,
  ⟨kVerifyRegA ||| kVerifyRegB ||| kVerifyRegC, .k23x, .kIndexNone⟩,
  ⟨kVerifyRegA ||| kVerifyRegB ||| kVerifyRegC, .k23x, .kIndexNone⟩,
  ⟨kVerifyRegA ||| kVerifyRegB ||| kVerifyRegC, .k23x, .kIndexNone⟩,
  ⟨kVerifyRegA ||| kVerifyRegB ||| kVerifyRegC, .k23x, .kIndexNone⟩,
  ⟨kVerifyRegA ||| kVerifyRegB ||| kVerifyRegC, .k23x, .kIndexNone⟩,
  ⟨kVerifyRegA ||| kVerifyRegB ||| kVerifyRegC, .k23x, .kIndexNone⟩,
  ⟨kVerifyRegA ||| kVerifyRegB ||| kVerifyRegC, .k23x, .kIndexNone⟩,
  ⟨kVerifyRegAWide ||| kVerifyRegBWide ||| kVerifyRegCWide, .k23x, .kIndexNone⟩,
  ⟨kVerifyRegAWide ||| kVerifyRegBWide ||| kVerifyRegCWide, .k23x, .kIndexNone⟩,
  ⟨kVerifyRegAWide ||| kVerifyRegBWide ||| kVerifyRegCWide, .k23x, .kIndexNone⟩,
  ⟨kVerifyRegAWide ||| kVerifyRegBWide ||| kVerifyRegCWide, .k23x, .kIndexNone⟩,
  ⟨kVerifyRegAWide ||| kVerifyRegBWide ||| kVerifyRegCWide, .k23x, .kIndexNone⟩,
  ⟨kVerifyRegAWide ||| kVerifyRegBWide ||| kVerifyRegCWide, .k23x, .kIndexNone⟩,
  ⟨kVerifyRegAWide ||| kVerifyRegBWide ||| kVerifyRegCWide, .k23x, .kIndexNone⟩,
  ⟨kVerifyRegAWide ||| kVerifyRegBWide ||| kVerifyRegCWide, .k23x, .kIndexNone⟩,
  ⟨kVerifyRegAWide ||| kVerifyRegBWide ||| kVerifyRegC, .k23x, .kIndexNone⟩,
  ⟨kVerifyRegAWide ||| kVerifyRegBWide ||| kVerifyRegC, .k23x, .kIndexNone⟩,
  ⟨kVerifyRegAWide ||| kVerifyRegBWide ||| kVerifyRegC, .k23x, .kIndexNone⟩,
  ⟨kVerifyRegA ||| kVerifyRegB ||| kVerifyRegC, .k23x, .kIndexNone⟩,
  ⟨kVerifyRegA ||| kVerifyRegB ||| kVerifyRegC, .k23x, .kIndexNone⟩,
  ⟨kVerifyRegA ||| kVerifyRegB ||| kVerifyRegC, .k23x, .kIndexNone⟩,
  ⟨kVerifyRegA ||| kVerifyRegB ||| kVerifyRegC, .k23x, .kIndexNone⟩,
  ⟨kVerifyRegA ||| kVerifyRegB ||| kVerifyRegC, .k23x, .kIndexNone⟩,
  ⟨kVerifyRegAWide ||| kVerifyRegBWide ||| kVerifyRegCWide, .k23x, .kIndexNone⟩,
  ⟨kVerifyRegAWide ||| kVerifyRegBWide ||| kVerifyRegCWide, .k23x, .kIndexNone⟩,
  ⟨kVerifyRegAWide ||| kVerifyRegBWide ||| kVerifyRegCWide, .k23x, .kIndexNone⟩,
  ⟨kVerifyRegAWide ||| kVerifyRegBWide ||| kVerifyRegCWide, .k23x, .kIndexNone⟩,
  ⟨kVerifyRegAWide ||| kVerifyRegBWide ||| kVerifyRegCWide, .k23x, .kIndexNone⟩,
  ⟨kVerifyRegA ||| kVerifyRegB, .k12x, .kIndexNone⟩,
  ⟨kVerifyRegA ||| kVerifyRegB, .k12x, .kIndexNone⟩,
  ⟨kVerifyRegA ||| kVerifyRegB, .k12x, .kIndexNone⟩,
  ⟨kVerifyRegA ||| kVerifyRegB, .k12x, .kIndexNone⟩,
  ⟨kVerifyRegA ||| kVerifyRegB, .k12x, .kIndexNone⟩,
  ⟨kVerifyRegA ||| kVerifyRegB, .k12x, .kIndexNone⟩,
  ⟨kVerifyRegA ||| kVerifyRegB, .k12x, .kIndexNone⟩,
  ⟨kVerifyRegA ||| kVerifyRegB, .k12x, .kIndexNone⟩,
  ⟨kVerifyRegA ||| kVerifyRegB, .k12x, .kIndexNone⟩,
  ⟨kVerifyRegA ||| kVerifyRegB, .k12x, .kIndexNone⟩,
  ⟨kVerifyRegA ||| kVerifyRegB, .k12x, .kIndexNone⟩,
  ⟨kVerifyRegAWide ||| kVerifyRegBWide, .k12x, .kIndexNone⟩,
  ⟨kVerifyRegAWide ||| kVerifyRegBWide, .k12x, .kIndexNone⟩,
  ⟨kVerifyRegAWide ||| kVerifyRegBWide, .k12x, .kIndexNone⟩,
  ⟨kVerifyRegAWide ||| kVerifyRegBWide, .k12x, .kIndexNone⟩,
  ⟨kVerifyRegAWide ||| kVerifyRegBWide, .k12x, .kIndexNone⟩,
  ⟨kVerifyRegAWide ||| kVerifyRegBWide, .k12x, .kIndexNone⟩,
  ⟨kVerifyRegAWide ||| kVerifyRegBWide, .k12x, .kIndexNone⟩,
  ⟨kVerifyRegAWide ||| kVerifyRegBWide, .k12x, .kIndexNone⟩,
  ⟨kVerifyRegAWide ||| kVerifyRegB, .k12x, .kIndexNone⟩,
  ⟨kVerifyRegAWide ||| kVerifyRegB, .k12x, .kIndexNone⟩,
  ⟨kVerifyRegAWide ||| kVerifyRegB, .k12x, .kIndexNone⟩,
  ⟨kVerifyRegA ||| kVerifyRegB, .k12x, .kIndexNone⟩,
  ⟨kVerifyRegA ||| kVerifyRegB, .k12x, .kIndexNone⟩,
  ⟨kVerifyRegA ||| kVerifyRegB, .k12x, .kIndexNone⟩,
  ⟨kVerifyRegA ||| kVerifyRegB, .k12x, .kIndexNone⟩,
  ⟨kVerifyRegA ||| kVerifyRegB, .k12x, .kIndexNone⟩,
  ⟨kVerifyRegAWide ||| kVerifyRegBWide, .k12x, .kIndexNone⟩,
  ⟨kVerifyRegAWide ||| kVerifyRegBWide, .k12x, .kIndexNone⟩,
  ⟨kVerifyRegAWide ||| kVerifyRegBWide, .k12x, .kIndexNone⟩,
  ⟨kVerifyRegAWide ||| kVerifyRegBWide, .k12x, .kIndexNone⟩,
  ⟨kVerifyRegAWide ||| kVerifyRegBWide, .k12x, .kIndexNone⟩,
  ⟨kVerifyRegA ||| kVerifyRegB, .k22s, .kIndexNone⟩,
  ⟨kVerifyRegA ||| kVerifyRegB, .k22s, .kIndexNone⟩,
  ⟨kVerifyRegA ||| kVerifyRegB, .k22s, .kIndexNone⟩,
  ⟨kVerifyRegA ||| kVerifyRegB, .k22s, .kIndexNone⟩,
  ⟨kVerifyRegA ||| kVerifyRegB, .k22s, .kIndexNone⟩,
  ⟨kVerifyRegA ||| kVerifyRegB, .k22s, .kIndexNone⟩,
  ⟨kVerifyRegA ||| kVerifyRegB, .k22s, .kIndexNone⟩,
  ⟨kVerifyRegA ||| kVerifyRegB, .k22s, .kIndexNone⟩,
  ⟨kVerifyRegA ||| kVerifyRegB, .k22b, .kIndexNone⟩,
  ⟨kVerifyRegA ||| kVerifyRegB, .k22b, .kIndexNone⟩,
  ⟨kVerifyRegA ||| kVerifyRegB, .k22b, .kIndexNone⟩,
  ⟨kVerifyRegA ||| kVerifyRegB, .k22b, .kIndexNone⟩,
  ⟨kVerifyRegA ||| kVerifyRegB, .k22b, .kIndexNone⟩,
  ⟨kVerifyRegA ||| kVerifyRegB, .k22b, .kIndexNone⟩,
  ⟨kVerifyRegA ||| kVerifyRegB, .k22b, .kIndexNone⟩,
  ⟨kVerifyRegA ||| kVerifyRegB, .k22b, .kIndexNone⟩,
  ⟨kVerifyRegA ||| kVerifyRegB, .k22b, .kIndexNone⟩,
  ⟨kVerifyRegA ||| kVerifyRegB, .k22b, .kIndexNone⟩,
  ⟨kVerifyRegA ||| kVerifyRegB, .k22b, .kIndexNone⟩,
  ⟨kVerifyRegA ||| kVerifyRegB ||| kVerifyRuntimeOnly, .k22c, .kIndexFieldOffset⟩,
  ⟨kVerifyRegAWide ||| kVerifyRegB ||| kVerifyRuntimeOnly, .k22c, .kIndexFieldOffset⟩,
  ⟨kVerifyRegA ||| kVerifyRegB ||| kVerifyRuntimeOnly, .k22c, .kIndexFieldOffset⟩,
  ⟨kVerifyRegA ||| kVerifyRegB ||| kVerifyRuntimeOnly, .k22c, .kIndexFieldOffset⟩,
  ⟨kVerifyRegAWide ||| kVerifyRegB ||| kVerifyRuntimeOnly, .k22c, .kIndexFieldOffset⟩,
  ⟨kVerifyRegA ||| kVerifyRegB ||| kVerifyRuntimeOnly, .k22c, .kIndexFieldOffset⟩,
  ⟨kVerifyVarArgNonZero ||| kVerifyRuntimeOnly, .k35c, .kIndexVtableOffset⟩,
  ⟨kVerifyVarArgRangeNonZero ||| kVerifyRuntimeOnly, .k3rc, .kIndexVtableOffset⟩,
  ⟨kVerifyRegA ||| kVerifyRegB ||| kVerifyRuntimeOnly, .k22c, .kIndexFieldOffset⟩,
  ⟨kVerifyRegA ||| kVerifyRegB ||| kVerifyRuntimeOnly, .k22c, .kIndexFieldOffset⟩,
  ⟨kVerifyRegA ||| kVerifyRegB ||| kVerifyRuntimeOnly, .k22c, .kIndexFieldOffset⟩,
  ⟨kVerifyRegA ||| kVerifyRegB ||| kVerifyRuntimeOnly, .k22c, .kIndexFieldOffset⟩,
  ⟨kVerifyRegA ||| kVerifyRegB ||| kVerifyRuntimeOnly, .k22c, .kIndexFieldOffset⟩,
  ⟨kVerifyRegA ||| kVerifyRegB ||| kVerifyRuntimeOnly, .k22c, .kIndexFieldOffset⟩,
  ⟨kVerifyRegA ||| kVerifyRegB ||| kVerifyRuntimeOnly, .k22c, .kIndexFieldOffset⟩,
  ⟨kVerifyRegA ||| kVerifyRegB ||| kVerifyRuntimeOnly, .k22c, .kIndexFieldOffset⟩,
  ⟨kVerifyError, .k10x, .kIndexUnknown⟩,
  ⟨kVerifyError, .k10x, .kIndexUnknown⟩,
  ⟨kVerifyError, .k10x, .kIndexUnknown⟩,
  ⟨kVerifyError, .k10x, .kIndexUnknown⟩,
  ⟨kVerifyError, .k10x, .kIndexUnknown⟩,
  ⟨kVerifyError, .k10x, .kIndexUnknown⟩,
  ⟨kVerifyError, .k10x, .kIndexUnknown⟩,
  ⟨kVerifyRegBMethod ||| kVerifyVarArgNonZero ||| kVerifyRegHPrototype,
    .k45cc, .kIndexMethodAndProtoRef⟩,
  ⟨kVerifyRegBMethod ||| kVerifyVarArgRangeNonZero ||| kVerifyRegHPrototype,
    .k4rcc, .kIndexMethodAndProtoRef⟩,
  ⟨kVerifyRegBCallSite ||| kVerifyVarArg, .k35c, .kIndexCallSiteRef⟩,
  ⟨kVerifyRegBCallSite ||| kVerifyVarArgRange, .k3rc, .kIndexCallSiteRef⟩,
  ⟨kVerifyRegA ||| kVerifyRegBMethodHandle, .k21c, .kIndexMethodHandleRef⟩,
  ⟨kVerifyRegA ||| kVerifyRegBPrototype, .k21c, .kIndexProtoRef⟩]

def descriptorOf (opcode : Nat) : InstructionDescriptor :=
  gInstructionDescriptors.getD opcode ⟨kVerifyNothing, .k10x, .kIndexUnknown⟩

/-- `OpcodeFromBytecode`. -/
def opcodeFromBytecode (bytecode : Nat) : Nat := bytecode &&& 0xff

def getFormatFromOpcode (opcode : Nat) : InstructionFormat := (descriptorOf opcode).format

def getIndexTypeFromOpcode (opcode : Nat) : InstructionIndexType :=
  (descriptorOf opcode).indexType

def getVerifyFlagsFromOpcode (opcode : Nat) : Nat := (descriptorOf opcode).verifyFlags

/-- `GetWidthFromFormat`, in code units. -/
def getWidthFromFormat : InstructionFormat → Nat
  | .k10x | .k12x | .k11n | .k11x | .k10t => 1
  | .k20t | .k20bc | .k21c | .k22x | .k21s | .k21t | .k21h | .k23x | .k22b | .k22s | .k22t
  | .k22c | .k22cs => 2
  | .k30t | .k31t | .k31c | .k32x | .k31i | .k35c | .k35ms | .k35mi | .k3rc | .k3rms
  | .k3rmi => 3
  | .k45cc | .k4rcc => 4
  | .k51l => 5

def kPackedSwitchSignature : Nat := 0x0100

def kSparseSwitchSignature : Nat := 0x0200

def kArrayDataSignature : Nat := 0x0300

/-- Code unit `k` of the instruction at `p`. -/
def unitAt (mem : Memory) (p k : Nat) : Run Nat := readU2 mem (p + 2 * k)

/-- `FetchU4` on the code units from unit `k`. -/
def fetchU4 (mem : Memory) (p k : Nat) : Run Nat := do
  let low ← unitAt mem p k
  let high ← unitAt mem p (k + 1)
  pure (low ||| (high <<< 16))

/-- `FetchU8` on the code units from unit `k`. -/
def fetchU8 (mem : Memory) (p k : Nat) : Run Nat := do
  let low ← fetchU4 mem p k
  let high ← fetchU4 mem p (k + 2)
  pure (low ||| (high <<< 32))

/-- `GetWidthFromBytecode`. The array payload is computed in 32 bits. -/
def getWidthFromBytecode (mem : Memory) (p : Nat) : Run Nat := do
  let first ← unitAt mem p 0
  if first = kPackedSwitchSignature then do
    let size ← unitAt mem p 1
    pure (4 + size * 2)
  else if first = kSparseSwitchSignature then do
    let size ← unitAt mem p 1
    pure (2 + size * 4)
  else if first = kArrayDataSignature then do
    let elemWidth ← unitAt mem p 1
    let len ← fetchU4 mem p 2
    pure (4 + (elemWidth * len + 1) % 2 ^ 32 / 2)
  else
    pure (getWidthFromFormat (getFormatFromOpcode (opcodeFromBytecode first)))

/-- A decoded instruction: the `u4` operand fields and the five entries of
`arg`. -/
structure Instruction where
  vA : Nat := 0
  vB : Nat := 0
  vBWide : Nat := 0
  vC : Nat := 0
  arg : List Nat := [0, 0, 0, 0, 0]
  deriving DecidableEq, Repr

def instA (inst : Nat) : Nat := (inst >>> 8) &&& 0x0f

def instB (inst : Nat) : Nat := inst >>> 12

def instAA (inst : Nat) : Nat := inst >>> 8

/-- The `u4` a `bits`-bit two's complement value becomes when it is widened. -/
def signExtendU4 (bits value : Nat) : Nat :=
  if value < 2 ^ (bits - 1) then value else value + 2 ^ 32 - 2 ^ bits

/-- The operand registers of 35c, 35ms and 35mi: `vA` of them, the first also
in `vC`. Six and more of them trip the decoder's own check. -/
def decodeRegList (format : InstructionFormat) (inst vB regList : Nat) : Run Instruction :=
  let arg0 := regList &&& 0x0f
  let arg1 := (regList >>> 4) &&& 0x0f
  let arg2 := (regList >>> 8) &&& 0x0f
  let arg3 := (regList >>> 12) &&& 0x0f
  match instB inst with
  | 0 => .ok { vA := 0, vB := vB }
  | 1 => .ok { vA := 1, vB := vB, vC := arg0, arg := [arg0, 0, 0, 0, 0] }
  | 2 => .ok { vA := 2, vB := vB, vC := arg0, arg := [arg0, arg1, 0, 0, 0] }
  | 3 => .ok { vA := 3, vB := vB, vC := arg0, arg := [arg0, arg1, arg2, 0, 0] }
  | 4 => .ok { vA := 4, vB := vB, vC := arg0, arg := [arg0, arg1, arg2, arg3, 0] }
  | 5 =>
    if format = .k35mi then .error (.thrown "SLICER_CHECK_NE failed")
    else .ok { vA := 5, vB := vB, vC := arg0, arg := [arg0, arg1, arg2, arg3, instA inst] }
  | _ => .error (.thrown "SLICER_CHECK failed [!\"Invalid arg count in 35c/35ms/35mi\"]")

/-- `DecodeInstruction` on the instruction at `p`. -/
def decodeInstruction (mem : Memory) (p : Nat) : Run Instruction := do
  let inst ← unitAt mem p 0
  let format := getFormatFromOpcode (opcodeFromBytecode inst)
  match format with
  | .k10x => pure {}
  | .k12x => pure { vA := instA inst, vB := instB inst }
  | .k11n => pure { vA := instA inst, vB := signExtendU4 4 (instB inst) }
  | .k11x => pure { vA := instAA inst }
  | .k10t => pure { vA := signExtendU4 8 (instAA inst) }
  | .k20t => do
    let unit ← unitAt mem p 1
    pure { vA := signExtendU4 16 unit }
  | .k20bc | .k21c | .k22x | .k21h => do
    let unit ← unitAt mem p 1
    pure { vA := instAA inst, vB := unit }
  | .k21s | .k21t => do
    let unit ← unitAt mem p 1
    pure { vA := instAA inst, vB := signExtendU4 16 unit }
  | .k23x => do
    let unit ← unitAt mem p 1
    pure { vA := instAA inst, vB := unit &&& 0xff, vC := unit >>> 8 }
  | .k22b => do
    let unit ← unitAt mem p 1
    pure { vA := instAA inst, vB := unit &&& 0xff, vC := signExtendU4 8 (unit >>> 8) }
  | .k22s | .k22t => do
    let unit ← unitAt mem p 1
    pure { vA := instA inst, vB := instB inst, vC := signExtendU4 16 unit }
  | .k22c | .k22cs => do
    let unit ← unitAt mem p 1
    pure { vA := instA inst, vB := instB inst, vC := unit }
  | .k30t => do
    let value ← fetchU4 mem p 1
    pure { vA := value }
  | .k31t | .k31c | .k31i => do
    let value ← fetchU4 mem p 1
    pure { vA := instAA inst, vB := value }
  | .k32x => do
    let first ← unitAt mem p 1
    let second ← unitAt mem p 2
    pure { vA := first, vB := second }
  | .k35c | .k35ms | .k35mi => do
    let index ← unitAt mem p 1
    let regList ← unitAt mem p 2
    decodeRegList format inst index regList
  | .k3rc | .k3rms | .k3rmi => do
    let index ← unitAt mem p 1
    let start ← unitAt mem p 2
    pure { vA := instAA inst, vB := index, vC := start }
  | .k45cc => do
    let index ← unitAt mem p 1
    let regList ← unitAt mem p 2
    let proto ← unitAt mem p 3
    pure { vA := instB inst, vB := index, vC := regList &&& 0xf,
           arg := [(regList >>> 4) &&& 0xf, (regList >>> 8) &&& 0xf, regList >>> 12,
             instA inst, proto] }
  | .k4rcc => do
    let index ← unitAt mem p 1
    let start ← unitAt mem p 2
    let proto ← unitAt mem p 3
    pure { vA := instAA inst, vB := index, vC := start, arg := [0, 0, 0, 0, proto] }
  | .k51l => do
    let wide ← fetchU8 mem p 1
    pure { vA := instAA inst, vBWide := wide }

end Dexllm
