import Dexllm.Lib.LinearSweep
import Dexllm.Verifier.CodeSpecs

/-!
The instructions of a code item: the units both control-flow builders read, the
linear decode over them, and what the instruction checks of the verifier
establish about it.
-/

namespace Dexllm

open Guarded Bytes LinearSweep

/-- A code item in its image, by the address of its `insns` and its two counts. -/
structure CodeItem where
  mem : Memory
  insns : Nat
  insnsSize : Nat
  triesSize : Nat
  deriving Repr

namespace CodeItem

variable (c : CodeItem)

/-- Code unit `k`. -/
def unit (k : Nat) : Nat := u2At c.mem (c.insns + 2 * k)

/-- `static_cast<int32_t>(ReadInt(insns + k))`. -/
def readInt (k : Nat) : Int := Verifier.toS4 (u4At c.mem (c.insns + 2 * k))

def codeBytes : Nat := 2 * c.insnsSize

/-- The opcode of the instruction at unit `k`. -/
def opcode (k : Nat) : Nat := opcodeFromBytecode (c.unit k)

/-- `GetBytecodeWidth`, with the instruction table both copies of it share. -/
def getBytecodeWidth (k : Nat) : Nat :=
  if c.unit k = kPackedSwitchSignature then 4 + c.unit (k + 1) * 2
  else if c.unit k = kSparseSwitchSignature then 2 + c.unit (k + 1) * 4
  else if c.unit k = kArrayDataSignature then
    4 + (c.unit (k + 1) * (c.unit (k + 2) ||| (c.unit (k + 3) <<< 16)) + 1) % 2 ^ 32 / 2
  else getWidthFromFormat (getFormatFromOpcode (c.opcode k))

/-- The units at which the linear decode from the first unit finds an
instruction or a payload. -/
def boundaries : List Nat := sweepFrom c.getBytecodeWidth c.insnsSize c.insnsSize 0

/-- The units at which an instruction starts that is no payload. -/
def starts : List Nat := c.boundaries.filter fun k => isPayload (c.unit k) = false

/-- What the verifier's walk over the instructions establishes. -/
structure Decodes : Prop where
  width : ∀ k ∈ c.boundaries, 0 < c.getBytecodeWidth k ∧
    k + c.getBytecodeWidth k ≤ c.insnsSize ∧ headerUnits (c.unit k) ≤ c.insnsSize - k ∧
    getWidthFromBytecode c.mem (c.insns + 2 * k) = .ok (c.getBytecodeWidth k)
  insn : ∀ k ∈ c.starts, ∃ d, decodeInstruction c.mem (c.insns + 2 * k) = .ok d ∧
    ∀ units, branchUnits (getFormatFromOpcode (c.opcode k)) d = some units →
      0 ≤ (k : Int) + units ∧ (k : Int) + units < c.insnsSize

variable {c}

theorem getBytecodeWidth_of_ok {k w : Nat}
    (h : getWidthFromBytecode c.mem (c.insns + 2 * k) = .ok w) : c.getBytecodeWidth k = w := by
  have hunit (i : Nat) : u2At c.mem (c.insns + 2 * k + 2 * i) = c.unit (k + i) := by
    rw [unit, Nat.mul_add, Nat.add_assoc]
  unfold getWidthFromBytecode at h
  simp only [unitAt, readU2, bind_eq_ok, read_eq_ok, hunit, Nat.add_zero] at h
  obtain ⟨first, ⟨-, rfl⟩, h⟩ := h
  unfold getBytecodeWidth
  split at h
  · rename_i hpacked
    simp only [hunit, bind_eq_ok, read_eq_ok, pure_eq_ok, Except.ok.injEq] at h
    obtain ⟨size, ⟨-, rfl⟩, rfl⟩ := h
    rw [if_pos hpacked]
  · rename_i hpacked
    rw [if_neg hpacked]
    split at h
    · rename_i hsparse
      simp only [hunit, bind_eq_ok, read_eq_ok, pure_eq_ok, Except.ok.injEq] at h
      obtain ⟨size, ⟨-, rfl⟩, rfl⟩ := h
      rw [if_pos hsparse]
    · rename_i hsparse
      rw [if_neg hsparse]
      split at h
      · rename_i harray
        simp only [fetchU4, unitAt, readU2, bind_eq_ok, read_eq_ok, pure_eq_ok, hunit,
          Except.ok.injEq] at h
        obtain ⟨elem, ⟨-, rfl⟩, len, ⟨low, ⟨-, rfl⟩, high, ⟨-, rfl⟩, rfl⟩, rfl⟩ := h
        rw [if_pos harray]
      · rename_i harray
        rw [if_neg harray]
        exact Except.ok.inj h

theorem mem_starts {k : Nat} :
    k ∈ c.starts ↔ k ∈ c.boundaries ∧ isPayload (c.unit k) = false := by
  simp [starts]

theorem boundary_lt {k : Nat} (hk : k ∈ c.boundaries) : k < c.insnsSize :=
  (sweepFrom_bounds hk).2

namespace Decodes

variable (hc : c.Decodes)
include hc

theorem next_mem {k : Nat} (hk : k ∈ c.boundaries)
    (hnext : k + c.getBytecodeWidth k < c.insnsSize) :
    k + c.getBytecodeWidth k ∈ c.boundaries :=
  mem_sweepFrom_next (by omega) (fun i hi => (hc.width i hi).1) hk hnext

theorem apart {i j : Nat} (hi : i ∈ c.boundaries) (hj : j ∈ c.boundaries) (hij : i < j) :
    i + c.getBytecodeWidth i ≤ j :=
  apart_of_mem hi hj (hc.width j hj).1 hij

theorem boundaries_pairwise : c.boundaries.Pairwise (· < ·) := by
  have hapart := sweepFrom_apart c.getBytecodeWidth c.insnsSize c.insnsSize 0
  apply List.Pairwise.imp_of_mem _ hapart
  intro i j hi _ hij
  have := (hc.width i hi).1
  omega

end Decodes

/-- What the walk of the verifier has checked of each instruction. -/
theorem insns_of_verifyInsnsFrom {v : Verifier} (hmem : v.image = c.mem)
    {registersSize fuel k : Nat} (hfuel : c.insnsSize - k ≤ fuel)
    (h : v.verifyInsnsFrom c.insns c.insnsSize registersSize fuel k = .ok ()) :
    ∀ j ∈ sweepFrom c.getBytecodeWidth c.insnsSize fuel k,
      (0 < c.getBytecodeWidth j ∧ j + c.getBytecodeWidth j ≤ c.insnsSize ∧
        headerUnits (c.unit j) ≤ c.insnsSize - j ∧
        getWidthFromBytecode c.mem (c.insns + 2 * j) = .ok (c.getBytecodeWidth j)) ∧
      (isPayload (c.unit j) = false →
        v.verifyInsn c.insns c.insnsSize registersSize j (c.unit j) = .ok ()) := by
  induction fuel generalizing k with
  | zero => simp [sweepFrom]
  | succ fuel ih =>
    unfold sweepFrom
    split
    · rename_i hk
      unfold Verifier.verifyInsnsFrom at h
      rw [if_pos hk, hmem] at h
      simp only [bind_eq_ok, readU2, read_eq_ok, failIf_eq_ok] at h
      obtain ⟨first, ⟨-, hfirst⟩, -, hheader, w, hwidth, -, hroom, ⟨⟩, hinsn, hrest⟩ := h
      have hw := getBytecodeWidth_of_ok hwidth
      subst hw
      have hunit : c.unit k = first := hfirst
      subst hunit
      intro j hj
      rcases List.mem_cons.mp hj with rfl | htail
      · refine ⟨⟨by omega, by omega, by omega, hwidth⟩, fun hpayload => ?_⟩
        rw [onlyIf, if_pos hpayload] at hinsn
        exact hinsn
      · exact ih (by omega) hrest j htail
    · simp

end CodeItem

/-- The code item at an offset of an opened dex. -/
def Verifier.codeItem (v : Verifier) (off : Nat) : CodeItem :=
  let code := codeAt v.image (v.offsetToPtr off)
  ⟨v.image, v.offsetToPtr off + Code.bytes, code.insnsSize, code.triesSize⟩

section Accepted

variable {v : Verifier} {off : Nat} (hstrict : v.checkInsns = true)
  (h : v.verifyCodeItem off = .ok ())
include hstrict h

theorem Verifier.insns_of_verifyCodeItem : ∃ registersSize, ∀ j ∈ (v.codeItem off).boundaries,
    let c := v.codeItem off
    (0 < c.getBytecodeWidth j ∧ j + c.getBytecodeWidth j ≤ c.insnsSize ∧
      headerUnits (c.unit j) ≤ c.insnsSize - j ∧
      getWidthFromBytecode c.mem (c.insns + 2 * j) = .ok (c.getBytecodeWidth j)) ∧
    (isPayload (c.unit j) = false →
      v.verifyInsn c.insns c.insnsSize registersSize j (c.unit j) = .ok ()) := by
  unfold verifyCodeItem at h
  simp only [bind_eq_ok, read_eq_ok, failIf_eq_ok] at h
  obtain ⟨⟨⟩, -, code, ⟨-, rfl⟩, -, -, -, -, ⟨⟩, -, ⟨⟩, hinsns, -⟩ := h
  rw [onlyIf, if_pos hstrict] at hinsns
  exact ⟨_, @CodeItem.insns_of_verifyInsnsFrom (v.codeItem off) v rfl _ _ 0 (Nat.le_refl _)
    hinsns⟩

/-- A code item the strict verifier accepts decodes. -/
theorem Verifier.decodes_of_verifyCodeItem : (v.codeItem off).Decodes := by
  obtain ⟨registersSize, hall⟩ := Verifier.insns_of_verifyCodeItem hstrict h
  constructor
  · exact fun k hk => (hall k hk).1
  · intro k hk
    obtain ⟨hin, hpayload⟩ := CodeItem.mem_starts.mp hk
    have hinsn := (hall k hin).2 hpayload
    simp only [Verifier.verifyInsn, bind_eq_ok] at hinsn
    obtain ⟨d, hd, ⟨⟩, -, ⟨⟩, -, htarget⟩ := hinsn
    refine ⟨d, hd, fun units hunits => ?_⟩
    simp only [Verifier.verifyTarget] at htarget
    rw [show opcodeFromBytecode ((v.codeItem off).unit k) = (v.codeItem off).opcode k from rfl,
      hunits] at htarget
    have := failIf_eq_ok.mp htarget
    omega

end Accepted

end Dexllm
