import Dexllm.Dad.DalvikMeaning

/-!
The fields the decoder leaves are those of the format. It widens a signed literal to 32 bits
without a sign, and the casts of the dispatch read it back.
-/

namespace Dexllm

open Guarded Bytes

/-- What the decoded fields of a format stand for. -/
def DecodesTo (d : Instruction) (o : DalvikOperands) : InstructionFormat → Prop
  | .k12x | .k22x | .k32x => d.vA = o.a ∧ d.vB = o.b
  | .k11x | .k31t => d.vA = o.a
  | .k11n => d.vA = o.a ∧ staticCast 8 (d.vB * 16) / 16 = o.literal
  | .k21s | .k21h => d.vA = o.a ∧ staticCast 16 d.vB = o.literal
  | .k31i => d.vA = o.a ∧ staticCast 32 d.vB = o.literal
  | .k51l => d.vA = o.a ∧ staticCast 64 d.vBWide = o.literal
  | .k23x => d.vA = o.a ∧ d.vB = o.b ∧ d.vC = o.c
  | .k22b | .k22s =>
    d.vA = o.a ∧ d.vB = o.b ∧ staticCast 32 d.vC = o.literal
  | .k21c | .k31c => d.vA = o.a ∧ d.vB = o.index
  | .k22c => d.vA = o.a ∧ d.vB = o.b ∧ d.vC = o.index
  | _ => True

theorem instA_eq (inst : Nat) : instA inst = inst / 2 ^ 8 % 2 ^ 4 := by
  rw [instA, Nat.shiftRight_eq_div_pow, show 0x0f = 2 ^ 4 - 1 from rfl,
    Nat.and_two_pow_sub_one_eq_mod]

theorem instB_eq (inst : Nat) : instB inst = inst / 2 ^ 12 := Nat.shiftRight_eq_div_pow ..

theorem instAA_eq (inst : Nat) : instAA inst = inst / 2 ^ 8 := Nat.shiftRight_eq_div_pow ..

theorem unit_low (u : Nat) : u &&& 0xff = u % 2 ^ 8 := by
  rw [show 0xff = 2 ^ 8 - 1 from rfl, Nat.and_two_pow_sub_one_eq_mod]

theorem unit_high (u : Nat) : u >>> 8 = u / 2 ^ 8 := Nat.shiftRight_eq_div_pow ..

section Literals

variable {n m : Nat}

theorem bmod_of_small (h : 2 * n < m) : Int.bmod n m = n := by
  rw [Int.bmod_eq_of_le] <;> omega

theorem bmod_of_large (h : m ≤ 2 * n) (hlt : n < m) : Int.bmod n m = n - m := by
  rw [← Int.sub_mul_bmod_self_right n 1 m, Int.one_mul, Int.bmod_eq_of_le] <;> omega

/-- A literal that was widened to a `u4` is read back as an `int32_t`. -/
theorem staticCast_signExtendU4 {bits : Nat} (hbits : bits = 8 ∨ bits = 16) (h : n < 2 ^ bits) :
    staticCast 32 (signExtendU4 bits n) = signed bits n := by
  unfold staticCast signExtendU4 signed
  obtain rfl | rfl := hbits
  all_goals
    split
    · rw [bmod_of_small (by omega), bmod_of_small (by omega)]
    · rw [bmod_of_large (by omega) (by omega), bmod_of_large (by omega) (by omega)]
      omega

theorem staticCast_eq (bits n : Nat) : staticCast bits n = signed bits n := rfl

theorem staticCast16_signExtendU4 : staticCast 16 (signExtendU4 16 n) = signed 16 n := by
  unfold staticCast signExtendU4 signed
  split
  · rfl
  · rw [show ((n + 2 ^ 32 - 2 ^ 16 : Nat) : Int) = n + 65535 * (2 ^ 16 : Nat) by omega,
      Int.add_mul_bmod_self_right]

/-- The nibble, shifted out of its byte and back. -/
theorem staticCast8_signExtendU4 (h : n < 2 ^ 4) :
    staticCast 8 (signExtendU4 4 n * 16) / 16 = signed 4 n := by
  unfold staticCast signExtendU4 signed
  split
  · have hshift : ((n : Int) * 16).bmod (2 ^ 8) = n * 16 :=
      Int.bmod_eq_of_le (by omega) (by omega)
    rw [hshift, bmod_of_small (by omega)]
    omega
  · have hshift : (((n + 2 ^ 32 - 2 ^ 4 : Nat) : Int) * 16).bmod (2 ^ 8) =
        (n : Int) * 16 - 256 := by
      rw [show (((n + 2 ^ 32 - 2 ^ 4 : Nat) : Int) * 16) =
        ((n : Int) * 16 - 256) + 268435456 * (2 ^ 8 : Nat) by omega,
        Int.add_mul_bmod_self_right, Int.bmod_eq_of_le] <;> omega
    rw [hshift, bmod_of_large (by omega) (by omega)]
    omega

end Literals

theorem unitAt_lt {mem : Memory} {p k u : Nat} (h : unitAt mem p k = .ok u) : u < 2 ^ 16 :=
  (read_eq_ok.mp h).2 ▸ u2At_lt _ _

/-- The decoder and the format read the same fields. -/
theorem decodes_of_decode {mem : Memory} {p inst : Nat} {d : Instruction} {o : DalvikOperands}
    (hinst : unitAt mem p 0 = .ok inst) (hdec : decodeInstruction mem p = .ok d)
    (hops : dalvikOperands mem p = .ok o) :
    DecodesTo d o (getFormatFromOpcode (opcodeFromBytecode inst)) := by
  have hlt := unitAt_lt hinst
  rw [decodeInstruction, hinst, bind_ok] at hdec
  rw [dalvikOperands, hinst, bind_ok] at hops
  cases hformat : getFormatFromOpcode (opcodeFromBytecode inst) with
  | k12x =>
    simp only [hformat] at hdec hops
    obtain rfl := Except.ok.inj hdec
    obtain rfl := Except.ok.inj hops
    exact ⟨instA_eq inst, instB_eq inst⟩
  | k11n =>
    simp only [hformat] at hdec hops
    obtain rfl := Except.ok.inj hdec
    obtain rfl := Except.ok.inj hops
    refine ⟨instA_eq inst, ?_⟩
    dsimp only
    rw [← instB_eq]
    exact staticCast8_signExtendU4 (by rw [instB_eq]; omega)
  | k11x =>
    simp only [hformat] at hdec hops
    obtain rfl := Except.ok.inj hdec
    obtain rfl := Except.ok.inj hops
    exact instAA_eq inst
  | k21s =>
    simp only [hformat] at hdec hops
    obtain ⟨unit, hunit, hdec⟩ := bind_eq_ok.mp hdec
    rw [hunit, bind_ok] at hops
    obtain rfl := Except.ok.inj hdec
    obtain rfl := Except.ok.inj hops
    refine ⟨instAA_eq inst, ?_⟩
    dsimp only
    exact staticCast16_signExtendU4
  | k21h =>
    simp only [hformat] at hdec hops
    obtain ⟨unit, hunit, hdec⟩ := bind_eq_ok.mp hdec
    rw [hunit, bind_ok] at hops
    obtain rfl := Except.ok.inj hdec
    obtain rfl := Except.ok.inj hops
    refine ⟨instAA_eq inst, ?_⟩
    dsimp only
    exact staticCast_eq 16 unit
  | k21c =>
    simp only [hformat] at hdec hops
    obtain ⟨unit, hunit, hdec⟩ := bind_eq_ok.mp hdec
    rw [hunit, bind_ok] at hops
    obtain rfl := Except.ok.inj hdec
    obtain rfl := Except.ok.inj hops
    exact ⟨instAA_eq inst, rfl⟩
  | k22x =>
    simp only [hformat] at hdec hops
    obtain ⟨unit, hunit, hdec⟩ := bind_eq_ok.mp hdec
    rw [hunit, bind_ok] at hops
    obtain rfl := Except.ok.inj hdec
    obtain rfl := Except.ok.inj hops
    exact ⟨instAA_eq inst, rfl⟩
  | k23x =>
    simp only [hformat] at hdec hops
    obtain ⟨unit, hunit, hdec⟩ := bind_eq_ok.mp hdec
    rw [hunit, bind_ok] at hops
    obtain rfl := Except.ok.inj hdec
    obtain rfl := Except.ok.inj hops
    exact ⟨instAA_eq inst, unit_low unit, unit_high unit⟩
  | k22b =>
    simp only [hformat] at hdec hops
    obtain ⟨unit, hunit, hdec⟩ := bind_eq_ok.mp hdec
    have hsmall := unitAt_lt hunit
    rw [hunit, bind_ok] at hops
    obtain rfl := Except.ok.inj hdec
    obtain rfl := Except.ok.inj hops
    refine ⟨instAA_eq inst, unit_low unit, ?_⟩
    dsimp only
    rw [← unit_high]
    exact staticCast_signExtendU4 (.inl rfl) (by rw [unit_high]; omega)
  | k22s =>
    simp only [hformat] at hdec hops
    obtain ⟨unit, hunit, hdec⟩ := bind_eq_ok.mp hdec
    rw [hunit, bind_ok] at hops
    obtain rfl := Except.ok.inj hdec
    obtain rfl := Except.ok.inj hops
    refine ⟨instA_eq inst, instB_eq inst, ?_⟩
    dsimp only
    exact staticCast_signExtendU4 (.inr rfl) (unitAt_lt hunit)
  | k22c =>
    simp only [hformat] at hdec hops
    obtain ⟨unit, hunit, hdec⟩ := bind_eq_ok.mp hdec
    rw [hunit, bind_ok] at hops
    obtain rfl := Except.ok.inj hdec
    obtain rfl := Except.ok.inj hops
    exact ⟨instA_eq inst, instB_eq inst, rfl⟩
  | k32x =>
    simp only [hformat] at hdec hops
    obtain ⟨first, hfirst, hdec⟩ := bind_eq_ok.mp hdec
    obtain ⟨second, hsecond, hdec⟩ := bind_eq_ok.mp hdec
    rw [hfirst, bind_ok, hsecond, bind_ok] at hops
    obtain rfl := Except.ok.inj hdec
    obtain rfl := Except.ok.inj hops
    exact ⟨rfl, rfl⟩
  | k31i =>
    simp only [hformat] at hdec hops
    obtain ⟨value, hvalue, hdec⟩ := bind_eq_ok.mp hdec
    rw [hvalue, bind_ok] at hops
    obtain rfl := Except.ok.inj hdec
    obtain rfl := Except.ok.inj hops
    refine ⟨instAA_eq inst, ?_⟩
    dsimp only
    exact staticCast_eq 32 value
  | k31c =>
    simp only [hformat] at hdec hops
    obtain ⟨value, hvalue, hdec⟩ := bind_eq_ok.mp hdec
    rw [hvalue, bind_ok] at hops
    obtain rfl := Except.ok.inj hdec
    obtain rfl := Except.ok.inj hops
    exact ⟨instAA_eq inst, rfl⟩
  | k31t =>
    simp only [hformat] at hdec hops
    obtain ⟨value, hvalue, hdec⟩ := bind_eq_ok.mp hdec
    obtain rfl := Except.ok.inj hdec
    obtain rfl := Except.ok.inj hops
    exact instAA_eq inst
  | k51l =>
    simp only [hformat] at hdec hops
    obtain ⟨value, hvalue, hdec⟩ := bind_eq_ok.mp hdec
    rw [hvalue, bind_ok] at hops
    obtain rfl := Except.ok.inj hdec
    obtain rfl := Except.ok.inj hops
    refine ⟨instAA_eq inst, ?_⟩
    dsimp only
    exact staticCast_eq 64 value
  | _ => trivial

end Dexllm
