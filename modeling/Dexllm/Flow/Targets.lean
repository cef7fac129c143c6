import Dexllm.Flow.SnapshotSpecs
import Mathlib.Tactic.IntervalCases

/-!
The targets of one instruction: the argument analysis reads them from raw code
units, the snapshot from decoded operands and parsed payloads.
-/

namespace Dexllm

open Guarded Bytes Leaders LinearSweep

theorem toS1_sign (b : Nat) (hb : b < 2 ^ 8) :
    toS1 (signExtendU4 8 b % 2 ^ 8) = toS1 b ∧ Verifier.toS4 (signExtendU4 8 b) = toS1 b := by
  unfold signExtendU4 toS1 Verifier.toS4
  split <;> refine ⟨?_, ?_⟩ <;> split <;> omega

theorem toS2_sign (b : Nat) (hb : b < 2 ^ 16) :
    toS2 (signExtendU4 16 b % 2 ^ 16) = toS2 b ∧ Verifier.toS4 (signExtendU4 16 b) = toS2 b := by
  unfold signExtendU4 toS2 Verifier.toS4
  split <;> refine ⟨?_, ?_⟩ <;> split <;> omega

namespace CodeItem

variable {c : CodeItem}

theorem unit_lt (k : Nat) : c.unit k < 2 ^ 16 := u2At_lt _ _

/-- The branch distance of an instruction in code units, read from the raw
units. -/
def branchDistance (c : CodeItem) (k : Nat) : Int :=
  let op := c.opcode k
  if op = 0x28 then toS1 (c.unit k >>> 8)
  else if op = 0x29 then toS2 (c.unit (k + 1))
  else if 0x32 ≤ op ∧ op ≤ 0x3D then toS2 (c.unit (k + c.getBytecodeWidth k - 1))
  else c.readInt (k + 1)

/-- The instruction words a format stands in. -/
theorem format_of_branch {op : Nat} (h : isBranchOpcode op = true) :
    getFormatFromOpcode op =
      if op = 0x28 then .k10t else if op = 0x29 then .k20t else if op = 0x2A then .k30t
      else if 0x32 ≤ op ∧ op ≤ 0x37 then .k22t else if 0x38 ≤ op ∧ op ≤ 0x3D then .k21t
      else .k31t := by
  simp only [isBranchOpcode, isUnconditionalBranch, isConditionalBranch, isSwitch,
    isFillArrayData, Bool.or_eq_true, Bool.and_eq_true, decide_eq_true_eq, beq_iff_eq] at h
  have hrange : 0x26 ≤ op ∧ op ≤ 0x3D := by omega
  obtain ⟨hlow, hup⟩ := hrange
  interval_cases op <;> first | rfl | omega

theorem fetchU4_eq_ok {mem : Memory} {p k v : Nat} (h : fetchU4 mem p k = .ok v) :
    v = u4At mem (p + 2 * k) := by
  simp only [fetchU4, unitAt, readU2, bind_eq_ok, read_eq_ok, pure_eq_ok, Except.ok.injEq] at h
  obtain ⟨low, ⟨-, rfl⟩, high, ⟨-, rfl⟩, rfl⟩ := h
  have hlow := u2At_lt mem (p + 2 * k)
  rw [u4At, Nat.mul_add, ← Nat.add_assoc, Nat.lor_comm, ← Nat.shiftLeft_add_eq_or_of_lt hlow,
    Nat.shiftLeft_eq, show p + 2 * k + 2 * 1 = p + 2 * k + 2 by rfl]
  omega

theorem width_of_start {k : Nat} (hk : k ∈ c.starts) :
    c.getBytecodeWidth k = getWidthFromFormat (getFormatFromOpcode (c.opcode k)) := by
  have hpayload := (mem_starts.mp hk).2
  simp only [isPayload, Bool.or_eq_false_iff, beq_eq_false_iff_ne] at hpayload
  unfold getBytecodeWidth
  rw [if_neg hpayload.1.1, if_neg hpayload.1.2, if_neg hpayload.2]

/-- The operand a branch format keeps its distance in. -/
theorem decodedAt_branch (hc : c.Decodes) {k : Nat} (hk : k ∈ c.starts) :
    match getFormatFromOpcode (c.opcode k) with
    | .k10t => (c.decodedAt k).vA = signExtendU4 8 (c.unit k >>> 8)
    | .k20t => (c.decodedAt k).vA = signExtendU4 16 (c.unit (k + 1))
    | .k21t => (c.decodedAt k).vB = signExtendU4 16 (c.unit (k + 1))
    | .k22t => (c.decodedAt k).vC = signExtendU4 16 (c.unit (k + 1))
    | .k30t => (c.decodedAt k).vA = u4At c.mem (c.insns + 2 * (k + 1))
    | .k31t => (c.decodedAt k).vB = u4At c.mem (c.insns + 2 * (k + 1))
    | _ => True := by
  have hdecode := decodeInstruction_eq hc hk
  have hunit : u2At c.mem (c.insns + 2 * k + 2 * 1) = c.unit (k + 1) := by
    rw [unit, Nat.mul_add, Nat.add_assoc]
  have hint : u4At c.mem (c.insns + 2 * k + 2 * 1) = u4At c.mem (c.insns + 2 * (k + 1)) := by
    rw [Nat.mul_add, Nat.add_assoc]
  simp only [decodeInstruction, unitAt, readU2, bind_eq_ok, read_eq_ok] at hdecode
  obtain ⟨inst, ⟨-, hinst⟩, hdecode⟩ := hdecode
  have hinst : c.unit k = inst := hinst
  subst hinst
  rw [show opcodeFromBytecode (c.unit k) = c.opcode k from rfl] at hdecode
  cases hformat : getFormatFromOpcode (c.opcode k) with
  | k10t =>
    rw [hformat] at hdecode
    rw [← Except.ok.inj hdecode]
    rfl
  | k20t | k21t | k22t =>
    rw [hformat] at hdecode
    simp only [bind_eq_ok, read_eq_ok, pure_eq_ok, Except.ok.injEq] at hdecode
    obtain ⟨unit, ⟨-, rfl⟩, hdecode⟩ := hdecode
    rw [← hdecode, hunit]
  | k30t | k31t =>
    rw [hformat] at hdecode
    simp only [bind_eq_ok, pure_eq_ok, Except.ok.injEq] at hdecode
    obtain ⟨value, hvalue, hdecode⟩ := hdecode
    rw [← hdecode, fetchU4_eq_ok hvalue, hint]
  | _ => trivial

/-- Both readings of the branch distance of a decoded instruction are the raw
one. -/
theorem branch_distance (hc : c.Decodes) {k : Nat} (hk : k ∈ c.starts)
    (hop : isBranchOpcode (c.opcode k) = true) :
    extractBranchOffsetCodeUnits (c.decodedAt k) (c.opcode k) = c.branchDistance k ∧
      branchUnits (getFormatFromOpcode (c.opcode k)) (c.decodedAt k) =
        some (c.branchDistance k) := by
  have hformat := format_of_branch hop
  have hoperand := decodedAt_branch hc hk
  have hwidth := width_of_start hk
  have hunit := @unit_lt c (k + 1)
  have hfirst : c.unit k >>> 8 < 2 ^ 8 := by
    have := @unit_lt c k
    rw [Nat.shiftRight_eq_div_pow]
    omega
  unfold extractBranchOffsetCodeUnits branchUnits branchDistance
  split at hformat
  · rename_i h28
    rw [hformat] at hoperand ⊢
    simp only [h28, hoperand, toS1_sign _ hfirst, if_true, and_self]
  · rename_i h28
    split at hformat
    · rename_i h29
      rw [hformat] at hoperand ⊢
      simp only [h29, hoperand, toS2_sign _ hunit]
      simp
    · rename_i h29
      split at hformat
      · rename_i h2A
        rw [hformat] at hoperand ⊢
        simp only [h2A, hoperand]
        simp [readInt]
      · rename_i h2A
        simp only [if_neg h28, if_neg h29]
        split at hformat
        · rename_i hcond
          rw [hformat] at hoperand hwidth ⊢
          have hlast : k + c.getBytecodeWidth k - 1 = k + 1 := by rw [hwidth]; rfl
          rw [if_pos (by omega), hlast]
          simp only [hoperand, toS2_sign _ hunit, and_self]
        · rename_i hcond
          split at hformat
          · rename_i hcond'
            rw [hformat] at hoperand hwidth ⊢
            have hlast : k + c.getBytecodeWidth k - 1 = k + 1 := by rw [hwidth]; rfl
            rw [if_pos (by omega), hlast]
            simp only [hoperand, toS2_sign _ hunit, and_self]
          · rename_i hcond'
            rw [hformat] at hoperand ⊢
            rw [if_neg (by omega)]
            simp only [hoperand]
            simp [readInt]

/-- A unit distance leads to an instruction. -/
def StartsAt (c : CodeItem) (position : Int) : Prop := ∃ t ∈ c.starts, (t : Int) = position

/-- The first case target of the switch payload at unit `p`. -/
def caseTable (c : CodeItem) (k p : Nat) : Nat :=
  if c.opcode k = 0x2B then p + 4 else p + 2 + 2 * c.unit (p + 1)

/-- Every branch and case target is an instruction start, and every switch
points at a payload of its own kind inside the instructions. -/
structure Targeted (c : CodeItem) : Prop where
  branch : ∀ k ∈ c.starts,
    (isUnconditionalBranch (c.opcode k) || isConditionalBranch (c.opcode k)) = true →
    ∀ units, branchUnits (getFormatFromOpcode (c.opcode k)) (c.decodedAt k) = some units →
      c.StartsAt (k + units)
  payload : ∀ k ∈ c.starts, isSwitch (c.opcode k) = true →
    ∀ units, branchUnits (getFormatFromOpcode (c.opcode k)) (c.decodedAt k) = some units →
      ∃ p : Nat, (p : Int) = k + units ∧
        c.unit p = (if c.opcode k = 0x2B then kPackedSwitchSignature
          else kSparseSwitchSignature) ∧
        p + c.getBytecodeWidth p ≤ c.insnsSize ∧
        ∀ i < c.unit (p + 1), c.StartsAt (k + c.readInt (c.caseTable k p + 2 * i))

theorem mem_note {s : Nat} {target : Int} :
    s ∈ c.note target ↔ (s : Int) = target ∧ s < c.codeBytes := by
  unfold note
  split
  · simp only [List.not_mem_nil, false_iff]
    omega
  · rw [List.mem_singleton]
    omega

theorem castU4_of_lt {n : Nat} {x : Int} (hx : x = n) (hn : n < 2 ^ 32) : castU4 x = n := by
  unfold castU4
  omega

theorem falls_iff (k : Nat) : (c.insnAt k).falls = true ↔
    isBlockTerminator (c.opcode k) = false ∧ c.opcode k ≠ 0x73 := by
  simp only [insnAt, flowOf, isBlockTerminator, isReturn, isThrow, isUnconditionalBranch,
    Bool.or_eq_false_iff, Bool.and_eq_false_iff, decide_eq_false_iff_not, beq_eq_false_iff_ne]
  repeat' split
  all_goals simp only [Bool.false_eq_true, false_iff, true_iff]
  all_goals omega

theorem targets_of_branch {k : Nat}
    (hop : (isUnconditionalBranch (c.opcode k) || isConditionalBranch (c.opcode k)) = true) :
    (c.insnAt k).targets = c.note (2 * k + 2 * c.branchDistance k) := by
  simp only [isUnconditionalBranch, isConditionalBranch, Bool.or_eq_true, Bool.and_eq_true,
    decide_eq_true_eq] at hop
  simp only [insnAt, flowOf, branchDistance]
  repeat' split
  all_goals first | rfl | omega

theorem targets_of_switch {k : Nat} (hop : isSwitch (c.opcode k) = true) :
    (c.insnAt k).targets = c.switchTargets k := by
  simp only [isSwitch, Bool.or_eq_true, beq_iff_eq] at hop
  simp only [insnAt, flowOf]
  repeat' split
  all_goals first | rfl | omega

theorem targets_of_plain {k : Nat}
    (hbranch : (isUnconditionalBranch (c.opcode k) || isConditionalBranch (c.opcode k)) = false)
    (hswitch : isSwitch (c.opcode k) = false) : (c.insnAt k).targets = [] := by
  simp only [isUnconditionalBranch, isConditionalBranch, isSwitch, Bool.or_eq_false_iff,
    Bool.and_eq_false_iff, decide_eq_false_iff_not, beq_eq_false_iff_ne] at hbranch hswitch
  simp only [insnAt, flowOf]
  repeat' split
  all_goals first | rfl | omega

theorem mem_keptTargets (hc : c.Decodes) {k s : Nat} :
    s ∈ c.keptTargets k ↔ s ∈ (c.insnAt k).targets ∧ ∃ j ∈ c.boundaries, s = 2 * j := by
  simp only [keptTargets, keepTargets, List.mem_filter, decide_eq_true_eq, mem_insnOffs hc]

/-- A list of offsets that each lead to an instruction. -/
theorem note_of_startsAt (hsmall : c.codeBytes < 2 ^ 32) {k : Nat} {units : Int}
    (h : c.StartsAt (k + units)) : ∃ t ∈ c.starts, castU4 (2 * k + units * 2) = 2 * t ∧
      c.note (2 * k + 2 * units) = [2 * t] ∧ c.note (2 * k + units * 2) = [2 * t] := by
  obtain ⟨t, ht, heq⟩ := h
  have hlt := boundary_lt (mem_starts.mp ht).1
  have hcode : 2 * t < c.codeBytes := by
    rw [codeBytes]
    omega
  refine ⟨t, ht, castU4_of_lt (by omega) (by omega), ?_, ?_⟩
  · unfold note
    rw [if_neg (by omega)]
    congr 1
    omega
  · unfold note
    rw [if_neg (by omega)]
    congr 1
    omega

theorem rawAt_branch {k : Nat}
    (hop : (isUnconditionalBranch (c.opcode k) || isConditionalBranch (c.opcode k)) = true) :
    (c.rawAt k).branchTarget =
      castU4 (2 * k + extractBranchOffsetCodeUnits (c.decodedAt k) (c.opcode k) * 2) := by
  have hclass : isBranchOpcode (c.opcode k) = true ∧ isSwitch (c.opcode k) = false ∧
      isFillArrayData (c.opcode k) = false := by
    refine ⟨by rw [isBranchOpcode, hop]; rfl, ?_⟩
    simp only [isUnconditionalBranch, isConditionalBranch, isSwitch, isFillArrayData,
      Bool.or_eq_true, Bool.and_eq_true, decide_eq_true_eq, Bool.or_eq_false_iff,
      beq_eq_false_iff_ne] at hop ⊢
    omega
  simp [rawAt, rawIns, hclass]

theorem rawAt_switch {k : Nat} (hop : isSwitch (c.opcode k) = true) :
    (c.rawAt k).payload = some
      (castU4 (2 * k + extractBranchOffsetCodeUnits (c.decodedAt k) (c.opcode k) * 2)) := by
  have hclass : isBranchOpcode (c.opcode k) = true := by
    rw [isBranchOpcode, hop]
    simp
  simp [rawAt, rawIns, hclass, hop]

theorem targets_packedSwitch (firstKey : Int) (targets : List Int) :
    (PayloadVariant.packedSwitch firstKey targets).cases.map (·.2) = targets := by
  simp only [PayloadVariant.cases, List.map_map, Function.comp_def]
  exact List.zipIdx_map_fst 0 targets

theorem targets_sparseSwitch {keys targets : List Int} (h : targets.length ≤ keys.length) :
    (PayloadVariant.sparseSwitch keys targets).cases.map (·.2) = targets :=
  List.map_snd_zip h

section Payload

variable {k p : Nat} (hkind : c.unit p = if c.opcode k = 0x2B then kPackedSwitchSignature
  else kSparseSwitchSignature)
include hkind

theorem payload_width : c.getBytecodeWidth p =
    if c.opcode k = 0x2B then 4 + c.unit (p + 1) * 2 else 2 + c.unit (p + 1) * 4 := by
  unfold getBytecodeWidth
  rw [hkind]
  split <;> simp [kPackedSwitchSignature, kSparseSwitchSignature]

/-- A payload that lies inside the instructions is read whole. -/
theorem cases_of_payload (hroom : p + c.getBytecodeWidth p ≤ c.insnsSize) :
    (c.parsePayloadAt p).cases.map (·.2) =
    (List.range (c.unit (p + 1))).map fun i => c.readInt (c.caseTable k p + 2 * i) := by
  rw [payload_width hkind] at hroom
  unfold parsePayloadAt caseTable
  simp only
  rw [hkind, if_neg (by split at hroom <;> omega)]
  split at hroom
  · rename_i hpacked
    have hn : min (c.unit (p + 1)) ((c.insnsSize - (p + 4)) / 2) = c.unit (p + 1) := by omega
    have hsig : kPackedSwitchSignature = 0x0100 := rfl
    rw [if_pos hpacked, if_pos hsig, if_neg (by omega), hn,
      targets_packedSwitch, if_pos hpacked]
  · rename_i hsparse
    have hn : min (c.unit (p + 1)) ((c.insnsSize - (p + 2)) / 2 / 2) = c.unit (p + 1) := by omega
    have hsig : kSparseSwitchSignature = 0x0200 := rfl
    have hother : kSparseSwitchSignature ≠ 0x0100 := by decide
    rw [if_neg hsparse, if_neg hother, if_pos hsig, hn, if_neg hsparse]
    by_cases hempty : c.insnsSize < p + 4
    · have hzero : c.unit (p + 1) = 0 := by omega
      rw [if_pos hempty, hzero]
      rfl
    · rw [if_neg hempty, targets_sparseSwitch (by simp)]

theorem exists_case (hroom : p + c.getBytecodeWidth p ≤ c.insnsSize) (good : Int → Prop) :
    (∃ case ∈ (c.parsePayloadAt p).cases, good case.2) ↔
      ∃ i < c.unit (p + 1), good (c.readInt (c.caseTable k p + 2 * i)) := by
  have hcases := cases_of_payload hkind hroom
  have hmap : (∃ case ∈ (c.parsePayloadAt p).cases, good case.2) ↔
      ∃ offset ∈ (c.parsePayloadAt p).cases.map (·.2), good offset := by
    simp only [List.mem_map, exists_exists_and_eq_and]
  rw [hmap, hcases]
  simp

theorem switchTargets_of_payload (hop : isSwitch (c.opcode k) = true)
    (hroom : p + c.getBytecodeWidth p ≤ c.insnsSize) (hp : (p : Int) = k + c.readInt (k + 1)) :
    c.switchTargets k = (List.range (c.unit (p + 1))).flatMap fun i =>
      c.note (2 * k + 2 * c.readInt (c.caseTable k p + i * 2)) := by
  rw [payload_width hkind] at hroom
  have hpay : (2 * k + 2 * c.readInt (k + 1) : Int) = 2 * p := by omega
  have hhalf : (2 * (p : Int)).toNat / 2 = p := by omega
  unfold switchTargets
  simp only [hpay, hhalf]
  rw [if_neg (by rw [codeBytes]; split at hroom <;> omega), hkind]
  simp only [isSwitch, Bool.or_eq_true, beq_iff_eq] at hop
  unfold caseTable
  split at hroom
  · rename_i hpacked
    simp only [hpacked, kPackedSwitchSignature, and_self, if_true]
    rw [if_neg (by omega)]
  · rename_i hsparse
    have h2C : c.opcode k = 0x2C := by omega
    have hsig : kSparseSwitchSignature = 0x0200 := rfl
    rw [if_neg hsparse, if_neg (fun h => hsparse h.1), if_pos ⟨h2C, hsig⟩, if_neg hsparse]
    simp only
    rw [if_neg (by omega), Nat.mul_comm 2 (c.unit (p + 1))]

end Payload

theorem branchDistance_switch {k : Nat} (hop : isSwitch (c.opcode k) = true) :
    c.branchDistance k = c.readInt (k + 1) := by
  simp only [isSwitch, Bool.or_eq_true, beq_iff_eq] at hop
  simp only [branchDistance]
  rw [if_neg (by omega), if_neg (by omega), if_neg (by omega)]

/-- Both builders take the same targets from an instruction, and each is an
instruction that starts a block of the snapshot. -/
theorem targets_agree (hc : c.Decodes) (hsmall : c.codeBytes < 2 ^ 32) (ht : c.Targeted)
    {k : Nat} (hk : k ∈ c.starts) (s : Nat) :
    (s ∈ c.snapTargets k ↔ s ∈ (c.insnAt k).targets) ∧
      (s ∈ c.snapTargets k → s ∈ c.snapLeaders ∧ ∃ j ∈ c.starts, s = 2 * j) := by
  unfold snapTargets
  simp only [opcode_rawAt, byteOff_rawAt]
  cases hbranch : isUnconditionalBranch (c.opcode k) || isConditionalBranch (c.opcode k) with
  | true =>
    have hop : isBranchOpcode (c.opcode k) = true := by
      rw [isBranchOpcode, hbranch]
      rfl
    obtain ⟨hextract, hunits⟩ := branch_distance hc hk hop
    obtain ⟨t, htstart, hcast, hnote, -⟩ :=
      note_of_startsAt hsmall (ht.branch k hk hbranch _ hunits)
    have htarget : (c.rawAt k).branchTarget = 2 * t := by
      rw [rawAt_branch hbranch, hextract, hcast]
    simp only [if_true, List.mem_singleton, htarget, targets_of_branch hbranch, hnote, true_and]
    rintro rfl
    refine ⟨?_, t, htstart, rfl⟩
    apply mem_snapLeaders_of_start hc hk
    refine Or.inr (Or.inl ⟨?_, htarget.symm⟩)
    rw [htarget, uint32Max]
    omega
  | false =>
    cases hswitch : isSwitch (c.opcode k) with
    | false => simp [targets_of_plain hbranch hswitch]
    | true =>
      have hop : isBranchOpcode (c.opcode k) = true := by
        rw [isBranchOpcode, hswitch]
        simp
      obtain ⟨hextract, hunits⟩ := branch_distance hc hk hop
      obtain ⟨p, hp, hkind, hroom, hcases⟩ := ht.payload k hk hswitch _ hunits
      rw [branchDistance_switch hswitch] at hextract hp
      have hwidth := payload_width hkind
      have hpbound : 2 * p + 4 ≤ c.codeBytes := by
        rw [codeBytes]
        split at hwidth <;> omega
      have hpayload : (c.rawAt k).payload = some (2 * p) := by
        rw [rawAt_switch hswitch, hextract, castU4_of_lt (n := 2 * p) (by omega) (by omega)]
      have hhalf : 2 * p / 2 = p := by omega
      have hpayloadLeaders : c.payloadLeaders (c.rawAt k) =
          (c.parsePayloadAt p).cases.flatMap fun case => c.note (2 * k + case.2 * 2) := by
        unfold payloadLeaders
        simp only [hpayload, hhalf, byteOff_rawAt]
        rw [if_neg (by omega)]
        rfl
      have hoff : ((2 * k : Nat) : Int) = 2 * (k : Int) := by omega
      simp only [hpayload, hhalf, targets_of_switch hswitch, Bool.false_eq_true, if_false, if_true,
        switchTargets_of_payload hkind hswitch hroom hp, List.mem_map, List.mem_flatMap,
        List.mem_range, hoff]
      rw [exists_case hkind hroom fun offset => castU4 (2 * k + offset * 2) = s]
      constructor
      · constructor
        · rintro ⟨i, hi, rfl⟩
          obtain ⟨t, -, hcast, hnote, -⟩ := note_of_startsAt hsmall (hcases i hi)
          exact ⟨i, hi, by rw [Nat.mul_comm i 2, hnote, hcast]; exact List.mem_singleton_self _⟩
        · rintro ⟨i, hi, hs⟩
          obtain ⟨t, -, hcast, hnote, -⟩ := note_of_startsAt hsmall (hcases i hi)
          rw [Nat.mul_comm i 2, hnote] at hs
          exact ⟨i, hi, by rw [hcast, List.mem_singleton.mp hs]⟩
      · rintro ⟨i, hi, rfl⟩
        obtain ⟨t, htstart, hcast, -, hnote⟩ := note_of_startsAt hsmall (hcases i hi)
        refine ⟨?_, t, htstart, hcast⟩
        apply mem_snapLeaders_of_start hc hk
        refine Or.inr (Or.inr ?_)
        rw [hpayloadLeaders, List.mem_flatMap, exists_case hkind hroom
          fun offset => castU4 _ ∈ c.note (2 * k + offset * 2)]
        refine ⟨i, hi, ?_⟩
        rw [hnote, hcast]
        exact List.mem_singleton_self _

end CodeItem

end Dexllm
