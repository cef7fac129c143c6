import Dexllm.Flow.UnitReads
import Dexllm.FieldSitesSpecs
import Dexllm.Flow.InvokeSites

/-!
Where what the linear decode meets ends inside the code, the walks stay inside it
and give what they give without a bound.
-/

namespace Dexllm

open Guarded Bytes LinearSweep

namespace CodeItem

variable {c : CodeItem} {k n : Nat} {units : List Nat}

theorem touch_eq_ok (h : ∀ u ∈ units, u < c.insnsSize) : c.touch units = .ok () := if_pos h

theorem touch_eq_oob {u : Nat} (hu : u ∈ units) (h : c.insnsSize ≤ u) :
    c.touch units = .error .oob :=
  if_neg fun hall => absurd (hall u hu) (Nat.not_lt.mpr h)

theorem mem_unitsFrom {u : Nat} : u ∈ unitsFrom k n ↔ k ≤ u ∧ u < k + n := by
  simp only [unitsFrom, List.mem_map, List.mem_range]
  constructor
  · rintro ⟨i, hi, rfl⟩
    omega
  · rintro ⟨hle, hlt⟩
    exact ⟨u - k, by omega, by omega⟩

theorem touch_unitsFrom (h : k + n ≤ c.insnsSize) : c.touch (unitsFrom k n) = .ok () :=
  touch_eq_ok fun _ hu => Nat.lt_of_lt_of_le (mem_unitsFrom.mp hu).2 h

section Units

theorem one_le_width (format : InstructionFormat) : 1 ≤ getWidthFromFormat format := by
  cases format <;> decide

theorem width_of_isCallFormat {format : InstructionFormat} (h : isCallFormat format = true) :
    3 ≤ getWidthFromFormat format := by
  revert h
  cases format <;> decide

theorem opcode_of_isPayload (h : isPayload (c.unit k) = true) : c.opcode k = 0 := by
  simp only [isPayload, Bool.or_eq_true, beq_iff_eq] at h
  rcases h with (hunit | hunit) | hunit <;> rw [opcode, hunit] <;> rfl

theorem headerUnits_of_not_payload {first : Nat} (h : isPayload first = false) :
    headerUnits first = 1 := by
  simp only [isPayload, Bool.or_eq_false_iff, beq_eq_false_iff_ne] at h
  rw [headerUnits, if_neg (by simp [h]), if_neg h.2]

theorem getBytecodeWidth_of_not_payload (h : isPayload (c.unit k) = false) :
    c.getBytecodeWidth k = getWidthFromFormat (getFormatFromOpcode (c.opcode k)) := by
  simp only [isPayload, Bool.or_eq_false_iff, beq_eq_false_iff_ne] at h
  rw [getBytecodeWidth, if_neg h.1.1, if_neg h.1.2, if_neg h.2]

theorem headerUnits_le_unitsAt (c : CodeItem) (k : Nat) : headerUnits (c.unit k) ≤ c.unitsAt k := by
  unfold unitsAt
  split
  · exact Nat.le_refl _
  next h =>
    rw [headerUnits_of_not_payload (Bool.eq_false_iff.mpr h)]
    exact one_le_width _

/-- An instruction is as wide as its reads, a payload is wider than its header. -/
theorem unitsAt_le_width (c : CodeItem) (k : Nat) : c.unitsAt k ≤ c.getBytecodeWidth k := by
  unfold unitsAt
  split
  next h =>
    simp only [isPayload, Bool.or_eq_true, beq_iff_eq] at h
    rcases h with (hunit | hunit) | hunit <;>
      simp [headerUnits, getBytecodeWidth, hunit, kPackedSwitchSignature,
        kSparseSwitchSignature, kArrayDataSignature]
    omega
  next h => exact Nat.le_of_eq (getBytecodeWidth_of_not_payload (Bool.eq_false_iff.mpr h)).symm

theorem unitsAt_pos (c : CodeItem) (k : Nat) : 0 < c.unitsAt k := by
  refine Nat.lt_of_lt_of_le ?_ (c.headerUnits_le_unitsAt k)
  unfold headerUnits
  split
  · omega
  · split <;> omega

theorem getBytecodeWidth_pos (c : CodeItem) (k : Nat) : 0 < c.getBytecodeWidth k :=
  Nat.lt_of_lt_of_le (c.unitsAt_pos k) (c.unitsAt_le_width k)

theorem unitsAt_eq (h : c.opcode k ≠ 0) :
    c.unitsAt k = getWidthFromFormat (getFormatFromOpcode (c.opcode k)) :=
  if_neg fun hpayload => h (opcode_of_isPayload hpayload)

theorem guardedWidth_eq_ok (h : k + c.unitsAt k ≤ c.insnsSize) :
    c.guardedWidth k = .ok (c.getBytecodeWidth k) := by
  have hheader := c.headerUnits_le_unitsAt k
  rw [guardedWidth, touch_unitsFrom (by omega), bind_ok]
  rfl

end Units

section Walk

variable {α : Type} {visit : Nat → Run (List α)} {fuel : Nat}

/-- A walk over units it may read collects what its visits give. -/
theorem guardedWalkFrom_eq {out : Nat → List α}
    (hfits : ∀ j ∈ sweepFrom c.getBytecodeWidth c.insnsSize fuel k, j + c.unitsAt j ≤ c.insnsSize)
    (hvisit : ∀ j ∈ sweepFrom c.getBytecodeWidth c.insnsSize fuel k, visit j = .ok (out j)) :
    c.guardedWalkFrom visit fuel k =
      .ok ((sweepFrom c.getBytecodeWidth c.insnsSize fuel k).flatMap out) := by
  induction fuel generalizing k with
  | zero => rfl
  | succ fuel ih =>
    unfold guardedWalkFrom
    unfold sweepFrom at hfits hvisit ⊢
    split
    next hk =>
      rw [if_pos hk] at hfits hvisit
      have hpos := c.getBytecodeWidth_pos k
      rw [guardedWidth_eq_ok (hfits k List.mem_cons_self), bind_ok, if_neg (by omega),
        hvisit k List.mem_cons_self, bind_ok,
        ih (fun j hj => hfits j (List.mem_cons_of_mem _ hj))
          (fun j hj => hvisit j (List.mem_cons_of_mem _ hj))]
      rfl
    next => rfl

theorem wp_guardedWalkFrom
    (hfits : ∀ j ∈ sweepFrom c.getBytecodeWidth c.insnsSize fuel k, j + c.unitsAt j ≤ c.insnsSize)
    (hvisit : ∀ j ∈ sweepFrom c.getBytecodeWidth c.insnsSize fuel k,
      wp (visit j) fun _ => True) :
    wp (c.guardedWalkFrom visit fuel k) fun _ => True := by
  induction fuel generalizing k with
  | zero => trivial
  | succ fuel ih =>
    unfold guardedWalkFrom
    unfold sweepFrom at hfits hvisit
    split
    next hk =>
      rw [if_pos hk] at hfits hvisit
      rw [guardedWidth_eq_ok (hfits k List.mem_cons_self), bind_ok, wp_ite]
      refine ⟨fun _ => trivial, fun _ => ?_⟩
      rw [wp_bind]
      refine wp_mono (hvisit k List.mem_cons_self) fun _ _ => ?_
      rw [wp_bind]
      exact wp_mono (ih (fun j hj => hfits j (List.mem_cons_of_mem _ hj))
        fun j hj => hvisit j (List.mem_cons_of_mem _ hj)) fun _ _ => trivial
    next => trivial

/-- A walk whose visits read all that `unitsAt` says, and return where they can,
faults at what does not end inside the code. -/
theorem guardedWalkFrom_eq_oob {last : Nat}
    (hlast : last ∈ sweepFrom c.getBytecodeWidth c.insnsSize fuel k)
    (hpast : c.insnsSize < last + c.unitsAt last)
    (hvisit : ∀ j ∈ sweepFrom c.getBytecodeWidth c.insnsSize fuel k,
      j + c.unitsAt j ≤ c.insnsSize → ∃ out, visit j = .ok out)
    (hoob : isPayload (c.unit last) = false → visit last = .error .oob) :
    c.guardedWalkFrom visit fuel k = .error .oob := by
  induction fuel generalizing k with
  | zero => cases hlast
  | succ fuel ih =>
    unfold guardedWalkFrom
    unfold sweepFrom at hlast hvisit
    split
    next hk =>
      rw [if_pos hk] at hlast hvisit
      have hpos := c.getBytecodeWidth_pos k
      rcases List.mem_cons.mp hlast with rfl | hrest
      · cases hpayload : isPayload (c.unit last) with
        | true =>
          have hunits : c.unitsAt last = headerUnits (c.unit last) := if_pos hpayload
          have hread : last + headerUnits (c.unit last) - 1 ∈
              unitsFrom last (headerUnits (c.unit last)) :=
            mem_unitsFrom.mpr (by omega)
          rw [guardedWidth, touch_eq_oob hread (by omega), bind_error, bind_error]
        | false =>
          have hheader := headerUnits_of_not_payload hpayload
          rw [guardedWidth, hheader, touch_unitsFrom (by omega), bind_ok, pure_eq_ok, bind_ok,
            if_neg (by omega), hoob hpayload, bind_error]
      · have hnext := (sweepFrom_bounds hrest).1
        have hend := (sweepFrom_bounds hrest).2
        have hle := c.unitsAt_le_width k
        have hfits : k + c.unitsAt k ≤ c.insnsSize := by omega
        obtain ⟨out, hout⟩ := hvisit k List.mem_cons_self hfits
        rw [guardedWidth_eq_ok hfits, bind_ok, if_neg (by omega), hout, bind_ok,
          ih hrest (fun j hj => hvisit j (List.mem_cons_of_mem _ hj)), bind_error]
    next hk =>
      rw [if_neg hk] at hlast
      cases hlast

end Walk

section Sites

variable (hc : c.Fits)
include hc

/-- A boundary at an operand that is not the padding of a payload. -/
theorem Fits.operand (hk : k ∈ c.boundaries) (hop : c.opcode k ≠ 0) :
    k + getWidthFromFormat (getFormatFromOpcode (c.opcode k)) ≤ c.insnsSize :=
  unitsAt_eq hop ▸ hc k hk

theorem guardedInvokeSites_eq : c.guardedInvokeSites = .ok c.enumerateInvokeSites := by
  rw [enumerateInvokeSites, enumerateFrom_eq fun j _ => c.getBytecodeWidth_pos j]
  apply guardedWalkFrom_eq hc
  intro k hk
  have htouch : c.touch (if isInvoke (c.opcode k) || isInvokeRange (c.opcode k) then [k + 1]
      else []) = .ok () := by
    apply touch_eq_ok
    intro u hu
    split at hu
    next hcall =>
      obtain rfl := List.mem_singleton.mp hu
      have hop : c.opcode k ≠ 0 := fun hzero => by
        rw [hzero] at hcall
        exact absurd hcall (by decide)
      have hwidth := width_of_isCallFormat (callFormat_of_invoke hcall).1
      have hend := hc.operand hk hop
      omega
    next => cases hu
  rw [htouch, bind_ok]
  rfl

theorem guardedFieldSites_eq : c.guardedFieldSites = .ok c.enumerateFieldAccessSites := by
  rw [enumerateFieldAccessSites, enumerateFieldFrom_eq fun j _ => c.getBytecodeWidth_pos j]
  apply guardedWalkFrom_eq hc
  intro k hk
  have htouch : c.touch (if isFieldAccessOpcode (c.opcode k) then [k + 1] else []) = .ok () := by
    apply touch_eq_ok
    intro u hu
    split at hu
    next haccess =>
      obtain rfl := List.mem_singleton.mp hu
      have hop : c.opcode k ≠ 0 := fun hzero => by
        rw [hzero] at haccess
        exact absurd haccess (by decide)
      have hend := hc.operand hk hop
      rcases (fieldFormat_of_access haccess).1 with hformat | hformat <;>
      · rw [hformat] at hend
        exact hend
    next => cases hu
  rw [htouch, bind_ok]
  rfl

end Sites

end CodeItem

end Dexllm

/-!
`AnalyzeInvokes` inside the code: its decode loop reads a payload only where the
whole of it is there, its blocks are made of the instructions the decode meets.
-/

namespace Dexllm

open Guarded Bytes LinearSweep

namespace CodeItem

variable {c : CodeItem} {k : Nat}

/-- `run_block` reads no more than the instruction has. -/
theorem operandUnits_lt {op : Nat} (h : operandUnits op ≠ 0) :
    op ≠ 0 ∧ operandUnits op < getWidthFromFormat (getFormatFromOpcode op) := by
  unfold operandUnits at h ⊢
  split at h
  next hcall =>
    rw [if_pos hcall]
    refine ⟨fun hzero => ?_, width_of_isCallFormat (callFormat_of_invoke hcall).1⟩
    rw [hzero] at hcall
    exact absurd hcall (by decide)
  next hcall =>
    rw [if_neg hcall]
    split at h
    all_goals first
      | exact ⟨by decide, by decide⟩
      | skip
    next =>
      split at h
      next hfield =>
        have haccess : isFieldAccessOpcode op = true := by
          simp only [isFieldAccessOpcode, Bool.and_eq_true, decide_eq_true_eq]
          omega
        rw [if_pos hfield]
        refine ⟨by omega, ?_⟩
        rcases (fieldFormat_of_access haccess).1 with hformat | hformat <;> rw [hformat] <;> decide
      next => exact absurd rfl h

theorem mem_payloadReads {u : Nat} (hu : u ∈ c.payloadReads k) : u < c.insnsSize := by
  simp only [payloadReads] at hu
  split at hu
  · cases hu
  next hpay =>
    have hbytes : (c.codeBytes : Int) = 2 * c.insnsSize := by
      rw [codeBytes]
      omega
    rcases List.mem_append.mp hu with hu | hu
    · have := mem_unitsFrom.mp hu
      omega
    · split at hu
      · cases hu
      · split at hu
        · cases hu
        · have := mem_unitsFrom.mp hu
          omega

section Fits

variable (hc : c.Fits)
include hc

theorem flowReads_eq (hk : k ∈ c.boundaries) : c.flowReads k = .ok () := by
  have hlt := boundary_lt hk
  simp only [flowReads]
  split
  next hop =>
    have hend : k + 2 ≤ c.insnsSize := by
      have hend := hc.operand hk (by omega)
      rwa [hop] at hend
    apply touch_eq_ok
    intro u hu
    obtain rfl := List.mem_singleton.mp hu
    omega
  split
  next hop =>
    have hend : k + 3 ≤ c.insnsSize := by
      have hend := hc.operand hk (by omega)
      rwa [hop] at hend
    exact touch_unitsFrom (by omega)
  split
  next hop =>
    have hpayload : isPayload (c.unit k) = false := by
      by_contra hpayload
      have := opcode_of_isPayload (Bool.not_eq_false _ ▸ hpayload)
      omega
    have hend := hc.operand hk (by omega)
    rw [← getBytecodeWidth_of_not_payload hpayload] at hend
    have hpos := c.getBytecodeWidth_pos k
    apply touch_eq_ok
    intro u hu
    obtain rfl := List.mem_singleton.mp hu
    omega
  split
  next hop =>
    have hend := hc.operand hk (by omega)
    have hwidth : getWidthFromFormat (getFormatFromOpcode (c.opcode k)) = 3 := by
      rcases hop with hop | hop <;> rw [hop] <;> rfl
    rw [hwidth] at hend
    rw [touch_unitsFrom (by omega), bind_ok]
    exact touch_eq_ok fun _ hu => mem_payloadReads hu
  next => rfl

theorem guardedCfg_eq : c.guardedCfg = .ok c.buildCfg := by
  have hwalk : (c.guardedWalk fun k => do
      c.flowReads k
      pure [c.insnAt k]) = .ok (c.boundaries.flatMap fun k => [c.insnAt k]) := by
    apply guardedWalkFrom_eq hc
    intro k hk
    rw [flowReads_eq hc hk, bind_ok]
    rfl
  rw [guardedCfg, hwalk, bind_ok]
  rfl

theorem guardedRunFrom_eq {stop fuel : Nat} (s : BlockState)
    (hin : ∀ j ∈ sweepFrom c.getBytecodeWidth stop fuel k, j ∈ c.boundaries) :
    c.guardedRunFrom stop fuel k s = .ok (c.runFrom stop fuel k s) := by
  induction fuel generalizing k s with
  | zero => rfl
  | succ fuel ih =>
    unfold guardedRunFrom runFrom
    unfold sweepFrom at hin
    split
    next hk =>
      rw [if_pos hk] at hin
      have hmem := hin k List.mem_cons_self
      have hlt := boundary_lt hmem
      have hpos := c.getBytecodeWidth_pos k
      have htouch : c.touch (unitsFrom (k + 1) (operandUnits (c.opcode k))) = .ok () := by
        apply touch_unitsFrom
        by_cases hzero : operandUnits (c.opcode k) = 0
        · omega
        · obtain ⟨hop, hwidth⟩ := operandUnits_lt hzero
          have hend := hc.operand hmem hop
          omega
      rw [guardedWidth_eq_ok (hc k hmem), bind_ok, if_neg (by omega), if_neg (by omega), htouch,
        bind_ok, ih _ fun j hj => hin j (List.mem_cons_of_mem _ hj), bind_ok]
      rfl
    next => rfl

end Fits

/-- A sweep from a boundary meets boundaries only. -/
theorem mem_boundaries_of_sweep {stop fuel j : Nat} (hstop : stop ≤ c.insnsSize)
    (hk : k < stop → k ∈ c.boundaries) (hj : j ∈ sweepFrom c.getBytecodeWidth stop fuel k) :
    j ∈ c.boundaries := by
  induction fuel generalizing k with
  | zero => cases hj
  | succ fuel ih =>
    unfold sweepFrom at hj
    split at hj
    next hlt =>
      rcases List.mem_cons.mp hj with rfl | hj
      · exact hk hlt
      · refine ih (fun hnext => ?_) hj
        exact mem_sweepFrom_next (by omega) (fun i _ => c.getBytecodeWidth_pos i) (hk hlt)
          (by omega)
    next => cases hj

theorem zero_mem_boundaries (h : 0 < c.insnsSize) : 0 ∈ c.boundaries := by
  obtain ⟨m, hm⟩ : ∃ m, c.insnsSize = m + 1 := ⟨c.insnsSize - 1, by omega⟩
  rw [boundaries, hm, sweepFrom, if_pos (by omega)]
  exact List.mem_cons_self

theorem boundary_of_mem_decodeFrom {fuel : Nat} {insn : Insn} (h : insn ∈ c.decodeFrom fuel k) :
    ∃ j ∈ sweepFrom c.getBytecodeWidth c.insnsSize fuel k, insn.off = 2 * j := by
  induction fuel generalizing k with
  | zero => cases h
  | succ fuel ih =>
    unfold decodeFrom at h
    unfold sweepFrom
    split at h
    next hk =>
      rw [if_pos hk]
      split at h
      · cases h
      · rcases List.mem_cons.mp h with rfl | h
        · exact ⟨k, List.mem_cons_self, rfl⟩
        · obtain ⟨j, hj, hoff⟩ := ih h
          exact ⟨j, List.mem_cons_of_mem _ hj, hoff⟩
    next => cases h

/-- A block starts at an instruction, whatever the code. -/
theorem boundary_of_mem_cfgLeaders {off : Nat} (h : off ∈ c.cfgLeaders) :
    ∃ k ∈ c.boundaries, off = 2 * k := by
  have hoff : off ∈ c.insnOffs := by
    simp only [cfgLeaders, List.mem_append, List.mem_flatMap, List.mem_filter,
      decide_eq_true_eq] at h
    rcases h with (hfirst | ⟨insn, _, hinsn⟩) | ⟨_, hoff⟩
    · exact List.mem_of_mem_take hfirst
    · rcases mem_leadersOf.mp hinsn with htarget | ⟨-, hnext, rfl⟩
      · exact of_decide_eq_true (List.mem_filter.mp htarget).2
      · exact hnext
    · exact hoff
  obtain ⟨insn, hinsn, rfl⟩ := List.mem_map.mp hoff
  exact boundary_of_mem_decodeFrom hinsn

/-- The instructions of a block are instructions of the code. -/
theorem blockSweep_boundaries {b : Nat} :
    ∀ j ∈ sweepFrom c.getBytecodeWidth (c.buildCfg.endOf b c.codeBytes / 2) c.insnsSize
      (c.buildCfg.starts.getD b 0 / 2), j ∈ c.boundaries := by
  have hstart {i : Nat} (hi : i < c.buildCfg.starts.length) :
      ∃ k ∈ c.boundaries, c.buildCfg.starts[i] = 2 * k :=
    boundary_of_mem_cfgLeaders (mem_cfgStarts.mp (List.getElem_mem hi))
  have hstop : c.buildCfg.endOf b c.codeBytes / 2 ≤ c.insnsSize := by
    unfold Cfg.endOf
    by_cases hnext : b + 1 < c.buildCfg.starts.length
    · obtain ⟨k, hk, heq⟩ := hstart hnext
      have hlt := boundary_lt hk
      rw [List.getD_eq_getElem _ _ hnext, heq]
      omega
    · rw [List.getD_eq_default _ _ (by omega), codeBytes]
      omega
  intro j hj
  refine mem_boundaries_of_sweep hstop (fun hlt => ?_) hj
  by_cases hb : b < c.buildCfg.starts.length
  · obtain ⟨k, hk, heq⟩ := hstart hb
    have hhalf : 2 * k / 2 = k := by omega
    rw [List.getD_eq_getElem _ _ hb, heq, hhalf]
    exact hk
  · rw [List.getD_eq_default _ _ (by omega)] at hlt ⊢
    exact zero_mem_boundaries (by omega)

section Fits

variable (hc : c.Fits)
include hc

theorem guardedRun_eq (b : Nat) (regs : RegFile) :
    c.guardedRun c.buildCfg b regs = .ok (c.runBlock c.buildCfg b regs) :=
  guardedRunFrom_eq hc _ blockSweep_boundaries

theorem guardedResolve_eq (b : Nat) (window : List Nat) (work stored : Nat)
    (outs : List (Nat × RegFile)) :
    c.guardedResolve c.buildCfg b window work stored outs =
      .ok (c.resolve c.buildCfg b window work stored outs) := by
  induction window generalizing work stored outs with
  | nil => rfl
  | cons w window ih =>
    unfold guardedResolve resolve
    simp only
    split
    · rfl
    split
    · rfl
    · rw [guardedRun_eq hc, bind_ok, ih]

theorem guardedBlock_eq (depth b work : Nat) :
    c.guardedBlock c.buildCfg depth b work = .ok (c.analyzeBlock c.buildCfg depth b work) := by
  unfold guardedBlock analyzeBlock
  split
  · split
    · simp only [guardedResolve_eq hc, bind_ok, guardedRun_eq hc]
      rfl
    · simp only [pure_eq_ok, bind_ok, guardedRun_eq hc]
  · rfl

theorem guardedBlocks_eq (depth : Nat) (blocks : List Nat) (work : Nat) :
    c.guardedBlocks c.buildCfg depth blocks work =
      .ok (c.analyzeBlocks c.buildCfg depth blocks work) := by
  induction blocks generalizing work with
  | nil => rfl
  | cons b blocks ih =>
    unfold guardedBlocks analyzeBlocks
    rw [guardedBlock_eq hc, bind_ok]
    simp only
    rw [ih, bind_ok]
    rfl

theorem guardedAnalyze_eq (depth : Nat) :
    c.guardedAnalyze depth = .ok (c.analyzeInvokes depth) := by
  rw [guardedAnalyze, guardedCfg_eq hc, bind_ok]
  exact guardedBlocks_eq hc depth _ 0

end Fits

end CodeItem

end Dexllm
