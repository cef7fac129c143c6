import Dexllm.Flow.InvokeArgs

/-!
The blocks of `BuildCfg` cut the instructions of an accepted code item in order,
so the argument analysis lists the calls the walk over the instructions lists.
-/

namespace Dexllm

open Guarded Bytes Leaders LinearSweep

namespace CodeItem

variable {c : CodeItem}

@[simp] theorem emitAt_sites (k : Nat) (s : BlockState) :
    (c.emitAt k s).map (·.toInvokeSite) = (c.siteAt k).toList := by
  unfold emitAt
  cases c.siteAt k <;> rfl

/-- The sites of a run over instructions do not depend on the registers. -/
theorem sites_runFrom {stop fuel k : Nat} {s : BlockState}
    (hpos : ∀ j ∈ sweepFrom c.getBytecodeWidth stop fuel k, 0 < c.getBytecodeWidth j) :
    (c.runFrom stop fuel k s).sites.map (·.toInvokeSite) =
      (sweepFrom c.getBytecodeWidth stop fuel k).flatMap fun j => (c.siteAt j).toList := by
  induction fuel generalizing k s with
  | zero => rfl
  | succ fuel ih =>
    unfold runFrom
    unfold sweepFrom at hpos ⊢
    split
    · rename_i hk
      rw [if_pos hk] at hpos
      have hposk := hpos k List.mem_cons_self
      rw [if_neg (by omega), List.flatMap_cons, List.map_append, emitAt_sites,
        ih fun j hj => hpos j (List.mem_cons_of_mem _ hj)]
    · rfl

theorem enumerateFrom_eq {fuel k : Nat}
    (hpos : ∀ j ∈ sweepFrom c.getBytecodeWidth c.insnsSize fuel k, 0 < c.getBytecodeWidth j) :
    c.enumerateFrom fuel k =
      (sweepFrom c.getBytecodeWidth c.insnsSize fuel k).flatMap fun j => (c.siteAt j).toList := by
  induction fuel generalizing k with
  | zero => rfl
  | succ fuel ih =>
    unfold enumerateFrom
    unfold sweepFrom at hpos ⊢
    split
    · rename_i hk
      rw [if_pos hk] at hpos
      have hposk := hpos k List.mem_cons_self
      rw [if_neg (by omega), List.flatMap_cons,
        ih fun j hj => hpos j (List.mem_cons_of_mem _ hj)]
    · rfl

theorem enumerateInvokeSites_eq (hc : c.Decodes) :
    c.enumerateInvokeSites = c.boundaries.flatMap fun k => (c.siteAt k).toList :=
  enumerateFrom_eq fun j hj => (hc.width j hj).1

theorem invoke_insnAt (k : Nat) : (c.insnAt k).invoke = (c.siteAt k).isSome := by
  have hcall : (c.insnAt k).invoke =
      (isInvoke (c.opcode k) || isInvokeRange (c.opcode k)) := by
    simp only [insnAt, isInvoke, isInvokeRange]
    ac_rfl
  rw [hcall, siteAt]
  cases isInvoke (c.opcode k) || isInvokeRange (c.opcode k) <;> rfl

/-- The instructions of block `b`. -/
def blockSweep (c : CodeItem) (b : Nat) : List Nat :=
  sweepFrom c.getBytecodeWidth (c.buildCfg.endOf b c.codeBytes / 2) c.insnsSize
    (c.buildCfg.starts.getD b 0 / 2)

section Cut

variable (hc : c.Decodes)
include hc

theorem start_boundary {s : Nat} (hs : s ∈ c.buildCfg.starts) :
    s / 2 ∈ c.boundaries ∧ 2 * (s / 2) = s := by
  obtain ⟨k, hk, rfl⟩ := mem_cfgLeaders hc (mem_cfgStarts.mp hs)
  have hhalf : 2 * k / 2 = k := by omega
  rw [hhalf]
  exact ⟨hk, rfl⟩

theorem zero_mem_starts (hsize : 0 < c.insnsSize) : 0 ∈ c.buildCfg.starts := by
  apply mem_cfgStarts.mpr
  apply List.mem_append_left
  apply List.mem_append_left
  obtain ⟨m, hm⟩ : ∃ m, c.insnsSize = m + 1 := ⟨c.insnsSize - 1, by omega⟩
  have hfirst : c.boundaries = 0 :: sweepFrom c.getBytecodeWidth c.insnsSize m
      (0 + c.getBytecodeWidth 0) := by
    rw [boundaries, hm, sweepFrom, if_pos (by omega)]
  simp [insnOffs, cfgInsns_eq hc, hfirst, insnAt]

/-- The blocks before a start and the sweep from it make up the instructions. -/
theorem boundaries_cut {i : Nat} (hi : i < c.buildCfg.starts.length) :
    c.boundaries = (List.range i).flatMap c.blockSweep ++
      sweepFrom c.getBytecodeWidth c.insnsSize c.insnsSize (c.buildCfg.starts[i] / 2) := by
  induction i with
  | zero =>
    have hsize : 0 < c.insnsSize := by
      have := boundary_lt (start_boundary hc (List.getElem_mem hi)).1
      omega
    obtain ⟨j, hj, hzero⟩ := List.getElem_of_mem (zero_mem_starts hc hsize)
    have hle := getElem_le c.starts_pairwise (Nat.zero_le j) hj
    have hstart : c.buildCfg.starts[0] = 0 := by omega
    rw [hstart]
    rfl
  | succ i ih =>
    have hprev : i < c.buildCfg.starts.length := by omega
    have hcut := ih hprev
    obtain ⟨hin, hbyte⟩ := start_boundary hc (List.getElem_mem hi)
    have hlt := getElem_lt c.starts_pairwise (Nat.lt_add_one i) hi
    generalize hs : c.buildCfg.starts[i + 1] / 2 = s at hin ⊢
    have hsmem : s ∈ sweepFrom c.getBytecodeWidth c.insnsSize c.insnsSize
        (c.buildCfg.starts[i] / 2) := by
      rw [hcut] at hin
      rcases List.mem_append.mp hin with hbefore | hbehind
      · obtain ⟨j, hj, hsj⟩ := List.mem_flatMap.mp hbefore
        have hji := List.mem_range.mp hj
        have hsj := (sweepFrom_bounds hsj).2
        have hend : c.buildCfg.endOf j c.codeBytes = c.buildCfg.starts[j + 1] :=
          List.getD_eq_getElem _ _ (by omega)
        rw [hend] at hsj
        have := getElem_le c.starts_pairwise (show j + 1 ≤ i by omega) hprev
        omega
      · exact hbehind
    have hpos : ∀ k ∈ sweepFrom c.getBytecodeWidth c.insnsSize c.insnsSize
        (c.buildCfg.starts[i] / 2), 0 < c.getBytecodeWidth k := by
      intro k hk
      apply (hc.width k _).1
      rw [hcut]
      exact List.mem_append_right _ hk
    have hpiece : c.blockSweep i =
        sweepFrom c.getBytecodeWidth s c.insnsSize (c.buildCfg.starts[i] / 2) := by
      have hend : c.buildCfg.endOf i c.codeBytes = c.buildCfg.starts[i + 1] :=
        List.getD_eq_getElem _ _ hi
      rw [blockSweep, hend, hs, List.getD_eq_getElem _ _ hprev]
    rw [hcut, List.range_succ, List.flatMap_append, List.flatMap_singleton, hpiece,
      List.append_assoc, ← sweepFrom_split (by omega) hpos hsmem]

/-- The blocks cut the instructions, in order. -/
theorem boundaries_eq_blocks :
    c.boundaries = (List.range c.buildCfg.starts.length).flatMap c.blockSweep := by
  cases hlen : c.buildCfg.starts.length with
  | zero =>
    have hnone : ¬0 < c.insnsSize := by
      intro hsize
      have := List.length_pos_of_mem (zero_mem_starts hc hsize)
      omega
    have hsize : c.insnsSize = 0 := by omega
    rw [boundaries, hsize]
    rfl
  | succ last =>
    have hlast : last < c.buildCfg.starts.length := by omega
    have hpiece : c.blockSweep last = sweepFrom c.getBytecodeWidth c.insnsSize c.insnsSize
        (c.buildCfg.starts[last] / 2) := by
      have hend : c.buildCfg.endOf last c.codeBytes = c.codeBytes :=
        List.getD_eq_default _ _ (by omega)
      have hhalf : c.codeBytes / 2 = c.insnsSize := by
        rw [codeBytes]
        omega
      rw [blockSweep, hend, hhalf, List.getD_eq_getElem _ _ hlast]
    rw [boundaries_cut hc hlast, List.range_succ, List.flatMap_append, List.flatMap_singleton,
      hpiece]

theorem mem_boundaries_of_blockSweep {b k : Nat} (hb : b < c.buildCfg.starts.length)
    (hk : k ∈ c.blockSweep b) : k ∈ c.boundaries := by
  rw [boundaries_eq_blocks hc]
  exact List.mem_flatMap.mpr ⟨b, List.mem_range.mpr hb, hk⟩

theorem sites_runBlock {b : Nat} (hb : b < c.buildCfg.starts.length) (regs : RegFile) :
    (c.runBlock c.buildCfg b regs).sites.map (·.toInvokeSite) =
      (c.blockSweep b).flatMap fun k => (c.siteAt k).toList :=
  sites_runFrom fun k hk => (hc.width k (mem_boundaries_of_blockSweep hc hb hk)).1

/-- A block that `BuildCfg` gives no call has no site. -/
theorem siteAt_of_not_hasInvoke {b k : Nat} (hb : b < c.buildCfg.starts.length)
    (hnone : c.buildCfg.hasInvoke.getD b false = false) (hk : k ∈ c.blockSweep b) :
    c.siteAt k = none := by
  have hkin := mem_boundaries_of_blockSweep hc hb hk
  obtain ⟨hlow, hup⟩ := sweepFrom_bounds hk
  rw [List.getD_eq_getElem _ _ hb] at hlow
  obtain ⟨-, hbyte⟩ := start_boundary hc (List.getElem_mem hb)
  have hsegment : segmentOf c.buildCfg.starts (2 * k) = some b := by
    apply (segmentOf_eq_some c.starts_pairwise).mpr
    refine ⟨hb, by omega, fun hnext => ?_⟩
    have hend : c.buildCfg.endOf b c.codeBytes = c.buildCfg.starts[b + 1] :=
      List.getD_eq_getElem _ _ hnext
    rw [hend] at hup
    obtain ⟨-, hbyte'⟩ := start_boundary hc (List.getElem_mem hnext)
    omega
  have hlen : b < c.buildCfg.hasInvoke.length := by
    simpa [buildCfg] using hb
  rw [List.getD_eq_getElem _ _ hlen] at hnone
  have hinsn : c.keepTargets (c.insnAt k) ∈ c.cfgInsns.map c.keepTargets := by
    rw [cfgInsns_eq hc]
    exact List.mem_map_of_mem (List.mem_map_of_mem hkin)
  simp only [buildCfg, List.getElem_map, List.getElem_range] at hnone
  have hcall := List.any_eq_false.mp hnone _ hinsn
  have hstarts : segmentOf (ascending c.cfgLeaders) (2 * k) = some b := hsegment
  have hoff : (c.keepTargets (c.insnAt k)).off = 2 * k := rfl
  have hinvoke : (c.keepTargets (c.insnAt k)).invoke = (c.siteAt k).isSome :=
    invoke_insnAt k
  rw [hinvoke, hoff, hstarts] at hcall
  simpa using hcall

theorem sites_analyzeBlocks {depth : Nat} (blocks : List Nat)
    (hblocks : ∀ b ∈ blocks, b < c.buildCfg.starts.length) (work : Nat) :
    (c.analyzeBlocks c.buildCfg depth blocks work).map (·.toInvokeSite) =
      (blocks.flatMap c.blockSweep).flatMap fun k => (c.siteAt k).toList := by
  induction blocks generalizing work with
  | nil => rfl
  | cons b blocks ih =>
    have hb := hblocks b List.mem_cons_self
    have hrest := ih (fun b' hb' => hblocks b' (List.mem_cons_of_mem _ hb'))
    simp only [analyzeBlocks, List.map_append, List.flatMap_cons, List.flatMap_append, hrest]
    congr 1
    unfold analyzeBlock
    cases hcall : c.buildCfg.hasInvoke.getD b false with
    | false =>
      symm
      apply List.flatMap_eq_nil_iff.mpr
      intro k hk
      rw [siteAt_of_not_hasInvoke hc hb hcall hk]
      rfl
    | true => exact sites_runBlock hc hb _

/-- The walk over the blocks lists the calls of a body the way the walk over its
instructions does, whatever the depth. -/
theorem analyzeInvokes_sites (depth : Nat) :
    (c.analyzeInvokes depth).map (·.toInvokeSite) = c.enumerateInvokeSites := by
  rw [enumerateInvokeSites_eq hc, boundaries_eq_blocks hc]
  exact sites_analyzeBlocks hc _ (fun b hb => List.mem_range.mp hb) 0

end Cut

end CodeItem

section Callee

/-- The formats of the calls, whose second unit is a method index. -/
def isCallFormat (format : InstructionFormat) : Bool :=
  format == .k35c || format == .k3rc || format == .k45cc || format == .k4rcc

theorem callFormat_of_invoke {op : Nat} (hcall : (isInvoke op || isInvokeRange op) = true) :
    isCallFormat (getFormatFromOpcode op) = true ∧
      (getIndexTypeFromOpcode op = .kIndexMethodRef ∨
        getIndexTypeFromOpcode op = .kIndexMethodAndProtoRef) := by
  have hop : op ∈ [0x6E, 0x6F, 0x70, 0x71, 0x72, 0x74, 0x75, 0x76, 0x77, 0x78, 0xFA, 0xFB] := by
    simp only [isInvoke, isInvokeRange, Bool.or_eq_true, Bool.and_eq_true, decide_eq_true_eq,
      beq_iff_eq] at hcall
    simp only [List.mem_cons, List.not_mem_nil, or_false]
    omega
  clear hcall
  revert op
  decide

theorem decodeRegList_vB {format : InstructionFormat} {inst vB regList : Nat} {d : Instruction}
    (h : decodeRegList format inst vB regList = .ok d) : d.vB = vB := by
  unfold decodeRegList at h
  split at h
  all_goals first | cases h | (split at h <;> cases h)
  all_goals rfl

variable {v : Verifier} {off k : Nat}

theorem decodeInstruction_vB {mem : Memory} {p : Nat} {d : Instruction}
    (hcall : isCallFormat (getFormatFromOpcode (opcodeFromBytecode (u2At mem p))) = true)
    (h : decodeInstruction mem p = .ok d) : d.vB = u2At mem (p + 2) := by
  simp only [decodeInstruction, unitAt, bind_eq_ok, readU2, read_eq_ok, Nat.mul_zero,
    Nat.add_zero, Nat.mul_one] at h
  obtain ⟨inst, ⟨-, rfl⟩, h⟩ := h
  cases hformat : getFormatFromOpcode (opcodeFromBytecode (u2At mem p)) with
  | k35c =>
    simp only [hformat, bind_eq_ok, read_eq_ok] at h
    obtain ⟨index, ⟨-, rfl⟩, regList, ⟨-, rfl⟩, h⟩ := h
    exact decodeRegList_vB h
  | k3rc =>
    simp only [hformat, bind_eq_ok, read_eq_ok] at h
    obtain ⟨index, ⟨-, rfl⟩, start, ⟨-, rfl⟩, h⟩ := h
    cases h
    rfl
  | k45cc | k4rcc =>
    simp only [hformat, bind_eq_ok, read_eq_ok] at h
    obtain ⟨index, ⟨-, rfl⟩, start, ⟨-, rfl⟩, proto, ⟨-, rfl⟩, h⟩ := h
    cases h
    rfl
  | _ => simp [isCallFormat, hformat] at hcall

/-- A call in a code item the strict verifier accepts names a method of the
table. -/
theorem Verifier.callee_lt (hstrict : v.checkInsns = true) (h : v.verifyCodeItem off = .ok ())
    (hk : k ∈ (v.codeItem off).boundaries) {site : InvokeSite}
    (hsite : (v.codeItem off).siteAt k = some site) :
    site.methodIdx < v.header.methodIdsSize := by
  unfold CodeItem.siteAt at hsite
  split at hsite
  · rename_i hcall
    obtain ⟨hformat, hindex⟩ := callFormat_of_invoke hcall
    obtain ⟨registersSize, hall⟩ := Verifier.insns_of_verifyCodeItem hstrict h
    have hpayload : isPayload ((v.codeItem off).unit k) = false := by
      by_contra hpay
      have hop : (v.codeItem off).opcode k = 0 := by
        simp only [isPayload, Bool.not_eq_false, Bool.or_eq_true, beq_iff_eq] at hpay
        rcases hpay with (hunit | hunit) | hunit <;> rw [CodeItem.opcode, hunit] <;> rfl
      rw [hop] at hcall
      exact absurd hcall (by decide)
    have hinsn := (hall k hk).2 hpayload
    simp only [Verifier.verifyInsn, bind_eq_ok] at hinsn
    obtain ⟨d, hd, ⟨⟩, -, ⟨⟩, hindices, -⟩ := hinsn
    have hvB : d.vB = (v.codeItem off).unit (k + 1) := by
      rw [decodeInstruction_vB hformat hd, CodeItem.unit, Nat.mul_add, Nat.mul_one]
      rfl
    have hlt : d.vB < v.header.methodIdsSize := by
      have hop : opcodeFromBytecode ((v.codeItem off).unit k) = (v.codeItem off).opcode k := rfl
      have hplain : ¬(getFormatFromOpcode ((v.codeItem off).opcode k) = .k22c ∨
          getFormatFromOpcode ((v.codeItem off).opcode k) = .k22cs) := by
        rintro (hf | hf) <;> rw [hf] at hformat <;> exact absurd hformat (by decide)
      simp only [Verifier.verifyIndices, hop, if_neg hplain, bind_eq_ok] at hindices
      obtain ⟨⟨⟩, -, hindices⟩ := hindices
      rcases hindex with hi | hi <;>
      · rw [hi] at hindices
        have := failIf_eq_ok.mp hindices
        omega
    rw [← Option.some.inj hsite]
    exact hvB ▸ hlt
  · cases hsite

end Callee

end Dexllm
