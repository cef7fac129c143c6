import Dexllm.Flow.Targets
import Dexllm.TextCodec

/-!
The two control-flow builders side by side: they give an instruction the same
normal-flow successors but for a return without barrier, a fall into payload
data, and a handler address inside an instruction.
-/

namespace Dexllm

open Guarded Bytes Leaders LinearSweep

namespace CodeItem

variable {c : CodeItem}

/-- The byte offsets at which the exception table, a branch or a payload lets a
block of the snapshot start. -/
inductive BlockStart (c : CodeItem) : Nat → Prop where
  | entry {k : Nat} (hk : k ∈ c.starts) (hfirst : ∀ j ∈ c.starts, k ≤ j) : BlockStart c (2 * k)
  | behind {k r : Nat} (hk : k ∈ c.starts) (hends : (isBlockTerminator (c.opcode k) ||
      isConditionalBranch (c.opcode k) || isSwitch (c.opcode k)) = true)
      (hnext : c.IsNext k r) : BlockStart c (2 * r)
  | target {k : Nat} (hk : k ∈ c.starts) (hbranch : (c.rawAt k).branchTarget ≠ uint32Max) :
      BlockStart c (c.rawAt k).branchTarget
  | payloadCase {k s : Nat} (hk : k ∈ c.starts) (hcase : s ∈ c.payloadLeaders (c.rawAt k)) :
      BlockStart c s
  | tryStart {item : ParsedTry} (hitem : item ∈ c.parseExceptions) : BlockStart c item.startByte
  | handler {item : ParsedTry} {s : Nat} (hitem : item ∈ c.parseExceptions)
      (hs : s ∈ item.handlers) : BlockStart c s

/-- The loop of `ComputeLeaders` over a suffix of the instructions. -/
theorem blockStart_of_mem_computeLeaders (hc : c.Decodes) {l : Nat} (ks pre : List Nat)
    (hsplit : c.starts = pre ++ ks)
    (hl : l ∈ c.computeLeaders (ks.map c.rawAt)) : c.BlockStart l := by
  induction ks generalizing pre with
  | nil => simp [computeLeaders] at hl
  | cons k ks ih =>
    have hk : k ∈ c.starts := by
      rw [hsplit]
      simp
    rw [List.map_cons] at hl
    unfold computeLeaders at hl
    simp only [opcode_rawAt, List.mem_append, List.mem_ite_nil_right, List.mem_singleton] at hl
    rcases hl with ((⟨hends, hbehind⟩ | ⟨htarget, rfl⟩) | hpayload) | hrest
    · cases ks with
      | nil => simp at hbehind
      | cons r rest =>
        simp only [List.map_cons, List.take_succ_cons, List.take_zero, List.map_nil,
          byteOff_rawAt, List.mem_singleton] at hbehind
        subst hbehind
        apply BlockStart.behind hk hends
        have hsorted := starts_pairwise_units hc
        rw [hsplit] at hsorted
        obtain ⟨-, hafter, hbefore⟩ := List.pairwise_append.mp hsorted
        refine ⟨by rw [hsplit]; simp, List.rel_of_pairwise_cons hafter List.mem_cons_self, ?_⟩
        intro j hj hkj
        rw [hsplit] at hj
        rcases List.mem_append.mp hj with hpre | hpost
        · have := hbefore j hpre k List.mem_cons_self
          omega
        · rcases List.mem_cons.mp hpost with heq | hpost
          · omega
          · exact head_le (List.pairwise_cons.mp hafter).2 hpost
    · exact BlockStart.target hk htarget
    · exact BlockStart.payloadCase hk hpayload
    · apply ih (pre ++ [k]) _ hrest
      rw [hsplit]
      simp

theorem mem_snapLeaders (hc : c.Decodes) {l : Nat} : l ∈ c.snapLeaders ↔ c.BlockStart l := by
  constructor
  · intro hl
    have hl := mem_ascending.mp hl
    rcases List.mem_append.mp hl with hl | hl
    · rcases List.mem_append.mp hl with hfirst | hloop
      · cases hstarts : c.starts with
        | nil => simp [hstarts] at hfirst
        | cons first rest =>
          have hsorted := starts_pairwise_units hc
          simp only [hstarts, List.map_cons, List.take_succ_cons, List.take_zero, List.map_nil,
            byteOff_rawAt, List.mem_singleton] at hfirst
          rw [hfirst]
          apply BlockStart.entry (by simp [hstarts])
          intro j hj
          rw [hstarts] at hj hsorted
          exact head_le hsorted hj
      · exact blockStart_of_mem_computeLeaders hc c.starts [] rfl hloop
    · obtain ⟨item, hitem, hl⟩ := List.mem_flatMap.mp hl
      rcases List.mem_cons.mp hl with rfl | hhandler
      · exact BlockStart.tryStart hitem
      · exact BlockStart.handler hitem hhandler
  · intro hl
    cases hl with
    | @entry k hk hfirst =>
      apply mem_ascending.mpr
      apply List.mem_append_left
      apply List.mem_append_left
      cases hstarts : c.starts with
      | nil => simp [hstarts] at hk
      | cons first rest =>
        have hsorted := starts_pairwise_units hc
        have hle := hfirst first (by simp [hstarts])
        rw [hstarts] at hk hsorted
        have hge : first ≤ k := head_le hsorted hk
        have heq : k = first := by omega
        simp [heq]
    | behind hk hends hnext =>
      exact mem_snapLeaders_of_start hc hk (Or.inl ⟨hends, _, hnext, rfl⟩)
    | target hk hbranch => exact mem_snapLeaders_of_start hc hk (Or.inr (Or.inl ⟨hbranch, rfl⟩))
    | payloadCase hk hcase => exact mem_snapLeaders_of_start hc hk (Or.inr (Or.inr hcase))
    | tryStart hitem =>
      apply mem_ascending.mpr
      apply List.mem_append_right
      exact List.mem_flatMap.mpr ⟨_, hitem, List.mem_cons_self⟩
    | handler hitem hs =>
      exact handler_mem_snapLeaders (List.mem_flatMap.mpr ⟨_, hitem, hs⟩)

/-- Between the instruction at `k` and the next one at `r` lies a handler
address with another block start behind it. -/
def HandlerBetween (c : CodeItem) (k r : Nat) : Prop :=
  ∃ m ∈ c.handlerOffs, ∃ l, c.BlockStart l ∧ 2 * k < m ∧ m < l ∧ l ≤ 2 * r

theorem cutFrom_iff (hc : c.Decodes) {k r : Nat} :
    c.CutFrom (2 * k + 1) r ↔ c.HandlerBetween k r := by
  simp only [CutFrom, HandlerBetween, mem_snapLeaders hc, Nat.add_one_le_iff]

/-- When the builders give the instruction at `k` the same successors. -/
def BuildersMeet (c : CodeItem) (k : Nat) : Prop :=
  let next := k + c.getBytecodeWidth k
  if isBlockTerminator (c.opcode k) then True
  else if c.opcode k = 0x73 then ∀ r, c.IsNext k r → c.HandlerBetween k r
  else next = c.insnsSize ∨
    (next ∈ c.starts ∧ (¬c.HandlerBetween k next ∨ 2 * next ∈ (c.insnAt k).targets))

/-- The instructions control reaches from the first one along the successors of
either builder, without running into payload data. -/
inductive Reachable (c : CodeItem) (blocks : List RawBlock) : Nat → Prop where
  | entry (h : 0 ∈ c.starts) : Reachable c blocks 0
  | cfg {k j : Nat} (hk : Reachable c blocks k) (hj : j ∈ c.starts)
      (hstep : 2 * j ∈ c.cfgSuccs k) : Reachable c blocks j
  | snapshot {k j : Nat} (hk : Reachable c blocks k) (hj : j ∈ c.starts)
      (hstep : 2 * j ∈ snapshotSuccs blocks (2 * k)) : Reachable c blocks j

theorem Reachable.mem {blocks : List RawBlock} {k : Nat} (h : c.Reachable blocks k) :
    k ∈ c.starts := by
  cases h with
  | entry h => exact h
  | cfg _ hj _ => exact hj
  | snapshot _ hj _ => exact hj

section Successors

variable (hc : c.Decodes) (hsmall : c.codeBytes < 2 ^ 32) (ht : c.Targeted)
include hc hsmall ht

theorem mem_cfgSuccs_start {k s : Nat} (hk : k ∈ c.starts) :
    s ∈ c.cfgSuccs k ↔ s ∈ (c.insnAt k).targets ∨
      ((isBlockTerminator (c.opcode k) = false ∧ c.opcode k ≠ 0x73) ∧
        k + c.getBytecodeWidth k < c.insnsSize ∧ s = 2 * (k + c.getBytecodeWidth k)) := by
  rw [mem_cfgSuccs hc (mem_starts.mp hk).1, falls_iff, mem_keptTargets hc]
  apply or_congr_left
  constructor
  · exact And.left
  · intro htarget
    obtain ⟨hiff, hstart⟩ := targets_agree hc hsmall ht hk s
    obtain ⟨-, j, hj, heq⟩ := hstart (hiff.mpr htarget)
    exact ⟨htarget, j, (mem_starts.mp hj).1, heq⟩

theorem mem_snapshotSuccs_start {k s : Nat} (hk : k ∈ c.starts) :
    s ∈ snapshotSuccs c.blocks (2 * k) ↔
      (isBlockTerminator (c.opcode k) = false ∧ ∃ r, c.IsNext k r ∧ s = 2 * r ∧
        ¬c.HandlerBetween k r) ∨ s ∈ (c.insnAt k).targets := by
  rw [mem_snapshotSuccs hc hk fun t htarget => (targets_agree hc hsmall ht hk t).2 htarget,
    (targets_agree hc hsmall ht hk s).1]
  simp only [FallsTo, cutFrom_iff hc]

/-- One instruction: the builders agree on it exactly when they meet there. -/
theorem succs_agree_iff {k : Nat} (hk : k ∈ c.starts) :
    (∀ s, s ∈ c.cfgSuccs k ↔ s ∈ snapshotSuccs c.blocks (2 * k)) ↔ c.BuildersMeet k := by
  have hbound := (mem_starts.mp hk).1
  obtain ⟨hpos, hroom, -, -⟩ := hc.width k hbound
  have hpast (r : Nat) (hr : c.IsNext k r) : k + c.getBytecodeWidth k ≤ r :=
    hc.apart hbound (mem_starts.mp hr.mem).1 hr.lt
  simp only [mem_cfgSuccs_start hc hsmall ht hk, mem_snapshotSuccs_start hc hsmall ht hk,
    BuildersMeet]
  cases hterm : isBlockTerminator (c.opcode k) with
  | true => simp
  | false =>
    simp only [Bool.false_eq_true, if_false, true_and]
    split
    · rename_i h73
      have hnone : (c.insnAt k).targets = [] := by
        apply targets_of_plain <;> rw [h73] <;> rfl
      simp only [h73, hnone, List.not_mem_nil, ne_eq, not_true, false_and, or_false, false_iff]
      constructor
      · intro hagree r hr
        by_contra hclear
        exact hagree (2 * r) ⟨r, hr, rfl, hclear⟩
      · rintro hmeet s ⟨r, hr, -, hclear⟩
        exact hclear (hmeet r hr)
    · rename_i h73
      simp only [h73, ne_eq, not_false_eq_true, true_and]
      by_cases hend : k + c.getBytecodeWidth k = c.insnsSize
      · have hfalls (r : Nat) : ¬c.IsNext k r := by
          intro hr
          have := hpast r hr
          have := boundary_lt (mem_starts.mp hr.mem).1
          omega
        simp [hend, hfalls]
      · have hlt : k + c.getBytecodeWidth k < c.insnsSize := by omega
        simp only [hlt, hend, true_and, false_or]
        constructor
        · intro hagree
          rcases (hagree _).mp (Or.inr rfl) with ⟨r, hr, heq, hclear⟩ | htarget
          · have hreq : k + c.getBytecodeWidth k = r := by omega
            rw [hreq]
            exact ⟨hr.mem, Or.inl hclear⟩
          · obtain ⟨hiff, hstart⟩ := targets_agree hc hsmall ht hk
              (2 * (k + c.getBytecodeWidth k))
            obtain ⟨-, j, hj, heq⟩ := hstart (hiff.mpr htarget)
            have hjeq : k + c.getBytecodeWidth k = j := by omega
            exact ⟨hjeq ▸ hj, Or.inr htarget⟩
        · rintro ⟨hstart, hmeet⟩ s
          have hnext : c.IsNext k (k + c.getBytecodeWidth k) :=
            ⟨hstart, by omega, fun j hj hkj => hc.apart hbound (mem_starts.mp hj).1 hkj⟩
          have hunique (r : Nat) (hr : c.IsNext k r) : r = k + c.getBytecodeWidth k := by
            have := hpast r hr
            have := hr.le _ hstart hnext.lt
            omega
          constructor
          · rintro (htarget | rfl)
            · exact Or.inr htarget
            · rcases hmeet with hclear | htarget
              · exact Or.inl ⟨_, hnext, rfl, hclear⟩
              · exact Or.inr htarget
          · rintro (⟨r, hr, rfl, -⟩ | htarget)
            · exact Or.inr (by rw [hunique r hr])
            · exact Or.inl htarget

end Successors

end CodeItem

/-- The instructions of an accepted code item end below 4 GiB. -/
theorem Verifier.codeBytes_lt {image : Memory} {headerOff : Nat} {v : Verifier}
    (hopen : openVerifier image headerOff true = .ok v) {off : Nat}
    (h : v.verifyCodeItem off = .ok ()) : (v.codeItem off).codeBytes < 2 ^ 32 := by
  have hsize := size_lt_of_openVerifier hopen
  unfold verifyCodeItem at h
  simp only [bind_eq_ok, read_eq_ok] at h
  obtain ⟨⟨⟩, -, code, ⟨-, rfl⟩, ⟨⟩, -, ⟨⟩, -, ⟨⟩, hinsns, -⟩ := h
  simp only [checkListSize, bind_eq_ok, failIf_eq_ok] at hinsns
  obtain ⟨⟨⟩, hstart, hcount⟩ := hinsns
  have hcode : (v.codeItem off).codeBytes =
      2 * (codeAt v.image (v.offsetToPtr off)).insnsSize := rfl
  omega

/-- The two control-flow builders on a code item the strict gate accepts, with
every branch and case target an instruction start and every switch at a payload
of its own kind: the snapshot is built, and at each reachable instruction both
give the same normal-flow successors exactly when they meet there. -/
theorem builders_agree_iff {image : Memory} {headerOff off : Nat} {v : Verifier}
    (hopen : openVerifier image headerOff true = .ok v)
    (haccept : v.verifyCodeItem off = .ok ()) (htargets : (v.codeItem off).Targeted) :
    ∃ blocks, (v.codeItem off).snapshotBlocks = .ok blocks ∧
      ∀ k, (v.codeItem off).Reachable blocks k →
        ((∀ s, s ∈ (v.codeItem off).cfgSuccs k ↔ s ∈ snapshotSuccs blocks (2 * k)) ↔
          (v.codeItem off).BuildersMeet k) := by
  have hstrict : v.checkInsns = true := (post_of_ok (wp_openVerifier _ _ _) hopen).2.2.2
  have hc := Verifier.decodes_of_verifyCodeItem hstrict haccept
  refine ⟨_, CodeItem.snapshotBlocks_eq hc, fun k hk => ?_⟩
  exact CodeItem.succs_agree_iff hc (Verifier.codeBytes_lt hopen haccept) htargets hk.mem

/-- A bare header with the code item of `if-eqz v0, +3; return-void-no-barrier;
return-void`. -/
def noBarrierImage : Memory :=
  List.replicate 32 0 ++ [136, 0, 0, 0] ++ List.replicate 76 0 ++
    [1, 0, 0, 0, 0, 0, 0, 0, 0, 0, 0, 0, 4, 0, 0, 0] ++
    [0x38, 0, 3, 0, 0x73, 0, 0x0E, 0]

set_option maxRecDepth 20000 in
def noBarrierVerifier : Verifier :=
  ⟨noBarrierImage, 0, headerAt noBarrierImage 0, ⟨0, 136, by decide⟩, true⟩

set_option maxRecDepth 1000 in
theorem noBarrier_open : openVerifier noBarrierImage 0 true = .ok noBarrierVerifier := by
  rfl

set_option maxRecDepth 20000 in
/-- The runs on the code item. -/
theorem noBarrier_runs :
    noBarrierVerifier.verifyCodeItem 112 = .ok () ∧
    (noBarrierVerifier.codeItem 112).starts = [0, 2, 3] ∧
    branchUnits (getFormatFromOpcode ((noBarrierVerifier.codeItem 112).opcode 0))
      ((noBarrierVerifier.codeItem 112).decodedAt 0) = some 3 ∧
    (∀ k ∈ [2, 3], (isUnconditionalBranch ((noBarrierVerifier.codeItem 112).opcode k) ||
      isConditionalBranch ((noBarrierVerifier.codeItem 112).opcode k)) = false) ∧
    (∀ k ∈ [0, 2, 3], isSwitch ((noBarrierVerifier.codeItem 112).opcode k) = false) ∧
    2 * 2 ∈ (noBarrierVerifier.codeItem 112).cfgSuccs 0 ∧
    6 ∈ snapshotSuccs (noBarrierVerifier.codeItem 112).blocks (2 * 2) ∧
    6 ∉ (noBarrierVerifier.codeItem 112).cfgSuccs 2 := by
  decide

theorem noBarrier_targeted : (noBarrierVerifier.codeItem 112).Targeted := by
  obtain ⟨_, hstarts, hthree, hnoBranch, hnoSwitch, _⟩ := noBarrier_runs
  constructor
  · intro k hk hbranch units hunits
    rw [hstarts] at hk
    rcases List.mem_cons.mp hk with rfl | hk
    · rw [hthree] at hunits
      rw [← Option.some.inj hunits]
      exact ⟨3, by rw [hstarts]; simp, rfl⟩
    · rw [hnoBranch k hk] at hbranch
      cases hbranch
  · intro k hk hswitch
    rw [hstarts] at hk
    rw [hnoSwitch k hk] at hswitch
    cases hswitch

/-- The agreement on the code item with the jump over a return without barrier. -/
theorem builders_agree_iff_noBarrier :
    ∃ blocks, (noBarrierVerifier.codeItem 112).snapshotBlocks = .ok blocks ∧
      ∀ k, (noBarrierVerifier.codeItem 112).Reachable blocks k →
        ((∀ s, s ∈ (noBarrierVerifier.codeItem 112).cfgSuccs k ↔
            s ∈ snapshotSuccs blocks (2 * k)) ↔
          (noBarrierVerifier.codeItem 112).BuildersMeet k) :=
  builders_agree_iff noBarrier_open noBarrier_runs.1 noBarrier_targeted

/-- Behind the return without barrier the snapshot goes on, and the argument
analysis does not. -/
theorem noBarrier_not_agree :
    ¬∀ (image : Memory) (headerOff off : Nat) (v : Verifier),
      openVerifier image headerOff true = .ok v → v.verifyCodeItem off = .ok () →
      (v.codeItem off).Targeted →
        ∃ blocks, (v.codeItem off).snapshotBlocks = .ok blocks ∧
          ∀ k, (v.codeItem off).Reachable blocks k →
            ∀ s, s ∈ (v.codeItem off).cfgSuccs k ↔ s ∈ snapshotSuccs blocks (2 * k) := by
  intro hagree
  obtain ⟨haccept, hstarts, _, _, _, hjump, hgoes, hstops⟩ := noBarrier_runs
  obtain ⟨blocks, hblocks, hall⟩ :=
    hagree noBarrierImage 0 112 noBarrierVerifier noBarrier_open haccept noBarrier_targeted
  have hc := Verifier.decodes_of_verifyCodeItem rfl haccept
  rw [CodeItem.snapshotBlocks_eq hc] at hblocks
  rw [← Except.ok.inj hblocks] at hall
  have hentry : (noBarrierVerifier.codeItem 112).Reachable
      (noBarrierVerifier.codeItem 112).blocks 0 := .entry (by rw [hstarts]; simp)
  have hreach : (noBarrierVerifier.codeItem 112).Reachable
      (noBarrierVerifier.codeItem 112).blocks 2 :=
    .cfg hentry (by rw [hstarts]; simp) hjump
  exact hstops ((hall 2 hreach 6).mpr hgoes)

end Dexllm
