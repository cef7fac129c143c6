import Dexllm.Flow.Handlers
import Dexllm.Lib.Leaders

/-!
`BuildCfg` of the argument analysis: blocks between leaders, each with the
blocks that have an edge into it. Of an accepted code item every instruction
keeps exactly its own successors.
-/

namespace Dexllm

open Bytes Leaders LinearSweep

/-- The `int8_t` with these 8 bits. -/
def toS1 (bits : Nat) : Int := if bits < 2 ^ 7 then bits else (bits : Int) - 2 ^ 8

/-- The `int16_t` with these 16 bits. -/
def toS2 (bits : Nat) : Int := if bits < 2 ^ 15 then bits else (bits : Int) - 2 ^ 16

/-- `Insn`: `off` and `next` are byte offsets. -/
structure Insn where
  off : Nat
  next : Nat
  falls : Bool
  invoke : Bool
  targets : List Nat
  deriving DecidableEq, Repr

structure Cfg where
  starts : List Nat := []
  preds : List (List Nat) := []
  isHandler : List Bool := []
  hasInvoke : List Bool := []
  deriving DecidableEq, Repr

/-- `EndOf`. -/
def Cfg.endOf (g : Cfg) (b codeBytes : Nat) : Nat := g.starts.getD (b + 1) codeBytes

namespace CodeItem

variable (c : CodeItem)

/-- `note`: a target inside the code. -/
def note (target : Int) : List Nat :=
  if target < 0 ∨ (c.codeBytes : Int) ≤ target then [] else [target.toNat]

/-- The case targets of the switch at unit `k`, when its payload is one of its
own kind. -/
def switchTargets (k : Nat) : List Nat :=
  let off : Int := 2 * k
  let pay := off + 2 * c.readInt (k + 1)
  if pay < 0 ∨ (c.codeBytes : Int) < pay + 4 then []
  else
    let t := pay.toNat / 2
    let size := c.unit (t + 1)
    let tbl : Option Nat :=
      if c.opcode k = 0x2B ∧ c.unit t = 0x0100 then some (t + 4)
      else if c.opcode k = 0x2C ∧ c.unit t = 0x0200 then some (t + 2 + size * 2)
      else none
    match tbl with
    | none => []
    | some tbl =>
      if c.insnsSize < tbl + size * 2 then []
      else (List.range size).flatMap fun i => c.note (off + 2 * c.readInt (tbl + i * 2))

/-- Whether control may go on at the next instruction, and the explicit
targets. -/
def flowOf (k : Nat) : Bool × List Nat :=
  let op := c.opcode k
  let off : Int := 2 * k
  if (0x0E ≤ op ∧ op ≤ 0x11) ∨ op = 0x73 ∨ op = 0x27 then (false, [])
  else if op = 0x28 then (false, c.note (off + 2 * toS1 (c.unit k >>> 8)))
  else if op = 0x29 then (false, c.note (off + 2 * toS2 (c.unit (k + 1))))
  else if op = 0x2A then (false, c.note (off + 2 * c.readInt (k + 1)))
  else if 0x32 ≤ op ∧ op ≤ 0x3D then
    (true, c.note (off + 2 * toS2 (c.unit (k + c.getBytecodeWidth k - 1))))
  else if op = 0x2B ∨ op = 0x2C then (true, c.switchTargets k)
  else (true, [])

/-- The body of the decode loop at unit `k`. -/
def insnAt (k : Nat) : Insn :=
  let op := c.opcode k
  { off := 2 * k
    next := 2 * k + c.getBytecodeWidth k * 2
    falls := (c.flowOf k).1
    invoke := (0x6E ≤ op && op ≤ 0x72) || (0x74 ≤ op && op ≤ 0x78) || op == 0xFA || op == 0xFB
    targets := (c.flowOf k).2 }

/-- The decode loop of `BuildCfg` from unit `k`. -/
def decodeFrom : (fuel k : Nat) → List Insn
  | 0, _ => []
  | fuel + 1, k =>
    if k < c.insnsSize then
      if c.getBytecodeWidth k = 0 then []
      else c.insnAt k :: decodeFrom fuel (k + c.getBytecodeWidth k)
    else []

/-- The decoded instructions, before the targets are filtered. -/
def cfgInsns : List Insn := c.decodeFrom c.insnsSize 0

def insnOffs : List Nat := c.cfgInsns.map (·.off)

/-- Drop the targets that are no instruction start. -/
def keepTargets (insn : Insn) : Insn :=
  { insn with targets := insn.targets.filter (· ∈ c.insnOffs) }

/-- The leaders an instruction contributes. -/
def leadersOf (insn : Insn) : List Nat :=
  insn.targets ++
    if (insn.falls = false ∨ insn.targets ≠ []) ∧ insn.next ∈ c.insnOffs then [insn.next] else []

/-- The leaders: the first instruction, those of every instruction, and the
handlers at an instruction. -/
def cfgLeaders : List Nat :=
  (c.insnOffs.take 1) ++ (c.cfgInsns.flatMap fun insn => c.leadersOf (c.keepTargets insn)) ++
    c.cfgHandlers.filter (· ∈ c.insnOffs)

/-- The edges out of the block of one instruction. -/
def edgesOf (starts : List Nat) (insn : Insn) : List (Nat × Nat) :=
  match segmentOf starts insn.off with
  | none => []
  | some b =>
    (insn.targets.filterMap fun t => (segmentOf starts t).map fun d => (b, d)) ++
      if insn.falls = true ∧ insn.next ∈ c.insnOffs then
        match segmentOf starts insn.next with
        | none => []
        | some d => if d = b then [] else [(b, d)]
      else []

/-- `BuildCfg`. -/
def buildCfg : Cfg :=
  let insns := c.cfgInsns.map c.keepTargets
  let starts := ascending c.cfgLeaders
  let edges := insns.flatMap (c.edgesOf starts)
  { starts := starts
    preds := (List.range starts.length).map fun d =>
      ascending ((edges.filter fun e => e.2 = d).map (·.1))
    isHandler := starts.map fun s => decide (s ∈ c.cfgHandlers)
    hasInvoke := (List.range starts.length).map fun b =>
      insns.any fun insn => insn.invoke && segmentOf starts insn.off == some b }

/-- The normal-flow successors of the instruction at unit `k` that `BuildCfg`
gives: the next instruction inside its block, the blocks its block precedes at
the end of it. -/
def cfgSuccs (k : Nat) : List Nat :=
  let g := c.buildCfg
  match segmentOf g.starts (2 * k) with
  | none => []
  | some b =>
    let next := (c.insnAt k).next
    if next < g.endOf b c.codeBytes then [next]
    else (List.range g.starts.length).filterMap fun d =>
      if b ∈ g.preds.getD d [] then g.starts[d]? else none

variable {c}

theorem decodeFrom_eq (hc : c.Decodes) {fuel k : Nat}
    (hk : ∀ j ∈ sweepFrom c.getBytecodeWidth c.insnsSize fuel k, j ∈ c.boundaries) :
    c.decodeFrom fuel k = (sweepFrom c.getBytecodeWidth c.insnsSize fuel k).map c.insnAt := by
  induction fuel generalizing k with
  | zero => rfl
  | succ fuel ih =>
    unfold decodeFrom sweepFrom
    unfold sweepFrom at hk
    split
    · rename_i hlt
      rw [if_pos hlt] at hk
      have hpos := (hc.width k (hk k List.mem_cons_self)).1
      rw [if_neg (by omega), List.map_cons, ih fun j hj => hk j (List.mem_cons_of_mem _ hj)]
    · rfl

theorem cfgInsns_eq (hc : c.Decodes) : c.cfgInsns = c.boundaries.map c.insnAt :=
  decodeFrom_eq hc fun _ h => h

theorem mem_insnOffs (hc : c.Decodes) {off : Nat} :
    off ∈ c.insnOffs ↔ ∃ k ∈ c.boundaries, off = 2 * k := by
  simp only [insnOffs, cfgInsns_eq hc, List.map_map, List.mem_map, Function.comp, insnAt]
  exact exists_congr fun k => and_congr_right fun _ => eq_comm

theorem mem_leadersOf {insn : Insn} {s : Nat} : s ∈ c.leadersOf insn ↔ s ∈ insn.targets ∨
    ((insn.falls = false ∨ insn.targets ≠ []) ∧ insn.next ∈ c.insnOffs ∧ s = insn.next) := by
  simp [leadersOf, and_assoc]

/-- The targets `BuildCfg` keeps for the instruction at unit `k`. -/
def keptTargets (c : CodeItem) (k : Nat) : List Nat := (c.keepTargets (c.insnAt k)).targets

theorem mem_cfgLeaders (hc : c.Decodes) {off : Nat} (h : off ∈ c.cfgLeaders) :
    ∃ k ∈ c.boundaries, off = 2 * k := by
  apply (mem_insnOffs hc).mp
  simp only [cfgLeaders, List.mem_append, List.mem_flatMap, List.mem_filter,
    decide_eq_true_eq] at h
  rcases h with (hfirst | ⟨insn, _, hinsn⟩) | ⟨_, hoff⟩
  · exact List.mem_of_mem_take hfirst
  · rcases mem_leadersOf.mp hinsn with htarget | ⟨-, hnext, rfl⟩
    · exact of_decide_eq_true (List.mem_filter.mp htarget).2
    · exact hnext
  · exact hoff

theorem target_mem_cfgLeaders (hc : c.Decodes) {k t : Nat} (hk : k ∈ c.boundaries)
    (ht : t ∈ c.keptTargets k) : t ∈ c.cfgLeaders := by
  have hinsn : c.insnAt k ∈ c.cfgInsns := by
    rw [cfgInsns_eq hc]
    exact List.mem_map_of_mem hk
  apply List.mem_append_left
  apply List.mem_append_right
  exact List.mem_flatMap.mpr ⟨c.insnAt k, hinsn, mem_leadersOf.mpr (Or.inl ht)⟩

theorem next_mem_cfgLeaders (hc : c.Decodes) {k : Nat} (hk : k ∈ c.boundaries)
    (hend : (c.insnAt k).falls = false ∨ c.keptTargets k ≠ [])
    (hnext : (c.insnAt k).next ∈ c.insnOffs) : (c.insnAt k).next ∈ c.cfgLeaders := by
  have hinsn : c.insnAt k ∈ c.cfgInsns := by
    rw [cfgInsns_eq hc]
    exact List.mem_map_of_mem hk
  apply List.mem_append_left
  apply List.mem_append_right
  exact List.mem_flatMap.mpr
    ⟨c.insnAt k, hinsn, mem_leadersOf.mpr (Or.inr ⟨hend, hnext, rfl⟩)⟩

theorem starts_pairwise (c : CodeItem) : c.buildCfg.starts.Pairwise (· < ·) :=
  pairwise_ascending _

theorem mem_cfgStarts {s : Nat} : s ∈ c.buildCfg.starts ↔ s ∈ c.cfgLeaders := mem_ascending

/-- The block of an instruction: no leader lies behind its start up to the
instruction. -/
theorem exists_block (hc : c.Decodes) {k : Nat} (hk : k ∈ c.boundaries) :
    ∃ b, segmentOf c.buildCfg.starts (2 * k) = some b := by
  obtain ⟨first, rest, hfirst⟩ : ∃ first rest, c.boundaries = first :: rest :=
    List.exists_cons_of_ne_nil (List.ne_nil_of_mem hk)
  have hle : first ≤ k := by
    have hpair := hc.boundaries_pairwise
    rw [hfirst] at hk hpair
    exact head_le hpair hk
  apply exists_segment c.starts_pairwise _ (Nat.mul_le_mul_left 2 hle)
  apply mem_cfgStarts.mpr
  apply List.mem_append_left
  apply List.mem_append_left
  simp [insnOffs, cfgInsns_eq hc, hfirst, insnAt]

section Blocks

variable {k b : Nat} (hb : segmentOf c.buildCfg.starts (2 * k) = some b)
include hb

theorem endOf_cases : (∃ h : b + 1 < c.buildCfg.starts.length,
      c.buildCfg.endOf b c.codeBytes = c.buildCfg.starts[b + 1]) ∨
    (c.buildCfg.starts.length = b + 1 ∧ c.buildCfg.endOf b c.codeBytes = c.codeBytes) := by
  obtain ⟨hlt, -, -⟩ := (segmentOf_eq_some c.starts_pairwise).mp hb
  unfold Cfg.endOf
  by_cases hnext : b + 1 < c.buildCfg.starts.length
  · exact Or.inl ⟨hnext, List.getD_eq_getElem _ _ hnext⟩
  · exact Or.inr ⟨by omega, List.getD_eq_default _ _ (by omega)⟩

/-- A leader behind the start of a block is at or behind its end. -/
theorem endOf_le {s : Nat} (hs : s ∈ c.cfgLeaders) (hlow : 2 * k < s) :
    c.buildCfg.endOf b c.codeBytes ≤ s := by
  obtain ⟨hlt, hle, -⟩ := (segmentOf_eq_some c.starts_pairwise).mp hb
  have hmem : s ∈ c.buildCfg.starts := mem_cfgStarts.mpr hs
  obtain ⟨hnext, hend⟩ := not_mem_between c.starts_pairwise hlt hmem (by omega)
  rcases endOf_cases hb with ⟨h, heq⟩ | ⟨hlen, -⟩
  · rw [heq]
    exact hend
  · omega

theorem lt_endOf (hk : k ∈ c.boundaries) : 2 * k < c.buildCfg.endOf b c.codeBytes := by
  obtain ⟨hlt, hle, hup⟩ := (segmentOf_eq_some c.starts_pairwise).mp hb
  rcases endOf_cases hb with ⟨h, heq⟩ | ⟨hlen, heq⟩
  · rw [heq]
    exact hup h
  · have := boundary_lt hk
    rw [heq, codeBytes]
    omega

/-- A position of the block before its end is in the block. -/
theorem segment_of_lt {j : Nat} (hkj : k ≤ j)
    (hend : 2 * j < c.buildCfg.endOf b c.codeBytes) :
    segmentOf c.buildCfg.starts (2 * j) = some b := by
  obtain ⟨hlt, hle, -⟩ := (segmentOf_eq_some c.starts_pairwise).mp hb
  apply (segmentOf_eq_some c.starts_pairwise).mpr
  refine ⟨hlt, by omega, fun h => ?_⟩
  rcases endOf_cases hb with ⟨_, heq⟩ | ⟨hlen, -⟩
  · rw [← heq]
    exact hend
  · omega

/-- An instruction before another one of its block only falls through to the
next. -/
theorem plain_of_inside (hc : c.Decodes) (hk : k ∈ c.boundaries)
    (hinside : (c.insnAt k).next < c.buildCfg.endOf b c.codeBytes) :
    (c.insnAt k).falls = true ∧ c.keptTargets k = [] ∧
      k + c.getBytecodeWidth k ∈ c.boundaries := by
  have hroom : k + c.getBytecodeWidth k < c.insnsSize := by
    have hle : c.buildCfg.endOf b c.codeBytes ≤ c.codeBytes := by
      rcases endOf_cases hb with ⟨h, heq⟩ | ⟨-, heq⟩
      · obtain ⟨j, hj, hstart⟩ := mem_cfgLeaders hc (mem_cfgStarts.mp (List.getElem_mem h))
        have := boundary_lt hj
        rw [heq, codeBytes]
        omega
      · omega
    simp only [insnAt, codeBytes] at hinside hle
    omega
  have hmem := hc.next_mem hk hroom
  have hoff : (c.insnAt k).next ∈ c.insnOffs :=
    (mem_insnOffs hc).mpr ⟨_, hmem, by simp only [insnAt]; omega⟩
  have hnot (hend : (c.insnAt k).falls = false ∨ c.keptTargets k ≠ []) : False := by
    have hleader := next_mem_cfgLeaders hc hk hend hoff
    have hpos := (hc.width k hk).1
    have := endOf_le hb hleader (by simp only [insnAt]; omega)
    omega
  refine ⟨?_, ?_, hmem⟩
  · by_contra hfalls
    exact hnot (Or.inl (by simpa using hfalls))
  · by_contra htargets
    exact hnot (Or.inr htargets)

/-- The instruction behind the last one of a block starts the next block. -/
theorem next_leader (hc : c.Decodes) (hk : k ∈ c.boundaries)
    (hend : c.buildCfg.endOf b c.codeBytes ≤ (c.insnAt k).next)
    (hroom : k + c.getBytecodeWidth k < c.insnsSize) : (c.insnAt k).next ∈ c.cfgLeaders := by
  obtain ⟨hlt, hle, hup⟩ := (segmentOf_eq_some c.starts_pairwise).mp hb
  rcases endOf_cases hb with ⟨h, heq⟩ | ⟨-, heq⟩
  · have hleader := mem_cfgStarts.mp (List.getElem_mem h)
    obtain ⟨j, hj, hstart⟩ := mem_cfgLeaders hc hleader
    have hkj := hup h
    have hapart := hc.apart hk hj (by omega)
    have hnext : (c.insnAt k).next = c.buildCfg.starts[b + 1] := by
      simp only [insnAt] at hend ⊢
      omega
    rw [hnext]
    exact hleader
  · rw [heq] at hend
    simp only [insnAt, codeBytes] at hend
    omega

end Blocks

theorem mem_edgesOf {starts : List Nat} {insn : Insn} {b d : Nat} :
    (b, d) ∈ c.edgesOf starts insn ↔ segmentOf starts insn.off = some b ∧
      ((∃ t ∈ insn.targets, segmentOf starts t = some d) ∨
        (insn.falls = true ∧ insn.next ∈ c.insnOffs ∧ segmentOf starts insn.next = some d ∧
          d ≠ b)) := by
  unfold edgesOf
  cases hoff : segmentOf starts insn.off with
  | none => simp
  | some e =>
    have hfall : (b, d) ∈ (if insn.falls = true ∧ insn.next ∈ c.insnOffs then
        match segmentOf starts insn.next with
        | none => []
        | some d => if d = e then [] else [(e, d)]
        else []) ↔ e = b ∧ insn.falls = true ∧ insn.next ∈ c.insnOffs ∧
          segmentOf starts insn.next = some d ∧ d ≠ b := by
      by_cases hcond : insn.falls = true ∧ insn.next ∈ c.insnOffs
      · cases hnext : segmentOf starts insn.next with
        | none => simp
        | some f =>
          by_cases hf : f = e
          · subst hf
            simp only [hcond, and_self, if_true, List.not_mem_nil, Option.some.injEq, true_and,
              false_iff]
            rintro ⟨rfl, rfl, hne⟩
            exact hne rfl
          · simp only [hcond, and_self, if_true, if_neg hf, List.mem_singleton, Prod.mk.injEq,
              Option.some.injEq, true_and]
            constructor
            · rintro ⟨rfl, rfl⟩
              exact ⟨rfl, rfl, hf⟩
            · rintro ⟨rfl, rfl, -⟩
              exact ⟨rfl, rfl⟩
      · rw [if_neg hcond]
        constructor
        · intro h
          simp at h
        · rintro ⟨-, hfalls, hin, -⟩
          exact absurd ⟨hfalls, hin⟩ hcond
    simp only [List.mem_append, hfall, List.mem_filterMap, Option.map_eq_some_iff,
      Prod.mk.injEq, Option.some.injEq]
    constructor
    · rintro (⟨t, ht, f, hf, rfl, rfl⟩ | ⟨rfl, h⟩)
      · exact ⟨rfl, Or.inl ⟨t, ht, hf⟩⟩
      · exact ⟨rfl, Or.inr h⟩
    · rintro ⟨rfl, ⟨t, ht, hf⟩ | h⟩
      · exact Or.inl ⟨t, ht, d, hf, rfl, rfl⟩
      · exact Or.inr ⟨rfl, h⟩

/-- An edge out of a block comes from its last instruction. -/
theorem last_of_mem_edgesOf (hc : c.Decodes) {k b d j : Nat} (hk : k ∈ c.boundaries)
    (hb : segmentOf c.buildCfg.starts (2 * k) = some b) (hj : j ∈ c.boundaries)
    (hend : c.buildCfg.endOf b c.codeBytes ≤ (c.insnAt k).next)
    (hedge : (b, d) ∈ c.edgesOf c.buildCfg.starts (c.keepTargets (c.insnAt j))) : j = k := by
  obtain ⟨hjb, hedge⟩ := mem_edgesOf.mp hedge
  rcases Nat.lt_trichotomy j k with hlt | heq | hgt
  · have hapart := hc.apart hj hk hlt
    have hkend := lt_endOf hb hk
    obtain ⟨hfalls, htargets, hnext⟩ := plain_of_inside hjb hc hj
      (by simp only [insnAt]; omega)
    have hnextb := segment_of_lt hjb (by omega) (show 2 * (j + c.getBytecodeWidth j) < _ by omega)
    have hnextoff : (c.keepTargets (c.insnAt j)).next = 2 * (j + c.getBytecodeWidth j) := by
      simp only [keepTargets, insnAt]
      omega
    rcases hedge with ⟨t, ht, -⟩ | ⟨-, -, hd, hne⟩
    · have hmem : t ∈ c.keptTargets j := ht
      rw [htargets] at hmem
      simp at hmem
    · rw [hnextoff, hnextb] at hd
      exact absurd (Option.some.inj hd).symm hne
  · exact heq
  · have hapart := hc.apart hk hj hgt
    have := lt_endOf hjb hj
    simp only [insnAt] at hend
    omega

/-- The successors `BuildCfg` gives an instruction are its kept targets and the
instruction it falls through to. -/
theorem mem_cfgSuccs (hc : c.Decodes) {k s : Nat} (hk : k ∈ c.boundaries) :
    s ∈ c.cfgSuccs k ↔ s ∈ c.keptTargets k ∨
      ((c.insnAt k).falls = true ∧ k + c.getBytecodeWidth k < c.insnsSize ∧
        s = 2 * (k + c.getBytecodeWidth k)) := by
  obtain ⟨b, hb⟩ := exists_block hc hk
  have hnextoff : (c.insnAt k).next = 2 * (k + c.getBytecodeWidth k) := by
    simp only [insnAt]
    omega
  unfold cfgSuccs
  simp only [hb]
  split
  · rename_i hinside
    obtain ⟨hfalls, htargets, hmem⟩ := plain_of_inside hb hc hk hinside
    have := boundary_lt hmem
    rw [htargets, hnextoff, hfalls]
    simp [this]
  · rename_i houtside
    have hend : c.buildCfg.endOf b c.codeBytes ≤ (c.insnAt k).next := by omega
    have hpred (d : Nat) (hd : d < c.buildCfg.starts.length) :
        b ∈ c.buildCfg.preds.getD d [] ↔
          (b, d) ∈ c.edgesOf c.buildCfg.starts (c.keepTargets (c.insnAt k)) := by
      have hpreds : c.buildCfg.preds.getD d [] = ascending
          ((((c.cfgInsns.map c.keepTargets).flatMap (c.edgesOf c.buildCfg.starts)).filter
            fun e => e.2 = d).map (·.1)) := by
        rw [List.getD_eq_getElem _ _ (by simpa [buildCfg] using hd)]
        simp [buildCfg]
      rw [hpreds]
      simp only [mem_ascending, List.mem_map, List.mem_filter, List.mem_flatMap,
        decide_eq_true_eq, cfgInsns_eq hc]
      constructor
      · rintro ⟨⟨b', d'⟩, ⟨⟨_, ⟨_, ⟨j, hj, rfl⟩, rfl⟩, hedge⟩, rfl⟩, rfl⟩
        have hjk := last_of_mem_edgesOf hc hk hb hj hend hedge
        rwa [hjk] at hedge
      · intro hedge
        exact ⟨(b, d), ⟨⟨_, ⟨_, ⟨k, hk, rfl⟩, rfl⟩, hedge⟩, rfl⟩, rfl⟩
    have hstart (d : Nat) (hd : d < c.buildCfg.starts.length) (t : Nat)
        (ht : t ∈ c.cfgLeaders) : segmentOf c.buildCfg.starts t = some d ↔
          c.buildCfg.starts[d] = t := by
      obtain ⟨i, hi, rfl⟩ := List.getElem_of_mem (mem_cfgStarts.mpr ht)
      rw [segmentOf_getElem c.starts_pairwise hi, Option.some.injEq]
      constructor
      · rintro rfl
        rfl
      · exact fun heq => (getElem_inj c.starts_pairwise hd hi heq).symm
    have hsome (t : Nat) (ht : t ∈ c.cfgLeaders) :
        ∃ d, ∃ hd : d < c.buildCfg.starts.length, c.buildCfg.starts[d] = t :=
      List.getElem_of_mem (mem_cfgStarts.mpr ht)
    simp only [List.mem_filterMap, List.mem_range]
    constructor
    · rintro ⟨d, hd, hs⟩
      split at hs
      · rename_i hin
        rw [List.getElem?_eq_getElem hd, Option.some.injEq] at hs
        obtain ⟨-, hedge⟩ := mem_edgesOf.mp ((hpred d hd).mp hin)
        rcases hedge with ⟨t, ht, hseg⟩ | ⟨hfalls, hin, hseg, hne⟩
        · rw [(hstart d hd t (target_mem_cfgLeaders hc hk ht)).mp hseg] at hs
          exact Or.inl (hs ▸ ht)
        · obtain ⟨j, hj, hoff⟩ := (mem_insnOffs hc).mp hin
          have hroom : k + c.getBytecodeWidth k < c.insnsSize := by
            have := boundary_lt hj
            have hnext : (c.insnAt k).next = 2 * j := hoff
            omega
          have hleader := next_leader hb hc hk hend hroom
          refine Or.inr ⟨hfalls, hroom, ?_⟩
          rw [← hs, (hstart d hd _ hleader).mp hseg, hnextoff]
      · simp at hs
    · intro hs
      have hpick (hleader : s ∈ c.cfgLeaders) (hedge : ∀ d, (hd : d < c.buildCfg.starts.length) →
          c.buildCfg.starts[d] = s →
            (b, d) ∈ c.edgesOf c.buildCfg.starts (c.keepTargets (c.insnAt k))) :
          ∃ d < c.buildCfg.starts.length,
            (if b ∈ c.buildCfg.preds.getD d [] then c.buildCfg.starts[d]? else none) = some s := by
        obtain ⟨d, hd, hds⟩ := hsome s hleader
        refine ⟨d, hd, ?_⟩
        rw [if_pos ((hpred d hd).mpr (hedge d hd hds)), List.getElem?_eq_getElem hd, hds]
      rcases hs with ht | ⟨hfalls, hroom, rfl⟩
      · have hleader := target_mem_cfgLeaders hc hk ht
        apply hpick hleader
        intro d hd hds
        exact mem_edgesOf.mpr ⟨hb, Or.inl ⟨s, ht, (hstart d hd s hleader).mpr hds⟩⟩
      · rw [← hnextoff] at hpick ⊢
        have hleader := next_leader hb hc hk hend hroom
        apply hpick hleader
        intro d hd hds
        have hin : (c.insnAt k).next ∈ c.insnOffs :=
          (mem_insnOffs hc).mpr ⟨_, hc.next_mem hk hroom, hnextoff⟩
        refine mem_edgesOf.mpr ⟨hb, Or.inr ⟨hfalls, hin, (hstart d hd _ hleader).mpr hds, ?_⟩⟩
        rintro rfl
        obtain ⟨_, hbelow, -⟩ := (segmentOf_eq_some c.starts_pairwise).mp hb
        have := (hc.width k hk).1
        rw [hds, hnextoff] at hbelow
        omega

end CodeItem

end Dexllm
