import Dexllm.Flow.BuildersAgree

/-!
The block graph against the flow of the instructions. `Goes` says where control
goes behind an instruction, with the cases of a switch at their true positions;
an edge of the blocks should be exactly such a step of the last instruction.
-/

namespace Dexllm

open Guarded Bytes Leaders

namespace CodeItem

variable {c : CodeItem}

/-- The kind of the edge to the next instruction, for an instruction that has
one. -/
def onwardKind (c : CodeItem) (k : Nat) : Option ChildKind :=
  if isBlockTerminator (c.opcode k) then none
  else if isConditionalBranch (c.opcode k) then some .branchFalse
  else if isSwitch (c.opcode k) then some .switchDefault
  else some .fallthrough

/-- The unit the switch at `k` points at. -/
def payloadUnit (c : CodeItem) (k : Nat) : Nat := (k + c.branchDistance k).toNat

/-- Case `i` of the payload at `p` for the switch at `k`: the key and the distance in
units. -/
def declaredCase (c : CodeItem) (k p i : Nat) : Int × Int :=
  (if c.opcode k = 0x2B then c.readInt (p + 2) + i else c.readInt (p + 2 + 2 * i),
    c.readInt (c.caseTable k p + 2 * i))

/-- The cases the payload of the switch at `k` declares. -/
def declaredCases (c : CodeItem) (k : Nat) : List (Int × Int) :=
  let p := c.payloadUnit k
  (List.range (c.unit (p + 1))).map (c.declaredCase k p)

/-- `Goes c k kind pos`: behind the instruction at unit `k` control can go to the
byte position `pos`. A return without barrier (0x73) goes nowhere. -/
inductive Goes (c : CodeItem) (k : Nat) : ChildKind → Int → Prop where
  | onward {kind : ChildKind} {r : Nat} (hkind : c.onwardKind k = some kind)
      (hreturn : c.opcode k ≠ 0x73) (hnext : c.IsNext k r) : Goes c k kind (2 * r)
  | branch (hop : (isUnconditionalBranch (c.opcode k) || isConditionalBranch (c.opcode k)) = true) :
      Goes c k .branch (2 * (k + c.branchDistance k))
  | case {key units : Int} (hop : isSwitch (c.opcode k) = true)
      (hcase : (key, units) ∈ c.declaredCases k) : Goes c k (.switchCase key) (2 * k + 2 * units)

/-- A position is the first instruction of a block, a case position its start. -/
def Enters (blk : RawBlock) : ChildKind → Int → Prop
  | .switchCase _, pos => (blk.startByte : Int) = pos
  | _, pos => ∃ first ∈ blk.ins.head?, (first.byteOff : Int) = pos

/-- An edge from one block to another is there exactly when the last instruction of
the first can go to the second. -/
def EdgesExact (c : CodeItem) (blocks : List RawBlock) : Prop :=
  ∀ (a b : Nat) (blkA blkB : RawBlock) (kind : ChildKind),
    blocks[a]? = some blkA → blocks[b]? = some blkB →
      (⟨kind, b⟩ ∈ blkA.childs ↔
        ∃ k pos, blkA.ins.getLast? = some (c.rawAt k) ∧ k ∈ c.starts ∧ c.Goes k kind pos ∧
          Enters blkB kind pos)

/-- Inside a block control goes from each instruction to the next one only. -/
def InteriorPlain (c : CodeItem) (blocks : List RawBlock) : Prop :=
  ∀ blk ∈ blocks, ∀ pre post k r, blk.ins = pre ++ c.rawAt k :: c.rawAt r :: post →
    ∀ kind pos, c.Goes k kind pos → kind = .fallthrough ∧ pos = 2 * r

/-- Every branch target, try start and handler address is an instruction start, and
every switch points at a payload of its own kind inside the instructions. -/
structure TargetsPlaced (c : CodeItem) : Prop where
  branch : ∀ k ∈ c.starts,
    (isUnconditionalBranch (c.opcode k) || isConditionalBranch (c.opcode k)) = true →
      c.StartsAt (k + c.branchDistance k)
  tryStart : ∀ item ∈ c.parseExceptions, ∃ t ∈ c.starts, item.startByte = 2 * t
  handler : ∀ item ∈ c.parseExceptions, ∀ s ∈ item.handlers, ∃ t ∈ c.starts, s = 2 * t
  payload : ∀ k ∈ c.starts, isSwitch (c.opcode k) = true →
    (c.payloadUnit k : Int) = k + c.branchDistance k ∧
      c.unit (c.payloadUnit k) = (if c.opcode k = 0x2B then kPackedSwitchSignature
        else kSparseSwitchSignature) ∧
      c.payloadUnit k + c.getBytecodeWidth (c.payloadUnit k) ≤ c.insnsSize

/-- What the exactness of the edges rests on. -/
structure FlowAligned (c : CodeItem) : Prop where
  /-- A block start has an instruction before the next one, except for the last
  block start behind an end of flow. -/
  filled : ∀ s, c.BlockStart s →
    (∃ t ∈ c.starts, s ≤ 2 * t ∧ ∀ s', c.BlockStart s' → s < s' → 2 * t < s') ∨
      ((∀ s', c.BlockStart s' → s' ≤ s) ∧
        ∀ k ∈ c.starts, (∀ j ∈ c.starts, j ≤ k) → isBlockTerminator (c.opcode k) = true)
  /-- No block starts between a return without barrier and the next instruction. -/
  returns : ∀ k ∈ c.starts, c.opcode k = 0x73 → ∀ s, c.BlockStart s → 2 * k < s →
    ∃ r, c.IsNext k r ∧ 2 * r < s
  /-- A case position outside the instructions is at no block start, not even
  modulo `2 ^ 32`, unless the same key also leads to it. -/
  cases : ∀ k ∈ c.starts, isSwitch (c.opcode k) = true → ∀ key units,
    (key, units) ∈ c.declaredCases k → c.BlockStart (castU4 (2 * k + units * 2)) →
      ∃ units', (key, units') ∈ c.declaredCases k ∧
        (castU4 (2 * k + units * 2) : Int) = 2 * k + 2 * units'

section Payload

/-- A payload that lies inside the instructions is read case for case. -/
theorem cases_eq_declared (ht : c.TargetsPlaced) {k : Nat} (hk : k ∈ c.starts)
    (hop : isSwitch (c.opcode k) = true) :
    (c.parsePayloadAt (c.payloadUnit k)).cases = c.declaredCases k := by
  obtain ⟨-, hkind, hroom⟩ := ht.payload k hk hop
  rw [payload_width hkind] at hroom
  unfold declaredCases
  generalize c.payloadUnit k = p at hkind hroom ⊢
  unfold parsePayloadAt
  dsimp only
  rw [hkind, if_neg (by split at hroom <;> omega)]
  split at hroom
  · rename_i hpacked
    have hn : min (c.unit (p + 1)) ((c.insnsSize - (p + 4)) / 2) = c.unit (p + 1) := by omega
    have hsig : kPackedSwitchSignature = 0x0100 := rfl
    simp only [if_pos hpacked]
    rw [if_pos hsig, if_neg (by omega), hn]
    simp only [PayloadVariant.cases, List.zipIdx_map, List.map_map]
    apply List.ext_getElem
    · simp
    · intro i hi hi'
      simp [declaredCase, caseTable, hpacked]
  · rename_i hsparse
    have hn : min (c.unit (p + 1)) ((c.insnsSize - (p + 2)) / 2 / 2) = c.unit (p + 1) := by omega
    have hsig : kSparseSwitchSignature = 0x0200 := rfl
    have hother : kSparseSwitchSignature ≠ 0x0100 := by decide
    simp only [if_neg hsparse]
    rw [if_neg hother, if_pos hsig, hn]
    by_cases hempty : c.insnsSize < p + 4
    · have hzero : c.unit (p + 1) = 0 := by omega
      rw [if_pos hempty, hzero]
      rfl
    · rw [if_neg hempty]
      simp only [PayloadVariant.cases]
      rw [List.zip_map']
      apply List.map_congr_left
      intro i _
      simp [declaredCase, caseTable, hsparse]

/-- Where the builder looks for the payload. -/
theorem payload_rawAt (hc : c.Decodes) (hsmall : c.codeBytes < 2 ^ 32) (ht : c.TargetsPlaced)
    {k : Nat} (hk : k ∈ c.starts) (hop : isSwitch (c.opcode k) = true) :
    ∃ payload, (c.rawAt k).payload = some payload ∧ payload / 2 = c.payloadUnit k := by
  obtain ⟨hunit, -, hroom⟩ := ht.payload k hk hop
  have hclass : isBranchOpcode (c.opcode k) = true := by
    rw [isBranchOpcode, hop]
    simp
  refine ⟨_, rawAt_switch hop, ?_⟩
  rw [(branch_distance hc hk hclass).1,
    castU4_of_lt (n := 2 * c.payloadUnit k) (by omega) (by unfold codeBytes at hsmall; omega)]
  omega

end Payload

theorem onwardKind_cases {kind : ChildKind} (h : c.onwardKind k = some kind) :
    kind = .fallthrough ∨ kind = .branchFalse ∨ kind = .switchDefault := by
  unfold onwardKind at h
  split at h
  · cases h
  · split at h
    · exact Or.inr (Or.inl (Option.some.inj h).symm)
    · split at h
      · exact Or.inr (Or.inr (Option.some.inj h).symm)
      · exact Or.inl (Option.some.inj h).symm

section Edges

theorem plain_of_stop {op : Nat} (h : (isReturn op || isThrow op) = true) :
    isUnconditionalBranch op = false ∧ isConditionalBranch op = false ∧ isSwitch op = false := by
  simp only [isReturn, isThrow, isUnconditionalBranch, isConditionalBranch, isSwitch,
    Bool.or_eq_true, Bool.and_eq_true, decide_eq_true_eq, beq_iff_eq, Bool.and_eq_false_iff,
    Bool.or_eq_false_iff, decide_eq_false_iff_not, beq_eq_false_iff_ne] at h ⊢
  omega

theorem not_switch_of_branch {op : Nat}
    (h : (isUnconditionalBranch op || isConditionalBranch op) = true) : isSwitch op = false := by
  simp only [isUnconditionalBranch, isConditionalBranch, isSwitch, Bool.or_eq_true,
    Bool.and_eq_true, decide_eq_true_eq, Bool.or_eq_false_iff, beq_eq_false_iff_ne] at h ⊢
  omega

theorem branch_of_target {k : Nat} (hbranch : (c.rawAt k).branchTarget ≠ uint32Max) :
    (isUnconditionalBranch (c.opcode k) || isConditionalBranch (c.opcode k)) = true := by
  by_contra hop
  apply hbranch
  unfold rawAt rawIns isBranchOpcode
  rw [Bool.eq_false_of_not_eq_true hop, Bool.false_or]
  split
  · rename_i hother
    rfl
  · rfl

theorem two_mul_lt_codeBytes {k : Nat} (hk : k ∈ c.starts) : 2 * k < c.codeBytes := by
  have := boundary_lt (mem_starts.mp hk).1
  rw [codeBytes]
  omega

variable (hc : c.Decodes) (hsmall : c.codeBytes < 2 ^ 32) (ht : c.TargetsPlaced)
include hc hsmall ht

/-- A branch leads to an instruction that starts a block. -/
theorem target_placed {k : Nat} (hk : k ∈ c.starts)
    (hop : (isUnconditionalBranch (c.opcode k) || isConditionalBranch (c.opcode k)) = true) :
    ∃ t ∈ c.starts, (t : Int) = k + c.branchDistance k ∧ (c.rawAt k).branchTarget = 2 * t ∧
      2 * t ∈ c.snapLeaders := by
  obtain ⟨t, hmem, heq⟩ := ht.branch k hk hop
  have hlt := two_mul_lt_codeBytes hmem
  have hclass : isBranchOpcode (c.opcode k) = true := by
    rw [isBranchOpcode, hop]
    rfl
  have htarget : (c.rawAt k).branchTarget = 2 * t := by
    rw [rawAt_branch hop, (branch_distance hc hk hclass).1,
      castU4_of_lt (n := 2 * t) (by omega) (by omega)]
  refine ⟨t, hmem, heq, htarget, ?_⟩
  apply mem_snapLeaders_of_start hc hk
  refine Or.inr (Or.inl ⟨?_, htarget.symm⟩)
  rw [htarget, uint32Max]
  omega

theorem leader_lt {l : Nat} (hl : l ∈ c.snapLeaders) : l < c.codeBytes := by
  cases (mem_snapLeaders hc).mp hl with
  | entry hk _ => exact two_mul_lt_codeBytes hk
  | behind _ _ hnext => exact two_mul_lt_codeBytes hnext.mem
  | target hk hbranch =>
    obtain ⟨t, hmem, -, htarget, -⟩ := target_placed hc hsmall ht hk (branch_of_target hbranch)
    rw [htarget]
    exact two_mul_lt_codeBytes hmem
  | payloadCase hk hcase =>
    unfold payloadLeaders at hcase
    split at hcase
    · cases hcase
    · split at hcase
      · cases hcase
      · obtain ⟨case, -, hnote⟩ := List.mem_flatMap.mp hcase
        exact (mem_note.mp hnote).2
  | tryStart hitem =>
    obtain ⟨t, hmem, heq⟩ := ht.tryStart _ hitem
    exact heq ▸ two_mul_lt_codeBytes hmem
  | handler hitem hs =>
    obtain ⟨t, hmem, heq⟩ := ht.handler _ hitem _ hs
    exact heq ▸ two_mul_lt_codeBytes hmem

/-- Only the next block starts where a block ends. -/
theorem getElem?_eq_blockEnd {a b : Nat} (ha : a < c.snapLeaders.length) :
    c.snapLeaders[b]? = some (c.blockEnd a) ↔ b = a + 1 ∧ a + 1 < c.snapLeaders.length := by
  rw [List.getElem?_eq_some_iff]
  constructor
  · rintro ⟨hb, heq⟩
    rcases blockEnd_cases ha with ⟨hnext, hend⟩ | ⟨-, hend⟩
    · exact ⟨getElem_inj c.snapLeaders_pairwise hb hnext (heq.trans hend), hnext⟩
    · have := leader_lt hc hsmall ht (List.getElem_mem hb)
      omega
  · rintro ⟨rfl, hnext⟩
    refine ⟨hnext, ?_⟩
    rcases blockEnd_cases ha with ⟨_, hend⟩ | ⟨hlen, -⟩
    · exact hend.symm
    · omega

end Edges

theorem mem_childEdge {kind kind' : ChildKind} {b off : Nat} :
    ⟨kind, b⟩ ∈ childEdge c.split kind' off ↔ kind = kind' ∧ c.snapLeaders[b]? = some off := by
  unfold childEdge
  by_cases hoff : off ∈ c.snapLeaders
  · obtain ⟨i, hi, rfl⟩ := List.getElem_of_mem hoff
    rw [findBlock_getElem hi, List.mem_singleton, ChildEdge.mk.injEq, List.getElem?_eq_some_iff]
    apply and_congr_right
    rintro -
    constructor
    · rintro rfl
      exact ⟨hi, rfl⟩
    · rintro ⟨hb, heq⟩
      exact getElem_inj c.snapLeaders_pairwise hb hi heq
  · rw [findBlock_eq_none hoff]
    simp only [List.not_mem_nil, false_iff, not_and]
    rintro - hb
    exact hoff (List.mem_of_getElem? hb)

/-- The child edges of block `a`. -/
def childEdgesAt (c : CodeItem) (a : Nat) : List ChildEdge :=
  c.childEdges c.split ⟨c.snapLeaders.getD a 0, c.blockEnd a, (c.blockUnits a).map c.rawAt, []⟩

theorem block_at (hc : c.Decodes) {a : Nat} {blk : RawBlock} (h : c.blocks[a]? = some blk) :
    ∃ ha : a < c.snapLeaders.length, blk.startByte = c.snapLeaders[a] ∧
      blk.ins = (c.blockUnits a).map c.rawAt ∧ blk.childs = c.childEdgesAt a := by
  have ha : a < c.snapLeaders.length := by
    rw [← length_blocks]
    exact (List.getElem?_eq_some_iff.mp h).1
  obtain ⟨childs, hblock, hchilds⟩ := getElem?_blocks hc ha
  rw [h] at hblock
  obtain rfl := Option.some.inj hblock
  refine ⟨ha, rfl, rfl, ?_⟩
  rw [hchilds, childEdgesAt, List.getD_eq_getElem _ 0 ha]

section Edges

variable (hc : c.Decodes) {a b k : Nat} {kind : ChildKind}
include hc

theorem blockUnits_sorted : (c.blockUnits a).Pairwise (· < ·) :=
  (starts_pairwise_units hc).filter _

/-- Behind the last instruction of a block the next one is in a later block. -/
theorem blockEnd_le_of_last (ha : a < c.snapLeaders.length)
    (hlast : (c.blockUnits a).getLast? = some k) {j : Nat} (hj : j ∈ c.starts) (hkj : k < j) :
    c.blockEnd a ≤ 2 * j := by
  obtain ⟨pre, hpre⟩ := List.getLast?_eq_some_iff.mp hlast
  have hk : k ∈ c.blockUnits a := List.mem_of_getLast? hlast
  by_contra hlt
  have hmem : j ∈ c.blockUnits a := by
    have hlow := ((mem_blockUnits ha).mp hk).2.1
    exact (mem_blockUnits ha).mpr ⟨hj, by omega, by omega⟩
  have hsorted : (c.blockUnits a).Pairwise (· < ·) := blockUnits_sorted hc
  rw [hpre] at hmem hsorted
  rcases List.mem_append.mp hmem with hbefore | hend
  · have := (List.pairwise_append.mp hsorted).2.2 j hbefore k List.mem_cons_self
    omega
  · have := List.mem_singleton.mp hend
    omega

theorem isNext_of_split (ha : a < c.snapLeaders.length) {pre post : List Nat} {r : Nat}
    (hsplit : c.blockUnits a = pre ++ k :: r :: post) : c.IsNext k r := by
  have hsorted : (c.blockUnits a).Pairwise (· < ·) := blockUnits_sorted hc
  have hk := (mem_blockUnits ha).mp (hsplit ▸ by simp : k ∈ c.blockUnits a)
  have hr := (mem_blockUnits ha).mp (hsplit ▸ by simp : r ∈ c.blockUnits a)
  rw [hsplit] at hsorted
  obtain ⟨-, hafter, hbefore⟩ := List.pairwise_append.mp hsorted
  refine ⟨hr.1, List.rel_of_pairwise_cons hafter List.mem_cons_self, fun j hj hkj => ?_⟩
  by_contra hlt
  have hmem := (mem_blockUnits ha).mpr ⟨hj, by omega, by omega⟩
  rw [hsplit] at hmem
  rcases List.mem_append.mp hmem with hpre | hpost
  · have := hbefore j hpre k List.mem_cons_self
    omega
  · rcases List.mem_cons.mp hpost with rfl | hpost
    · omega
    · exact hlt (head_le (List.pairwise_cons.mp hafter).2 hpost)

/-- An instruction is the last one of its block, or the next one is in it too. -/
theorem last_or_next (ha : a < c.snapLeaders.length) (hk : k ∈ c.blockUnits a) :
    (c.blockUnits a).getLast? = some k ∨ ∃ r, c.IsNext k r ∧ 2 * r < c.blockEnd a := by
  obtain ⟨pre, post, hsplit⟩ := List.append_of_mem hk
  cases post with
  | nil =>
    rw [hsplit]
    exact Or.inl List.getLast?_concat
  | cons r post =>
    have hr := (mem_blockUnits ha).mp (hsplit ▸ by simp : r ∈ c.blockUnits a)
    exact Or.inr ⟨r, isNext_of_split hc ha hsplit, hr.2.2⟩

/-- A block starts behind a jump, a return, a condition and a switch. -/
theorem last_of_ender (ha : a < c.snapLeaders.length) (hk : k ∈ c.blockUnits a)
    (hends : (isBlockTerminator (c.opcode k) || isConditionalBranch (c.opcode k) ||
      isSwitch (c.opcode k)) = true) : (c.blockUnits a).getLast? = some k := by
  rcases last_or_next hc ha hk with hlast | ⟨r, hnext, hr⟩
  · exact hlast
  · have hleader := (mem_snapLeaders hc).mpr (.behind (mem_blockUnits ha |>.mp hk).1 hends hnext)
    have hlow := ((mem_blockUnits ha).mp hk).2.1
    have hlt := hnext.lt
    have := blockEnd_le ha hleader (by omega)
    omega

/-- Inside a block control only goes on. -/
theorem interiorPlain : c.InteriorPlain c.blocks := by
  intro blk hblk pre post k r hsplit kind pos hgoes
  obtain ⟨a, hblock⟩ := List.mem_iff_getElem?.mp hblk
  obtain ⟨ha, -, hins, -⟩ := block_at hc hblock
  have hoffs : c.blockUnits a = pre.map (fun ri => ri.byteOff / 2) ++
      k :: r :: post.map (fun ri => ri.byteOff / 2) := by
    have hmap := congrArg (List.map fun ri : RawIns => ri.byteOff / 2) (hins.symm.trans hsplit)
    simpa [Function.comp_def] using hmap
  have hk : k ∈ c.blockUnits a := by
    rw [hoffs]
    simp
  have hnext := isNext_of_split hc ha hoffs
  have hplain : (isBlockTerminator (c.opcode k) || isConditionalBranch (c.opcode k) ||
      isSwitch (c.opcode k)) = false := by
    by_contra hends
    have hlast := last_of_ender hc ha hk (Bool.eq_true_of_not_eq_false hends)
    have hr : r ∈ c.blockUnits a := by
      rw [hoffs]
      simp
    have := blockEnd_le_of_last hc ha hlast hnext.mem hnext.lt
    have := ((mem_blockUnits ha).mp hr).2.2
    omega
  simp only [Bool.or_eq_false_iff] at hplain
  obtain ⟨⟨hterm, hcond⟩, hswitch⟩ := hplain
  cases hgoes with
  | onward hkind _ hnext' =>
    have := hnext.le _ hnext'.mem hnext'.lt
    have := hnext'.le _ hnext.mem hnext.lt
    rw [onwardKind, hterm, hcond, hswitch] at hkind
    exact ⟨(Option.some.inj hkind).symm, by omega⟩
  | branch hop =>
    have hjump := (Bool.or_eq_false_iff.mp hterm).2
    rw [hcond, hjump] at hop
    cases hop
  | case hop _ =>
    rw [hswitch] at hop
    cases hop

/-- The block at a block start has an instruction. -/
theorem filled_iff (ha : a < c.snapLeaders.length) : c.blockUnits a ≠ [] ↔
    ∃ t ∈ c.starts, c.snapLeaders[a] ≤ 2 * t ∧
      ∀ s, c.BlockStart s → c.snapLeaders[a] < s → 2 * t < s := by
  constructor
  · intro hne
    obtain ⟨t, hmem⟩ := List.exists_mem_of_ne_nil _ hne
    obtain ⟨hstart, hlow, hup⟩ := (mem_blockUnits ha).mp hmem
    refine ⟨t, hstart, hlow, fun s hs hlt => ?_⟩
    have := blockEnd_le ha ((mem_snapLeaders hc).mpr hs) hlt
    omega
  · rintro ⟨t, hstart, hlow, hup⟩
    apply List.ne_nil_of_mem
    refine (mem_blockUnits ha).mpr ⟨hstart, hlow, ?_⟩
    rcases blockEnd_cases ha with ⟨hnext, hend⟩ | ⟨-, hend⟩
    · rw [hend]
      apply hup
      · exact (mem_snapLeaders hc).mp (List.getElem_mem hnext)
      · exact getElem_lt c.snapLeaders_pairwise (Nat.lt_add_one a) hnext
    · rw [hend]
      exact two_mul_lt_codeBytes hstart

/-- An edge onward leads from a block to the next one, when that has the next
instruction. -/
theorem onward_iff (halign : c.FlowAligned) (ha : a < c.snapLeaders.length)
    (hb : b < c.snapLeaders.length) (hlast : (c.blockUnits a).getLast? = some k)
    (hkind : c.onwardKind k = some kind) :
    b = a + 1 ∧ a + 1 < c.snapLeaders.length ↔
      c.opcode k ≠ 0x73 ∧ ∃ r, c.IsNext k r ∧ (c.blockUnits b).head? = some r := by
  have hk := (mem_blockUnits ha).mp (List.mem_of_getLast? hlast)
  have hbehind {j : Nat} (hj : j ∈ c.starts) (hkj : k < j) : c.blockEnd a ≤ 2 * j :=
    blockEnd_le_of_last hc ha hlast hj hkj
  have hterm : isBlockTerminator (c.opcode k) ≠ true := by
    intro hterm
    rw [onwardKind, hterm] at hkind
    cases hkind
  have hfilled (hnext : a + 1 < c.snapLeaders.length) : c.blockUnits (a + 1) ≠ [] ∨
      (∀ s, c.BlockStart s → s ≤ c.snapLeaders[a + 1]) ∧ ∃ j ∈ c.starts, k < j := by
    rcases halign.filled _ ((mem_snapLeaders hc).mp (List.getElem_mem hnext)) with hsome | hend
    · exact Or.inl ((filled_iff hc hnext).mpr hsome)
    · refine Or.inr ⟨hend.1, ?_⟩
      by_contra hmax
      push Not at hmax
      exact hterm (hend.2 k hk.1 hmax)
  constructor
  · rintro ⟨rfl, hnext⟩
    have hend : c.blockEnd a = c.snapLeaders[a + 1] := by
      rcases blockEnd_cases ha with ⟨_, hend⟩ | ⟨hlen, -⟩
      · exact hend
      · omega
    have hne : c.blockUnits (a + 1) ≠ [] := by
      rcases hfilled hnext with hne | ⟨hlastStart, j, hj, hkj⟩
      · exact hne
      · apply List.ne_nil_of_mem (a := j)
        refine (mem_blockUnits hnext).mpr ⟨hj, hend ▸ hbehind hj hkj, ?_⟩
        rcases blockEnd_cases hnext with ⟨hnext', -⟩ | ⟨-, hcode⟩
        · have := hlastStart _ ((mem_snapLeaders hc).mp (List.getElem_mem hnext'))
          have := getElem_lt c.snapLeaders_pairwise (Nat.lt_add_one (a + 1)) hnext'
          omega
        · rw [hcode]
          exact two_mul_lt_codeBytes hj
    constructor
    · intro h73
      obtain ⟨r, hr, hlt⟩ := halign.returns k hk.1 h73 _
        ((mem_snapLeaders hc).mp (List.getElem_mem hnext)) (by omega)
      have := hbehind hr.mem hr.lt
      omega
    · cases hunits : c.blockUnits (a + 1) with
      | nil => exact absurd hunits hne
      | cons r rest =>
        have hr := (mem_blockUnits hnext).mp (hunits ▸ List.mem_cons_self : r ∈ _)
        refine ⟨r, ⟨hr.1, by omega, fun j hj hkj => ?_⟩, rfl⟩
        by_contra hlt
        have hmem := (mem_blockUnits hnext).mpr ⟨hj, hend ▸ hbehind hj hkj, by omega⟩
        have hsorted : (c.blockUnits (a + 1)).Pairwise (· < ·) := blockUnits_sorted hc
        rw [hunits] at hmem hsorted
        exact hlt (head_le hsorted hmem)
  · rintro ⟨-, r, hr, hhead⟩
    have hrb := (mem_blockUnits hb).mp (List.mem_of_head? hhead)
    have hbeyond := hbehind hr.mem hr.lt
    have hnext : a + 1 < c.snapLeaders.length := by
      rcases blockEnd_cases ha with ⟨hnext, -⟩ | ⟨-, hend⟩
      · exact hnext
      · have := two_mul_lt_codeBytes hr.mem
        omega
    have hend : c.blockEnd a = c.snapLeaders[a + 1] := by
      rcases blockEnd_cases ha with ⟨_, hend⟩ | ⟨hlen, -⟩
      · exact hend
      · omega
    refine ⟨?_, hnext⟩
    rcases Nat.lt_trichotomy b (a + 1) with hlt | heq | hgt
    · have := blockEnd_le hb (List.getElem_mem hnext) (getElem_lt c.snapLeaders_pairwise hlt hnext)
      omega
    · exact heq
    · have hlater := getElem_lt c.snapLeaders_pairwise hgt hb
      rcases hfilled hnext with hne | ⟨hlastStart, -⟩
      · obtain ⟨t, hmem⟩ := List.exists_mem_of_ne_nil _ hne
        have htb := (mem_blockUnits hnext).mp hmem
        have hle := hr.le t htb.1 (by omega)
        have := blockEnd_le hnext (List.getElem_mem hb) hlater
        omega
      · have := hlastStart _ ((mem_snapLeaders hc).mp (List.getElem_mem hb))
        omega

/-- The block that starts at an instruction begins with it. -/
theorem head?_blockUnits_iff {t : Nat} (hb : b < c.snapLeaders.length) (hmem : t ∈ c.starts)
    (hleader : 2 * t ∈ c.snapLeaders) :
    (c.blockUnits b).head? = some t ↔ c.snapLeaders[b] = 2 * t := by
  constructor
  · intro heq
    obtain ⟨-, hlow, hup⟩ := (mem_blockUnits hb).mp (List.mem_of_head? heq)
    by_contra hne
    have := blockEnd_le hb hleader (by omega)
    omega
  · intro heq
    have hin : t ∈ c.blockUnits b :=
      (mem_blockUnits hb).mpr ⟨hmem, by omega, lt_blockEnd hb hmem heq⟩
    have hsorted : (c.blockUnits b).Pairwise (· < ·) := blockUnits_sorted hc
    cases hunits : c.blockUnits b with
    | nil => simp [hunits] at hin
    | cons first rest =>
      have hlow := ((mem_blockUnits hb).mp (hunits ▸ List.mem_cons_self : first ∈ _)).2.1
      rw [hunits] at hin hsorted
      have := head_le hsorted hin
      rw [List.head?_cons, Option.some.injEq]
      omega

variable (hsmall : c.codeBytes < 2 ^ 32) (ht : c.TargetsPlaced)
include hsmall ht

/-- A block without instructions falls through to the next one. -/
theorem mem_childEdgesAt_nil (ha : a < c.snapLeaders.length) (hunits : c.blockUnits a = []) :
    ⟨kind, b⟩ ∈ c.childEdgesAt a ↔
      kind = .fallthrough ∧ b = a + 1 ∧ a + 1 < c.snapLeaders.length := by
  have hhandler : c.snapLeaders[a] ∉ c.handlerOffs := by
    intro hmem
    obtain ⟨item, hitem, hmem⟩ := List.mem_flatMap.mp hmem
    obtain ⟨t, hstart, heq⟩ := ht.handler item hitem _ hmem
    have hin := (mem_blockUnits ha).mpr ⟨hstart, by omega, lt_blockEnd ha hstart heq⟩
    simp [hunits] at hin
  have hlt : c.snapLeaders[a] < c.blockEnd a := by
    rcases blockEnd_cases ha with ⟨hnext, hend⟩ | ⟨-, hend⟩
    · rw [hend]
      exact getElem_lt c.snapLeaders_pairwise (Nat.lt_add_one a) hnext
    · rw [hend]
      exact leader_lt hc hsmall ht (List.getElem_mem ha)
  unfold childEdgesAt childEdges
  rw [List.getD_eq_getElem _ 0 ha, hunits]
  simp only [List.map_nil, List.getLast?_nil]
  rw [if_pos ⟨hlt, hhandler⟩, mem_childEdge, getElem?_eq_blockEnd hc hsmall ht ha]

/-- The edges of a block with a last instruction. -/
theorem mem_childEdgesAt_last (ha : a < c.snapLeaders.length)
    (hlast : (c.blockUnits a).getLast? = some k) :
    ⟨kind, b⟩ ∈ c.childEdgesAt a ↔
      (c.onwardKind k = some kind ∧ b = a + 1 ∧ a + 1 < c.snapLeaders.length) ∨
      ((isUnconditionalBranch (c.opcode k) || isConditionalBranch (c.opcode k)) = true ∧
        kind = .branch ∧ c.snapLeaders[b]? = some (c.rawAt k).branchTarget) ∨
      (isSwitch (c.opcode k) = true ∧ ∃ key units, (key, units) ∈ c.declaredCases k ∧
        kind = .switchCase key ∧ c.snapLeaders[b]? = some (castU4 (2 * k + units * 2))) := by
  have hk : k ∈ c.starts := ((mem_blockUnits ha).mp (List.mem_of_getLast? hlast)).1
  have hoff : ((2 * k : Nat) : Int) = 2 * (k : Int) := by omega
  unfold childEdgesAt childEdges onwardKind isBlockTerminator
  rw [List.getLast?_map, hlast]
  simp only [Option.map_some, opcode_rawAt, byteOff_rawAt]
  cases hstop : isReturn (c.opcode k) || isThrow (c.opcode k) with
  | true =>
    simp [plain_of_stop hstop]
  | false =>
    cases hjump : isUnconditionalBranch (c.opcode k) with
    | true =>
      have hplain := @not_switch_of_branch (c.opcode k) (by rw [hjump]; rfl)
      simp [hplain, mem_childEdge]
    | false =>
      cases hcond : isConditionalBranch (c.opcode k) with
      | true =>
        have hplain := @not_switch_of_branch (c.opcode k) (by rw [hcond, Bool.or_true])
        simp [hplain, mem_childEdge, getElem?_eq_blockEnd hc hsmall ht ha, eq_comm]
      | false =>
        cases hswitch : isSwitch (c.opcode k) with
        | false => simp [mem_childEdge, getElem?_eq_blockEnd hc hsmall ht ha, eq_comm]
        | true =>
          obtain ⟨payload, hpayload, hunit⟩ := payload_rawAt hc hsmall ht hk hswitch
          simp [hpayload, hunit, cases_eq_declared ht hk hswitch, mem_childEdge,
            getElem?_eq_blockEnd hc hsmall ht ha, eq_comm]

/-- Where control goes from the last instruction of a block to the first one of
another. -/
theorem exists_goes_iff {blk : RawBlock} (hb : b < c.snapLeaders.length)
    (hstart : blk.startByte = c.snapLeaders[b]) (hins : blk.ins = (c.blockUnits b).map c.rawAt)
    (hk : k ∈ c.starts) :
    (∃ pos, c.Goes k kind pos ∧ Enters blk kind pos) ↔
      (c.onwardKind k = some kind ∧ c.opcode k ≠ 0x73 ∧
        ∃ r, c.IsNext k r ∧ (c.blockUnits b).head? = some r) ∨
      ((isUnconditionalBranch (c.opcode k) || isConditionalBranch (c.opcode k)) = true ∧
        kind = .branch ∧ c.snapLeaders[b]? = some (c.rawAt k).branchTarget) ∨
      (isSwitch (c.opcode k) = true ∧ ∃ key units, (key, units) ∈ c.declaredCases k ∧
        kind = .switchCase key ∧ (c.snapLeaders[b] : Int) = 2 * k + 2 * units) := by
  have hhead (pos : Int) : (∃ first ∈ blk.ins.head?, (first.byteOff : Int) = pos) ↔
      ∃ r, (c.blockUnits b).head? = some r ∧ (2 * r : Int) = pos := by
    rw [hins, List.head?_map]
    cases (c.blockUnits b).head? <;> simp
  constructor
  · rintro ⟨pos, hgoes, henters⟩
    cases hgoes with
    | @onward _ r hkind hreturn hnext =>
      refine Or.inl ⟨hkind, hreturn, r, hnext, ?_⟩
      have henters : ∃ first ∈ blk.ins.head?, (first.byteOff : Int) = 2 * r := by
        rcases onwardKind_cases hkind with rfl | rfl | rfl <;> exact henters
      obtain ⟨first, hfirst, heq⟩ := (hhead _).mp henters
      rw [hfirst]
      congr 1
      omega
    | branch hop =>
      obtain ⟨t, hmem, heq, htarget, hleader⟩ := target_placed hc hsmall ht hk hop
      refine Or.inr (Or.inl ⟨hop, rfl, ?_⟩)
      obtain ⟨r, hr, hpos⟩ := (hhead _).mp henters
      have hrt : r = t := by omega
      have hstart := (head?_blockUnits_iff hc hb hmem hleader).mp (hrt ▸ hr)
      rw [htarget, List.getElem?_eq_getElem hb, hstart]
    | case hop hcase =>
      refine Or.inr (Or.inr ⟨hop, _, _, hcase, rfl, ?_⟩)
      rw [← hstart]
      exact henters
  · rintro (⟨hkind, hreturn, r, hnext, hr⟩ | ⟨hop, rfl, hleads⟩ |
      ⟨hop, key, units, hcase, rfl, heq⟩)
    · refine ⟨2 * r, .onward hkind hreturn hnext, ?_⟩
      have henters := (hhead (2 * r)).mpr ⟨r, hr, rfl⟩
      rcases onwardKind_cases hkind with rfl | rfl | rfl <;> exact henters
    · obtain ⟨t, hmem, heq, htarget, hleader⟩ := target_placed hc hsmall ht hk hop
      rw [htarget, List.getElem?_eq_getElem hb] at hleads
      have hfirst := (head?_blockUnits_iff hc hb hmem hleader).mpr (Option.some.inj hleads)
      exact ⟨_, .branch hop, (hhead _).mpr ⟨t, hfirst, by omega⟩⟩
    · refine ⟨_, .case hop hcase, ?_⟩
      rw [← heq, ← hstart]
      rfl

/-- The edges of one block to another against the flow of its last instruction. -/
def EdgeExact (c : CodeItem) (a b : Nat) (kind : ChildKind) : Prop :=
  ⟨kind, b⟩ ∈ c.childEdgesAt a ↔ ∃ k, (c.blockUnits a).getLast? = some k ∧
    ((c.onwardKind k = some kind ∧ c.opcode k ≠ 0x73 ∧
        ∃ r, c.IsNext k r ∧ (c.blockUnits b).head? = some r) ∨
      ((isUnconditionalBranch (c.opcode k) || isConditionalBranch (c.opcode k)) = true ∧
        kind = .branch ∧ c.snapLeaders[b]? = some (c.rawAt k).branchTarget) ∨
      (isSwitch (c.opcode k) = true ∧ ∃ key units, (key, units) ∈ c.declaredCases k ∧
        kind = .switchCase key ∧ (c.snapLeaders.getD b 0 : Int) = 2 * k + 2 * units))

theorem edgesExact_iff : c.EdgesExact c.blocks ↔ ∀ a b kind, a < c.snapLeaders.length →
    b < c.snapLeaders.length → c.EdgeExact a b kind := by
  have hunit {k j : Nat} (h : c.rawAt k = c.rawAt j) : k = j := by
    have := congrArg RawIns.byteOff h
    simp only [byteOff_rawAt] at this
    omega
  have hflow {a b : Nat} {blkA blkB : RawBlock} (kind : ChildKind)
      (hA : c.blocks[a]? = some blkA) (hB : c.blocks[b]? = some blkB) :
      ((⟨kind, b⟩ ∈ blkA.childs ↔ ∃ k pos, blkA.ins.getLast? = some (c.rawAt k) ∧
        k ∈ c.starts ∧ c.Goes k kind pos ∧ Enters blkB kind pos) ↔ c.EdgeExact a b kind) := by
    obtain ⟨ha, -, hins, hchilds⟩ := block_at hc hA
    obtain ⟨hb, hstart, hinsB, -⟩ := block_at hc hB
    rw [hchilds, EdgeExact, List.getD_eq_getElem _ 0 hb]
    apply iff_congr Iff.rfl
    constructor
    · rintro ⟨k, pos, hlast, hk, hgoes⟩
      rw [hins, List.getLast?_map] at hlast
      obtain ⟨j, hj, heq⟩ := Option.map_eq_some_iff.mp hlast
      obtain rfl := hunit heq
      exact ⟨j, hj, (exists_goes_iff hc hsmall ht hb hstart hinsB hk).mp ⟨pos, hgoes⟩⟩
    · rintro ⟨k, hlast, hgoes⟩
      have hk := ((mem_blockUnits ha).mp (List.mem_of_getLast? hlast)).1
      obtain ⟨pos, hgoes⟩ := (exists_goes_iff hc hsmall ht hb hstart hinsB hk).mpr hgoes
      refine ⟨k, pos, ?_, hk, hgoes⟩
      rw [hins, List.getLast?_map, hlast]
      rfl
  constructor
  · intro hexact a b kind ha hb
    obtain ⟨childsA, hA, -⟩ := getElem?_blocks hc ha
    obtain ⟨childsB, hB, -⟩ := getElem?_blocks hc hb
    exact (hflow kind hA hB).mp (hexact a b _ _ kind hA hB)
  · intro hexact a b blkA blkB kind hA hB
    obtain ⟨ha, -⟩ := block_at hc hA
    obtain ⟨hb, -⟩ := block_at hc hB
    exact (hflow kind hA hB).mpr (hexact a b kind ha hb)

/-- A case edge leads to the block at the true position of a case. -/
theorem case_iff (halign : c.FlowAligned) (hb : b < c.snapLeaders.length) (hk : k ∈ c.starts)
    (hop : isSwitch (c.opcode k) = true) :
    (∃ key units, (key, units) ∈ c.declaredCases k ∧ kind = .switchCase key ∧
      c.snapLeaders[b]? = some (castU4 (2 * k + units * 2))) ↔
    ∃ key units, (key, units) ∈ c.declaredCases k ∧ kind = .switchCase key ∧
      (c.snapLeaders.getD b 0 : Int) = 2 * k + 2 * units := by
  rw [List.getD_eq_getElem _ 0 hb, List.getElem?_eq_getElem hb]
  constructor
  · rintro ⟨key, units, hcase, rfl, hstart⟩
    have hstart := Option.some.inj hstart
    obtain ⟨units', hcase', heq⟩ := halign.cases k hk hop key units hcase
      (hstart ▸ (mem_snapLeaders hc).mp (List.getElem_mem hb))
    exact ⟨key, units', hcase', rfl, by rw [hstart, heq]⟩
  · rintro ⟨key, units, hcase, rfl, hstart⟩
    have := leader_lt hc hsmall ht (List.getElem_mem hb)
    refine ⟨key, units, hcase, rfl, ?_⟩
    rw [castU4_of_lt (n := c.snapLeaders[b]) (by omega) (by omega)]

theorem edgesExact_of_flowAligned (halign : c.FlowAligned) : c.EdgesExact c.blocks := by
  refine (edgesExact_iff hc hsmall ht).mpr fun a b kind ha hb => ?_
  unfold EdgeExact
  cases hlast : (c.blockUnits a).getLast? with
  | none =>
    have hunits : c.blockUnits a = [] := List.getLast?_eq_none_iff.mp hlast
    rw [mem_childEdgesAt_nil hc hsmall ht ha hunits]
    simp only [reduceCtorEq, false_and, exists_false, iff_false]
    rintro ⟨-, -, hnext⟩
    rcases halign.filled _ ((mem_snapLeaders hc).mp (List.getElem_mem ha)) with hsome | hend
    · exact (filled_iff hc ha).mpr hsome hunits
    · have := hend.1 _ ((mem_snapLeaders hc).mp (List.getElem_mem hnext))
      have := getElem_lt c.snapLeaders_pairwise (Nat.lt_add_one a) hnext
      omega
  | some k =>
    have hk := ((mem_blockUnits ha).mp (List.mem_of_getLast? hlast)).1
    rw [mem_childEdgesAt_last hc hsmall ht ha hlast]
    simp only [Option.some.injEq, exists_eq_left']
    refine or_congr (and_congr_right fun hkind => ?_) (or_congr_right
      (and_congr_right fun hop => case_iff hc hsmall ht halign hb hk hop))
    exact onward_iff hc halign ha hb hlast hkind

theorem flowAligned_of_edgesExact (hexact : c.EdgesExact c.blocks) : c.FlowAligned := by
  have hedges := (edgesExact_iff hc hsmall ht).mp hexact
  have hindex {s : Nat} (hs : c.BlockStart s) : ∃ i, ∃ hi : i < c.snapLeaders.length,
      c.snapLeaders[i] = s := List.getElem_of_mem ((mem_snapLeaders hc).mpr hs)
  have honward {a k : Nat} {kind : ChildKind} (hnext : a + 1 < c.snapLeaders.length)
      (hlast : (c.blockUnits a).getLast? = some k) (hkind : c.onwardKind k = some kind) :
      c.opcode k ≠ 0x73 ∧ ∃ r, c.IsNext k r := by
    have hedge := hedges a (a + 1) kind (by omega) hnext
    rw [EdgeExact, mem_childEdgesAt_last hc hsmall ht (by omega) hlast] at hedge
    obtain ⟨k', hlast', hgoes⟩ := hedge.mp (Or.inl ⟨hkind, rfl, hnext⟩)
    obtain rfl := Option.some.inj (hlast.symm.trans hlast')
    rcases hgoes with ⟨-, hreturn, r, hr, -⟩ | ⟨-, rfl, -⟩ | ⟨-, key, units, -, rfl, -⟩
    · exact ⟨hreturn, r, hr⟩
    all_goals rcases onwardKind_cases hkind with h | h | h <;> cases h
  constructor
  · intro s hs
    obtain ⟨i, hi, rfl⟩ := hindex hs
    by_cases hunits : c.blockUnits i = []
    · have hfinal : ¬i + 1 < c.snapLeaders.length := by
        intro hnext
        have hedge := hedges i (i + 1) .fallthrough hi hnext
        rw [EdgeExact, mem_childEdgesAt_nil hc hsmall ht hi hunits] at hedge
        obtain ⟨k, hlast, -⟩ := hedge.mp ⟨rfl, rfl, hnext⟩
        rw [hunits] at hlast
        cases hlast
      refine Or.inr ⟨fun s' hs' => ?_, fun k hk hmax => ?_⟩
      · obtain ⟨j, hj, rfl⟩ := hindex hs'
        exact getElem_le c.snapLeaders_pairwise (by omega) hi
      · obtain ⟨a, ha, hlow, hup⟩ := exists_snapBlock hc hk
        have hmem : k ∈ c.blockUnits a := (mem_blockUnits ha).mpr ⟨hk, hlow, hup⟩
        have hai : a ≠ i := by
          rintro rfl
          simp [hunits] at hmem
        have hlast : (c.blockUnits a).getLast? = some k := by
          rcases last_or_next hc ha hmem with hlast | ⟨r, hr, -⟩
          · exact hlast
          · have := hmax r hr.mem
            have := hr.lt
            omega
        by_contra hterm
        have hkind : ∃ kind, c.onwardKind k = some kind := by
          unfold onwardKind
          rw [if_neg hterm]
          split
          · exact ⟨_, rfl⟩
          · split <;> exact ⟨_, rfl⟩
        obtain ⟨kind, hkind⟩ := hkind
        obtain ⟨-, r, hr⟩ := honward (by omega) hlast hkind
        have := hmax r hr.mem
        have := hr.lt
        omega
    · exact Or.inl ((filled_iff hc hi).mp hunits)
  · intro k hk h73 s hs hlt
    obtain ⟨a, ha, hlow, hup⟩ := exists_snapBlock hc hk
    have hend := blockEnd_le ha ((mem_snapLeaders hc).mpr hs) (by omega)
    rcases last_or_next hc ha ((mem_blockUnits ha).mpr ⟨hk, hlow, hup⟩) with hlast | ⟨r, hr, hin⟩
    · have hnext : a + 1 < c.snapLeaders.length := by
        obtain ⟨i, hi, rfl⟩ := hindex hs
        by_contra hfinal
        have := getElem_le c.snapLeaders_pairwise (show i ≤ a by omega) ha
        omega
      have hkind : c.onwardKind k = some .fallthrough := by
        unfold onwardKind
        rw [h73]
        rfl
      exact absurd h73 (honward hnext hlast hkind).1
    · exact ⟨r, hr, by omega⟩
  · intro k hk hop key units hcase hstart
    obtain ⟨a, ha, hlow, hup⟩ := exists_snapBlock hc hk
    have hlast := last_of_ender hc ha ((mem_blockUnits ha).mpr ⟨hk, hlow, hup⟩) (by simp [hop])
    obtain ⟨b, hb, heq⟩ := hindex hstart
    have hedge := hedges a b (.switchCase key) ha hb
    rw [EdgeExact, mem_childEdgesAt_last hc hsmall ht ha hlast] at hedge
    obtain ⟨k', hlast', hgoes⟩ := hedge.mp (Or.inr (Or.inr ⟨hop, key, units, hcase, rfl, by
      rw [List.getElem?_eq_getElem hb, heq]⟩))
    obtain rfl := Option.some.inj (hlast.symm.trans hlast')
    rcases hgoes with ⟨hkind, -⟩ | ⟨-, hkind, -⟩ | ⟨-, key', units', hcase', hkind, hpos⟩
    · rcases onwardKind_cases hkind with h | h | h <;> cases h
    · cases hkind
    · obtain rfl := ChildKind.switchCase.inj hkind
      rw [List.getD_eq_getElem _ 0 hb, heq] at hpos
      exact ⟨units', hcase', hpos⟩

end Edges

end CodeItem

/-- The blocks of a code item the strict gate accepts, with every branch target, try
start and handler address an instruction start and every switch at a payload of its
kind: inside a block control only goes on, and the edges are the flow of the last
instructions exactly when the blocks are filled, no block starts behind a return
without barrier, and no case outside the instructions wraps to a block start. -/
theorem edges_exact_iff {image : Memory} {headerOff off : Nat} {v : Verifier}
    (hopen : openVerifier image headerOff true = .ok v)
    (haccept : v.verifyCodeItem off = .ok ()) (htargets : (v.codeItem off).TargetsPlaced) :
    ∃ blocks, (v.codeItem off).snapshotBlocks = .ok blocks ∧
      (v.codeItem off).InteriorPlain blocks ∧
      ((v.codeItem off).EdgesExact blocks ↔ (v.codeItem off).FlowAligned) := by
  have hstrict : v.checkInsns = true := (post_of_ok (wp_openVerifier _ _ _) hopen).2.2.2
  have hc := Verifier.decodes_of_verifyCodeItem hstrict haccept
  have hsmall := Verifier.codeBytes_lt hopen haccept
  refine ⟨_, CodeItem.snapshotBlocks_eq hc, CodeItem.interiorPlain hc, ?_, ?_⟩
  · exact CodeItem.flowAligned_of_edgesExact hc hsmall htargets
  · exact CodeItem.edgesExact_of_flowAligned hc hsmall htargets

/-- A bare header with the code item of `packed-switch v0, +4; return-void` and the
payload `7: +0x80000003`, a case at byte 6 modulo `2 ^ 32`. -/
def wrappedCaseImage : Memory :=
  List.replicate 32 0 ++ [148, 0, 0, 0] ++ List.replicate 76 0 ++
    [1, 0, 0, 0, 0, 0, 0, 0, 0, 0, 0, 0, 10, 0, 0, 0] ++
    [0x2B, 0, 4, 0, 0, 0, 0x0E, 0, 0, 1, 1, 0, 7, 0, 0, 0, 3, 0, 0, 0x80]

set_option maxRecDepth 20000 in
def wrappedCaseVerifier : Verifier :=
  ⟨wrappedCaseImage, 0, headerAt wrappedCaseImage 0, ⟨0, 148, by decide⟩, true⟩

set_option maxRecDepth 1000 in
theorem wrappedCase_open : openVerifier wrappedCaseImage 0 true = .ok wrappedCaseVerifier := by
  rfl

set_option maxRecDepth 20000 in
/-- The runs on the code item. -/
theorem wrappedCase_runs :
    wrappedCaseVerifier.verifyCodeItem 112 = .ok () ∧
    (wrappedCaseVerifier.codeItem 112).starts = [0, 3] ∧
    (wrappedCaseVerifier.codeItem 112).parseExceptions = [] ∧
    (∀ k ∈ [0, 3], (isUnconditionalBranch ((wrappedCaseVerifier.codeItem 112).opcode k) ||
      isConditionalBranch ((wrappedCaseVerifier.codeItem 112).opcode k)) = false) ∧
    isSwitch ((wrappedCaseVerifier.codeItem 112).opcode 3) = false ∧
    (((wrappedCaseVerifier.codeItem 112).payloadUnit 0 : Int) =
        (0 : Nat) + (wrappedCaseVerifier.codeItem 112).branchDistance 0 ∧
      (wrappedCaseVerifier.codeItem 112).unit ((wrappedCaseVerifier.codeItem 112).payloadUnit 0) =
        (if (wrappedCaseVerifier.codeItem 112).opcode 0 = 0x2B then kPackedSwitchSignature
          else kSparseSwitchSignature) ∧
      (wrappedCaseVerifier.codeItem 112).payloadUnit 0 +
          (wrappedCaseVerifier.codeItem 112).getBytecodeWidth
            ((wrappedCaseVerifier.codeItem 112).payloadUnit 0) ≤
        (wrappedCaseVerifier.codeItem 112).insnsSize) ∧
    (wrappedCaseVerifier.codeItem 112).snapshotBlocks = .ok
      [⟨0, 6, [⟨0, 0x2B, uint32Max, some 8⟩], [⟨.switchDefault, 1⟩, ⟨.switchCase 7, 1⟩]⟩,
        ⟨6, 20, [⟨6, 0x0E, uint32Max, none⟩], []⟩] ∧
    (wrappedCaseVerifier.codeItem 112).declaredCases 0 = [(7, -2147483645)] := by
  decide

theorem wrappedCase_targetsPlaced : (wrappedCaseVerifier.codeItem 112).TargetsPlaced := by
  obtain ⟨_, hstarts, hexceptions, hnoBranch, hnoSwitch, hplaced, _⟩ := wrappedCase_runs
  constructor
  · intro k hk hbranch
    rw [hstarts] at hk
    rw [hnoBranch k hk] at hbranch
    cases hbranch
  · intro item hitem
    rw [hexceptions] at hitem
    cases hitem
  · intro item hitem
    rw [hexceptions] at hitem
    cases hitem
  · intro k hk hswitch
    rw [hstarts] at hk
    simp only [List.mem_cons, List.not_mem_nil, or_false] at hk
    rcases hk with rfl | rfl
    · exact hplaced
    · rw [hnoSwitch] at hswitch
      cases hswitch

/-- The edges and the flow of the switch with the wrapped case. -/
theorem edges_exact_iff_wrappedCase :
    ∃ blocks, (wrappedCaseVerifier.codeItem 112).snapshotBlocks = .ok blocks ∧
      (wrappedCaseVerifier.codeItem 112).InteriorPlain blocks ∧
      ((wrappedCaseVerifier.codeItem 112).EdgesExact blocks ↔
        (wrappedCaseVerifier.codeItem 112).FlowAligned) :=
  edges_exact_iff wrappedCase_open wrappedCase_runs.1 wrappedCase_targetsPlaced

/-- The switch has an edge to the return for a case whose target is far outside the
instructions. -/
theorem wrappedCase_not_exact :
    ¬∀ (image : Memory) (headerOff off : Nat) (v : Verifier),
      openVerifier image headerOff true = .ok v → v.verifyCodeItem off = .ok () →
      (v.codeItem off).TargetsPlaced →
        ∃ blocks, (v.codeItem off).snapshotBlocks = .ok blocks ∧
          (v.codeItem off).EdgesExact blocks := by
  intro hall
  obtain ⟨haccept, _, _, _, _, _, hsnapshot, hdeclared⟩ := wrappedCase_runs
  obtain ⟨blocks, hblocks, hexact⟩ := hall wrappedCaseImage 0 112 wrappedCaseVerifier
    wrappedCase_open haccept wrappedCase_targetsPlaced
  rw [hsnapshot] at hblocks
  obtain rfl := Except.ok.inj hblocks
  obtain ⟨k, pos, hlast, -, hgoes, henters⟩ := (hexact 0 1 _ _ (.switchCase 7) rfl rfl).mp
    (by simp)
  have hoff : 2 * k = 0 := by
    have hlast := congrArg RawIns.byteOff (Option.some.inj hlast)
    rw [CodeItem.byteOff_rawAt] at hlast
    exact hlast.symm
  obtain rfl : k = 0 := by omega
  cases hgoes with
  | onward hkind => rcases CodeItem.onwardKind_cases hkind with h | h | h <;> cases h
  | case _ hcase =>
    rw [hdeclared] at hcase
    obtain ⟨-, rfl⟩ := Prod.mk.inj (List.mem_singleton.mp hcase)
    have henters : ((6 : Nat) : Int) = 2 * (0 : Nat) + 2 * -2147483645 := henters
    omega

end Dexllm
