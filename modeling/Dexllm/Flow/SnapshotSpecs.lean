import Dexllm.Flow.Snapshot
import Mathlib.Data.List.TakeWhile

/-!
The blocks of the snapshot of a code item that decodes: which instructions each
one has, and where control that leaves one arrives.
-/

namespace Dexllm

open Guarded Bytes Leaders LinearSweep

namespace CodeItem

variable {c : CodeItem}

/-- The decoded operands of the instruction at unit `k`. -/
def decodedAt (c : CodeItem) (k : Nat) : Instruction :=
  match decodeInstruction c.mem (c.insns + 2 * k) with
  | .ok d => d
  | .error _ => {}

def rawAt (c : CodeItem) (k : Nat) : RawIns := rawIns (2 * k) (c.opcode k) (c.decodedAt k)

@[simp] theorem byteOff_rawAt (k : Nat) : (c.rawAt k).byteOff = 2 * k := by
  unfold rawAt rawIns
  split
  · dsimp only
    split <;> rfl
  · rfl

@[simp] theorem opcode_rawAt (k : Nat) : (c.rawAt k).opcode = c.opcode k := by
  unfold rawAt rawIns
  split
  · dsimp only
    split <;> rfl
  · rfl

theorem decodeInstruction_eq (hc : c.Decodes) {k : Nat} (hk : k ∈ c.starts) :
    decodeInstruction c.mem (c.insns + 2 * k) = .ok (c.decodedAt k) := by
  obtain ⟨d, hd, -⟩ := hc.insn k hk
  rw [decodedAt, hd]

theorem safeWidth_eq (hc : c.Decodes) {k : Nat} (hk : k ∈ c.boundaries) :
    c.safeWidth k = .ok (c.getBytecodeWidth k) := by
  obtain ⟨hpos, hroom, hheader, hwidth⟩ := hc.width k hk
  have hlt := boundary_lt hk
  unfold safeWidth
  rw [if_neg (by omega), hwidth]
  exact if_neg (by omega)

theorem decodeAllFrom_eq (hc : c.Decodes) {fuel k : Nat}
    (hk : ∀ j ∈ sweepFrom c.getBytecodeWidth c.insnsSize fuel k, j ∈ c.boundaries) :
    c.decodeAllFrom fuel k = .ok (((sweepFrom c.getBytecodeWidth c.insnsSize fuel k).filter
      fun k => isPayload (c.unit k) = false).map c.rawAt) := by
  induction fuel generalizing k with
  | zero => rfl
  | succ fuel ih =>
    unfold decodeAllFrom sweepFrom
    unfold sweepFrom at hk
    split
    · rename_i hlt
      rw [if_pos hlt] at hk
      have hbound := hk k List.mem_cons_self
      have hrest := ih fun j hj => hk j (List.mem_cons_of_mem _ hj)
      rw [safeWidth_eq hc hbound]
      cases hpayload : isPayload (c.unit k) with
      | true =>
        rw [List.filter_cons_of_neg (by simp [hpayload])]
        exact hrest
      | false =>
        rw [List.filter_cons_of_pos (by simp [hpayload]), List.map_cons]
        have hdecode := decodeInstruction_eq hc (mem_starts.mpr ⟨hbound, hpayload⟩)
        simp only [bind_ok, hdecode, hrest, Bool.false_eq_true, if_false]
        rfl
    · rfl

theorem starts_pairwise_units (hc : c.Decodes) : c.starts.Pairwise (· < ·) :=
  hc.boundaries_pairwise.filter _

/-- The leaders of the snapshot. -/
def snapLeaders (c : CodeItem) : List Nat := c.leaders (c.starts.map c.rawAt)

theorem snapLeaders_pairwise (c : CodeItem) : c.snapLeaders.Pairwise (· < ·) :=
  pairwise_ascending _

/-- The end of block `i`. -/
def blockEnd (c : CodeItem) (i : Nat) : Nat := c.snapLeaders.getD (i + 1) c.codeBytes

/-- The units of the instructions in block `i`. -/
def blockUnits (c : CodeItem) (i : Nat) : List Nat :=
  c.starts.filter fun k => c.snapLeaders.getD i 0 ≤ 2 * k ∧ 2 * k < c.blockEnd i

/-- The blocks without their child edges. -/
def split (c : CodeItem) : List RawBlock := c.splitIntoBlocks (c.starts.map c.rawAt)

/-- The finished blocks. -/
def blocks (c : CodeItem) : List RawBlock := c.computeChildEdges c.split

theorem snapshotBlocks_eq (hc : c.Decodes) : c.snapshotBlocks = .ok c.blocks := by
  unfold snapshotBlocks
  rw [decodeAllFrom_eq hc fun _ h => h]
  rfl

/-- A start that is an instruction lies before its block's end. -/
theorem lt_blockEnd {i k : Nat} (hi : i < c.snapLeaders.length) (hk : k ∈ c.starts)
    (hstart : c.snapLeaders[i] = 2 * k) : 2 * k < c.blockEnd i := by
  unfold blockEnd
  by_cases hnext : i + 1 < c.snapLeaders.length
  · rw [List.getD_eq_getElem _ _ hnext, ← hstart]
    exact getElem_lt c.snapLeaders_pairwise (by omega) hnext
  · rw [List.getD_eq_default _ _ (by omega), codeBytes]
    have := boundary_lt (mem_starts.mp hk).1
    omega

theorem blockIns_eq (hc : c.Decodes) {i : Nat} (hi : i < c.snapLeaders.length) :
    blockIns (c.starts.map c.rawAt) (c.snapLeaders.getD i 0) (c.blockEnd i) =
      (c.blockUnits i).map c.rawAt := by
  have hstarts := starts_pairwise_units hc
  have hdrop : (c.starts.map c.rawAt).dropWhile
      (fun ri => decide (ri.byteOff < c.snapLeaders.getD i 0)) =
      (c.starts.filter fun k => c.snapLeaders.getD i 0 ≤ 2 * k).map c.rawAt := by
    rw [List.dropWhile_map]
    congr 1
    rw [show ((fun ri : RawIns => decide (ri.byteOff < c.snapLeaders.getD i 0)) ∘ c.rawAt) =
      fun k => decide (2 * k < c.snapLeaders.getD i 0) from funext fun k => by simp,
      dropWhile_eq_filter hstarts fun a b hab hb => by simp at hb ⊢; omega]
    congr 1
    funext k
    simp [← decide_not]
  have hunits : c.blockUnits i = (c.starts.filter fun k => c.snapLeaders.getD i 0 ≤ 2 * k).filter
      fun k => 2 * k < c.blockEnd i := by
    rw [List.filter_filter, blockUnits]
    congr 1
    funext k
    simp [Bool.and_comm]
  have hafter : (c.starts.filter fun k => c.snapLeaders.getD i 0 ≤ 2 * k).Pairwise (· < ·) :=
    hstarts.filter _
  have hmem : ∀ k ∈ c.starts.filter fun k => c.snapLeaders.getD i 0 ≤ 2 * k, k ∈ c.starts :=
    fun k hk => (List.mem_filter.mp hk).1
  unfold blockIns
  rw [hdrop, hunits, ← takeWhile_eq_filter hafter fun a b hab hb => by simp at hb ⊢; omega]
  cases hlist : c.starts.filter fun k => c.snapLeaders.getD i 0 ≤ 2 * k with
  | nil => rfl
  | cons first rest =>
    rw [hlist] at hmem
    simp only [List.map_cons, byteOff_rawAt]
    by_cases hfirst : 2 * first < c.blockEnd i
    · rw [if_pos (Or.inr hfirst), List.takeWhile_cons_of_pos (by simpa using hfirst),
        List.map_cons, List.takeWhile_map]
      congr 2
      congr 1
      funext k
      simp
    · have hne : 2 * first ≠ c.snapLeaders.getD i 0 := by
        intro heq
        rw [List.getD_eq_getElem _ _ hi] at heq
        exact hfirst (lt_blockEnd hi (hmem first List.mem_cons_self) heq.symm)
      rw [if_neg (by omega), List.takeWhile_cons_of_neg (by simpa using hfirst)]
      rfl

theorem length_blocks : c.blocks.length = c.snapLeaders.length := by
  simp [blocks, computeChildEdges, split, splitIntoBlocks, snapLeaders]

/-- Block `i` of the snapshot. -/
theorem getElem?_blocks (hc : c.Decodes) {i : Nat} (hi : i < c.snapLeaders.length) :
    ∃ childs, c.blocks[i]? = some ⟨c.snapLeaders[i], c.blockEnd i, (c.blockUnits i).map c.rawAt,
      childs⟩ ∧ childs = c.childEdges c.split ⟨c.snapLeaders[i], c.blockEnd i,
        (c.blockUnits i).map c.rawAt, []⟩ := by
  refine ⟨_, ?_, rfl⟩
  have hsplit : c.split[i]? = some ⟨c.snapLeaders[i], c.blockEnd i,
      (c.blockUnits i).map c.rawAt, []⟩ := by
    rw [← blockIns_eq hc hi]
    unfold split splitIntoBlocks
    have hrange : (List.range (c.leaders (c.starts.map c.rawAt)).length)[i]? = some i :=
      List.getElem?_range hi
    rw [List.getElem?_map, hrange, ← List.getD_eq_getElem _ 0 hi]
    rfl
  rw [blocks, computeChildEdges, List.getElem?_map, hsplit]
  rfl

theorem length_split : c.split.length = c.snapLeaders.length := by
  simp [split, splitIntoBlocks, snapLeaders]

theorem startByte_split {i : Nat} (hi : i < c.split.length) (hlen : i < c.snapLeaders.length) :
    c.split[i].startByte = c.snapLeaders[i] := by
  simp only [split, splitIntoBlocks, List.getElem_map, List.getElem_range]
  exact List.getD_eq_getElem _ 0 hlen

theorem findBlock_getElem {i : Nat} (hi : i < c.snapLeaders.length) :
    findBlockIdForByteOff c.split c.snapLeaders[i] = some i := by
  have hsplit := @length_split c
  have hfound : c.split[i].startByte = c.snapLeaders[i] := startByte_split _ hi
  apply List.findIdx?_eq_some_iff_getElem.mpr
  refine ⟨by omega, by simp [hfound], fun j hj => ?_⟩
  have hlt := getElem_lt c.snapLeaders_pairwise hj hi
  have hother : c.split[j].startByte = c.snapLeaders[j] := startByte_split _ (by omega)
  have hne : c.split[j].startByte ≠ c.snapLeaders[i] := by omega
  simpa using hne

theorem findBlock_eq_none {off : Nat} (hoff : off ∉ c.snapLeaders) :
    findBlockIdForByteOff c.split off = none := by
  apply List.findIdx?_eq_none_iff.mpr
  intro blk hblk
  obtain ⟨j, hj, rfl⟩ := List.getElem_of_mem hblk
  have hlen : j < c.snapLeaders.length := by
    rw [← length_split]
    exact hj
  have hne : c.snapLeaders[j] ≠ off := by
    rintro rfl
    exact hoff (List.getElem_mem _)
  rw [startByte_split hj hlen]
  simpa using hne

/-- Where control that goes on at a byte offset meets an instruction. -/
def landing (c : CodeItem) (fuel off : Nat) : List Nat :=
  match findBlockIdForByteOff c.split off with
  | none => []
  | some id => blockEntry c.blocks fuel id

theorem flatMap_childEdge (fuel off : Nat) (kind : ChildKind) :
    ((childEdge c.split kind off).flatMap fun edge => blockEntry c.blocks fuel edge.target) =
      c.landing fuel off := by
  unfold childEdge landing
  cases findBlockIdForByteOff c.split off <;> simp

theorem landing_getElem {i fuel : Nat} (hi : i < c.snapLeaders.length) :
    c.landing fuel c.snapLeaders[i] = blockEntry c.blocks fuel i := by
  rw [landing, findBlock_getElem hi]

/-- `r` is the first instruction behind `k`. -/
structure IsNext (c : CodeItem) (k r : Nat) : Prop where
  mem : r ∈ c.starts
  lt : k < r
  le : ∀ j ∈ c.starts, k < j → r ≤ j

/-- A handler at or behind byte `low` and a later leader, up to the instruction
at `r`: the block of the handler has no instruction, and control stops there. -/
def CutFrom (c : CodeItem) (low r : Nat) : Prop :=
  ∃ m ∈ c.handlerOffs, ∃ l ∈ c.snapLeaders, low ≤ m ∧ m < l ∧ l ≤ 2 * r

theorem handler_mem_snapLeaders {m : Nat} (hm : m ∈ c.handlerOffs) : m ∈ c.snapLeaders := by
  apply mem_ascending.mpr
  apply List.mem_append_right
  obtain ⟨item, hitem, hm⟩ := List.mem_flatMap.mp hm
  exact List.mem_flatMap.mpr ⟨item, hitem, List.mem_cons_of_mem _ hm⟩

theorem mem_blockUnits {i k : Nat} (hi : i < c.snapLeaders.length) :
    k ∈ c.blockUnits i ↔ k ∈ c.starts ∧ c.snapLeaders[i] ≤ 2 * k ∧ 2 * k < c.blockEnd i := by
  simp [blockUnits, hi]

theorem blockEnd_cases {i : Nat} (hi : i < c.snapLeaders.length) :
    (∃ h : i + 1 < c.snapLeaders.length, c.blockEnd i = c.snapLeaders[i + 1]) ∨
      (c.snapLeaders.length = i + 1 ∧ c.blockEnd i = c.codeBytes) := by
  unfold blockEnd
  by_cases hnext : i + 1 < c.snapLeaders.length
  · exact Or.inl ⟨hnext, List.getD_eq_getElem _ _ hnext⟩
  · exact Or.inr ⟨by omega, List.getD_eq_default _ _ (by omega)⟩

/-- A leader behind the start of a block is at or behind its end. -/
theorem blockEnd_le {i l : Nat} (hi : i < c.snapLeaders.length) (hl : l ∈ c.snapLeaders)
    (hlow : c.snapLeaders[i] < l) : c.blockEnd i ≤ l := by
  obtain ⟨hnext, hle⟩ := not_mem_between c.snapLeaders_pairwise hi hl hlow
  rcases blockEnd_cases hi with ⟨_, heq⟩ | ⟨hlen, -⟩
  · rw [heq]
    exact hle
  · omega

/-- Entering block `i` behind the instruction at `k`, with no instruction in
between, control meets the next one unless a handler without instructions is on
the way. The induction runs over the blocks from `i` on. -/
theorem mem_blockEntry (hc : c.Decodes) {k s fuel i : Nat} (hi : i < c.snapLeaders.length)
    (hfuel : c.snapLeaders.length - i ≤ fuel) (hk : 2 * k < c.snapLeaders[i])
    (hbetween : ∀ j ∈ c.starts, k < j → c.snapLeaders[i] ≤ 2 * j) :
    s ∈ blockEntry c.blocks fuel i ↔
      ∃ r, c.IsNext k r ∧ s = 2 * r ∧ ¬c.CutFrom c.snapLeaders[i] r := by
  induction fuel generalizing i with
  | zero => omega
  | succ fuel ih =>
    obtain ⟨childs, hblock, hchilds⟩ := getElem?_blocks hc hi
    unfold blockEntry
    simp only [hblock]
    cases hunits : c.blockUnits i with
    | cons first rest =>
      have hmem : first ∈ c.blockUnits i := by simp [hunits]
      obtain ⟨hstart, hlow, hup⟩ := (mem_blockUnits hi).mp hmem
      have hfirst : c.IsNext k first := by
        refine ⟨hstart, by omega, fun j hj hkj => ?_⟩
        by_contra hlt
        have hj' : j ∈ c.blockUnits i := (mem_blockUnits hi).mpr ⟨hj, hbetween j hj hkj, by omega⟩
        have hsorted : (c.blockUnits i).Pairwise (· < ·) := (starts_pairwise_units hc).filter _
        rw [hunits] at hj' hsorted
        rcases List.mem_cons.mp hj' with heq | htail
        · omega
        · have := List.rel_of_pairwise_cons hsorted htail
          omega
      simp only [List.map_cons, List.mem_singleton, byteOff_rawAt]
      constructor
      · rintro rfl
        refine ⟨first, hfirst, rfl, ?_⟩
        rintro ⟨m, -, l, hl, hlm, hml, hle⟩
        have := blockEnd_le hi hl (by omega)
        omega
      · rintro ⟨r, hr, rfl, -⟩
        have := hr.le first hstart hfirst.lt
        have := hfirst.le r hr.mem hr.lt
        omega
    | nil =>
      have hnone (j : Nat) (hj : j ∈ c.starts) (hkj : k < j) : c.blockEnd i ≤ 2 * j := by
        by_contra hlt
        have hj' := (mem_blockUnits hi).mpr ⟨hj, hbetween j hj hkj, by omega⟩
        simp [hunits] at hj'
      simp only [List.map_nil, hchilds, hunits, childEdges, List.getLast?_nil]
      by_cases hhandler : c.snapLeaders[i] ∈ c.handlerOffs
      · rw [if_neg (fun h => h.2 hhandler)]
        simp only [List.flatMap_nil, List.not_mem_nil, false_iff]
        rintro ⟨r, hr, -, hcut⟩
        have hend := hnone r hr.mem hr.lt
        have hrlt := boundary_lt (mem_starts.mp hr.mem).1
        rcases blockEnd_cases hi with ⟨hnext, heq⟩ | ⟨-, heq⟩
        · rw [heq] at hend
          exact hcut ⟨_, hhandler, _, List.getElem_mem hnext, Nat.le_refl _,
            getElem_lt c.snapLeaders_pairwise (by omega) hnext, hend⟩
        · rw [heq, codeBytes] at hend
          omega
      · rcases blockEnd_cases hi with ⟨hnext, heq⟩ | ⟨hlen, heq⟩
        · have hlt := getElem_lt c.snapLeaders_pairwise (Nat.lt_add_one i) hnext
          have hcut (r : Nat) : c.CutFrom c.snapLeaders[i] r ↔
              c.CutFrom c.snapLeaders[i + 1] r := by
            constructor
            · rintro ⟨m, hm, l, hl, hlow, hml, hle⟩
              have hne : c.snapLeaders[i] ≠ m := by
                rintro rfl
                exact hhandler hm
              have := blockEnd_le hi (handler_mem_snapLeaders hm) (by omega)
              exact ⟨m, hm, l, hl, by omega, hml, hle⟩
            · rintro ⟨m, hm, l, hl, hlow, hml, hle⟩
              exact ⟨m, hm, l, hl, by omega, hml, hle⟩
          rw [if_pos ⟨by omega, hhandler⟩, flatMap_childEdge, heq, landing_getElem hnext,
            ih hnext (by omega) (by omega) fun j hj hkj => by
              rw [← heq]
              exact hnone j hj hkj]
          simp only [hcut]
        · have hempty : ¬∃ r, c.IsNext k r ∧ s = 2 * r ∧ ¬c.CutFrom c.snapLeaders[i] r := by
            rintro ⟨r, hr, -, -⟩
            have hend := hnone r hr.mem hr.lt
            have := boundary_lt (mem_starts.mp hr.mem).1
            rw [heq, codeBytes] at hend
            omega
          simp only [hempty, iff_false]
          split
          · rename_i hcond
            rw [flatMap_childEdge, landing, findBlock_eq_none]
            · simp
            · intro hmem
              obtain ⟨j, hj, hstart⟩ := List.getElem_of_mem hmem
              have := getElem_le c.snapLeaders_pairwise (show j ≤ i by omega) hi
              have hlt : c.snapLeaders[i] < c.blockEnd i := hcond.1
              omega
          · simp

/-- The branch target of a jump or the case targets of a switch, as byte
offsets. -/
def snapTargets (c : CodeItem) (k : Nat) : List Nat :=
  let ri := c.rawAt k
  if isUnconditionalBranch ri.opcode || isConditionalBranch ri.opcode then [ri.branchTarget]
  else if isSwitch ri.opcode then
    match ri.payload with
    | none => []
    | some payload => (c.parsePayloadAt (payload / 2)).cases.map fun case =>
      castU4 (ri.byteOff + case.2 * 2)
  else []

/-- Control falls from the instruction at `k` to the one at byte `s`. -/
def FallsTo (c : CodeItem) (k s : Nat) : Prop :=
  ∃ r, c.IsNext k r ∧ s = 2 * r ∧ ¬c.CutFrom (2 * k + 1) r

theorem mem_landing_start (hc : c.Decodes) {t s fuel : Nat} (ht : t ∈ c.starts)
    (hleader : 2 * t ∈ c.snapLeaders) (hfuel : 0 < fuel) :
    s ∈ c.landing fuel (2 * t) ↔ s = 2 * t := by
  obtain ⟨i, hi, hstart⟩ := List.getElem_of_mem hleader
  obtain ⟨childs, hblock, -⟩ := getElem?_blocks hc hi
  have hmem : t ∈ c.blockUnits i :=
    (mem_blockUnits hi).mpr ⟨ht, Nat.le_of_eq hstart, lt_blockEnd hi ht hstart⟩
  rw [← hstart, landing_getElem hi]
  cases fuel with
  | zero => omega
  | succ fuel =>
    unfold blockEntry
    simp only [hblock]
    cases hunits : c.blockUnits i with
    | nil => simp [hunits] at hmem
    | cons first rest =>
      have hfirst : first ∈ c.blockUnits i := by simp [hunits]
      have hlow := ((mem_blockUnits hi).mp hfirst).2.1
      have hle : first ≤ t := by
        have hsorted : (c.blockUnits i).Pairwise (· < ·) := (starts_pairwise_units hc).filter _
        rw [hunits] at hmem hsorted
        exact head_le hsorted hmem
      simp only [List.map_cons, List.mem_singleton, byteOff_rawAt]
      omega

theorem computeLeaders_append (pre post : List RawIns) {l : Nat}
    (h : l ∈ c.computeLeaders post) : l ∈ c.computeLeaders (pre ++ post) := by
  induction pre with
  | nil => exact h
  | cons ri pre ih => exact List.mem_append_right _ ih

/-- The leaders the loop takes from the instruction at `k`. -/
theorem mem_snapLeaders_of_start (hc : c.Decodes) {k l : Nat} (hk : k ∈ c.starts)
    (h : ((isBlockTerminator (c.opcode k) || isConditionalBranch (c.opcode k) ||
        isSwitch (c.opcode k)) = true ∧ ∃ r, c.IsNext k r ∧ l = 2 * r) ∨
      ((c.rawAt k).branchTarget ≠ uint32Max ∧ l = (c.rawAt k).branchTarget) ∨
      l ∈ c.payloadLeaders (c.rawAt k)) : l ∈ c.snapLeaders := by
  obtain ⟨pre, post, hsplit⟩ := List.append_of_mem hk
  apply mem_ascending.mpr
  apply List.mem_append_left
  apply List.mem_append_right
  rw [hsplit, List.map_append, List.map_cons]
  apply computeLeaders_append
  unfold computeLeaders
  simp only [opcode_rawAt, List.mem_append]
  rcases h with ⟨hends, r, hr, rfl⟩ | ⟨htarget, rfl⟩ | hpayload
  · refine Or.inl (Or.inl (Or.inl ?_))
    rw [if_pos hends]
    have hsorted := starts_pairwise_units hc
    rw [hsplit] at hsorted
    obtain ⟨-, hafter, hbefore⟩ := List.pairwise_append.mp hsorted
    have hmem : r ∈ pre ++ k :: post := hsplit ▸ hr.mem
    have hlt := hr.lt
    cases post with
    | nil =>
      rcases List.mem_append.mp hmem with hpre | hpost
      · have := hbefore r hpre k List.mem_cons_self
        omega
      · have := List.mem_singleton.mp hpost
        omega
    | cons next rest =>
      have hknext : k < next := List.rel_of_pairwise_cons hafter List.mem_cons_self
      have hnext : next ∈ c.starts := by
        rw [hsplit]
        simp
      have hle := hr.le next hnext hknext
      have hge : next ≤ r := by
        rcases List.mem_append.mp hmem with hpre | hpost
        · have := hbefore r hpre k List.mem_cons_self
          omega
        · rcases List.mem_cons.mp hpost with heq | hpost
          · omega
          · rcases List.mem_cons.mp hpost with heq | hpost
            · omega
            · have htail := (List.pairwise_cons.mp hafter).2
              exact Nat.le_of_lt (List.rel_of_pairwise_cons htail hpost)
      simp only [List.map_cons, List.take_succ_cons, List.take_zero, List.map_nil,
        byteOff_rawAt, List.mem_singleton]
      omega
  · refine Or.inl (Or.inl (Or.inr ?_))
    rw [if_pos htarget]
    exact List.mem_singleton_self _
  · exact Or.inl (Or.inr hpayload)

theorem exists_snapBlock (hc : c.Decodes) {k : Nat} (hk : k ∈ c.starts) :
    ∃ b, ∃ h : b < c.snapLeaders.length, c.snapLeaders[b] ≤ 2 * k ∧ 2 * k < c.blockEnd b := by
  obtain ⟨first, rest, hfirst⟩ : ∃ first rest, c.starts = first :: rest :=
    List.exists_cons_of_ne_nil (List.ne_nil_of_mem hk)
  have hle : first ≤ k := by
    have hpair := starts_pairwise_units hc
    rw [hfirst] at hk hpair
    exact head_le hpair hk
  have hleader : 2 * first ∈ c.snapLeaders := by
    apply mem_ascending.mpr
    apply List.mem_append_left
    apply List.mem_append_left
    simp [hfirst]
  obtain ⟨b, hb⟩ := exists_segment c.snapLeaders_pairwise hleader
    (Nat.mul_le_mul_left 2 hle)
  obtain ⟨hlt, hlow, hup⟩ := (segmentOf_eq_some c.snapLeaders_pairwise).mp hb
  refine ⟨b, hlt, hlow, ?_⟩
  rcases blockEnd_cases hlt with ⟨hnext, heq⟩ | ⟨-, heq⟩
  · rw [heq]
    exact hup hnext
  · have := boundary_lt (mem_starts.mp hk).1
    rw [heq, codeBytes]
    omega

section Block

variable {k b : Nat} (hb : b < c.snapLeaders.length) (hlow : c.snapLeaders[b] ≤ 2 * k)
  (hup : 2 * k < c.blockEnd b)
include hb hlow hup

/-- The block of an instruction is the only one. -/
theorem block_unique {i : Nat} (hi : i < c.snapLeaders.length) (hmem : k ∈ c.blockUnits i) :
    i = b := by
  obtain ⟨-, hilow, hiup⟩ := (mem_blockUnits hi).mp hmem
  rcases Nat.lt_trichotomy i b with hlt | heq | hgt
  · have := blockEnd_le hi (List.getElem_mem hb) (getElem_lt c.snapLeaders_pairwise hlt hb)
    omega
  · exact heq
  · have := blockEnd_le hb (List.getElem_mem hi) (getElem_lt c.snapLeaders_pairwise hgt hi)
    omega

/-- Behind the last instruction of a block. -/
theorem mem_landing_end (hc : c.Decodes) {s fuel : Nat} (hfuel : c.snapLeaders.length ≤ fuel)
    (hlast : ∀ j ∈ c.starts, k < j → c.blockEnd b ≤ 2 * j) :
    s ∈ c.landing fuel (c.blockEnd b) ↔ c.FallsTo k s := by
  rcases blockEnd_cases hb with ⟨hnext, heq⟩ | ⟨hlen, heq⟩
  · rw [heq] at hlast hup
    rw [heq, landing_getElem hnext, mem_blockEntry hc hnext (by omega) hup hlast]
    have hcut (r : Nat) : c.CutFrom c.snapLeaders[b + 1] r ↔ c.CutFrom (2 * k + 1) r := by
      constructor
      · rintro ⟨m, hm, l, hl, hml, hlt, hle⟩
        exact ⟨m, hm, l, hl, by omega, hlt, hle⟩
      · rintro ⟨m, hm, l, hl, hml, hlt, hle⟩
        have hend := blockEnd_le hb (handler_mem_snapLeaders hm) (by omega)
        exact ⟨m, hm, l, hl, by omega, hlt, hle⟩
    simp only [hcut, FallsTo]
  · have hempty : ¬c.FallsTo k s := by
      rintro ⟨r, hr, -⟩
      have hend := hlast r hr.mem hr.lt
      have := boundary_lt (mem_starts.mp hr.mem).1
      rw [heq, codeBytes] at hend
      omega
    simp only [hempty, iff_false]
    rw [landing, findBlock_eq_none]
    · simp
    · intro hmem
      obtain ⟨j, hj, hstart⟩ := List.getElem_of_mem hmem
      have := getElem_le c.snapLeaders_pairwise (show j ≤ b by omega) hb
      omega

end Block

/-- The child edges of a block whose last instruction is at `k`. -/
theorem mem_childEdges_last {blk : RawBlock} {k s fuel : Nat}
    (hlast : blk.ins.getLast? = some (c.rawAt k)) :
    (s ∈ (c.childEdges c.split blk).flatMap fun edge => blockEntry c.blocks fuel edge.target) ↔
      (isBlockTerminator (c.opcode k) = false ∧ s ∈ c.landing fuel blk.endByte) ∨
        ∃ t ∈ c.snapTargets k, s ∈ c.landing fuel t := by
  unfold childEdges snapTargets isBlockTerminator
  simp only [hlast, opcode_rawAt]
  cases hreturn : isReturn (c.opcode k) with
  | true =>
    have hclass : isUnconditionalBranch (c.opcode k) = false ∧
        isConditionalBranch (c.opcode k) = false ∧ isSwitch (c.opcode k) = false := by
      simp only [isReturn, isUnconditionalBranch, isConditionalBranch, isSwitch] at hreturn ⊢
      simp at hreturn ⊢
      omega
    simp [hclass]
  | false =>
    cases hthrow : isThrow (c.opcode k) with
    | true =>
      have hclass : isUnconditionalBranch (c.opcode k) = false ∧
          isConditionalBranch (c.opcode k) = false ∧ isSwitch (c.opcode k) = false := by
        simp only [isThrow, isUnconditionalBranch, isConditionalBranch, isSwitch] at hthrow ⊢
        simp at hthrow ⊢
        omega
      simp [hclass]
    | false =>
      cases hunc : isUnconditionalBranch (c.opcode k) with
      | true => simp [flatMap_childEdge]
      | false =>
        cases hcond : isConditionalBranch (c.opcode k) with
        | true => simp [flatMap_childEdge]
        | false =>
          cases hswitch : isSwitch (c.opcode k) with
          | false => simp [flatMap_childEdge]
          | true =>
            cases hpayload : (c.rawAt k).payload with
            | none => simp [flatMap_childEdge]
            | some payload =>
              simp only [Bool.false_eq_true, if_false, Bool.or_self, if_true, byteOff_rawAt,
                List.flatMap_append, flatMap_childEdge, List.mem_append, true_and,
                List.flatMap_assoc, List.mem_flatMap, List.mem_map, exists_exists_and_eq_and]

/-- What is left of a block from the instruction at `k` on. -/
theorem dropWhile_blockUnits (hc : c.Decodes) (i k : Nat) :
    (((c.blockUnits i).map c.rawAt).map (·.byteOff)).dropWhile (fun o => decide (o ≠ 2 * k)) =
      if k ∈ c.blockUnits i then 2 * k :: ((c.blockUnits i).filter fun j => k < j).map (2 * ·)
      else [] := by
  have hsorted : (c.blockUnits i).Pairwise (· < ·) := (starts_pairwise_units hc).filter _
  have hmap : ((c.blockUnits i).map c.rawAt).map (·.byteOff) = (c.blockUnits i).map (2 * ·) := by
    simp [Function.comp_def]
  have hpred : ((fun o => decide (o ≠ 2 * k)) ∘ fun j => 2 * j) = fun j => decide (j ≠ k) := by
    funext j
    simp
  rw [hmap, List.dropWhile_map, hpred]
  split
  · rename_i hmem
    rw [dropWhile_ne hsorted hmem, List.map_cons]
  · rename_i hmem
    have hall : ∀ j ∈ c.blockUnits i, decide (j ≠ k) = true := by
      intro j hj
      have hne : j ≠ k := by
        rintro rfl
        exact hmem hj
      simpa using hne
    rw [List.dropWhile_eq_nil_iff.mpr hall, List.map_nil]

/-- Only the block of an instruction says anything of it. -/
theorem mem_snapshotSuccs_iff (hc : c.Decodes) {k b s : Nat} {blk : RawBlock}
    (hb : b < c.snapLeaders.length) (hlow : c.snapLeaders[b] ≤ 2 * k)
    (hup : 2 * k < c.blockEnd b) (hblock : c.blocks[b]? = some blk) :
    s ∈ snapshotSuccs c.blocks (2 * k) ↔ s ∈ blockSuccs c.blocks blk (2 * k) := by
  unfold snapshotSuccs
  rw [List.mem_flatMap]
  constructor
  · rintro ⟨other, hother, hs⟩
    obtain ⟨i, hi, rfl⟩ := List.getElem_of_mem hother
    rw [length_blocks] at hi
    obtain ⟨childs, hget, -⟩ := getElem?_blocks hc hi
    have heq := (List.getElem?_eq_some_iff.mp hget).2
    have hmem : k ∈ c.blockUnits i := by
      by_contra hnot
      rw [heq] at hs
      unfold blockSuccs at hs
      rw [dropWhile_blockUnits hc, if_neg hnot] at hs
      simp at hs
    have hib := block_unique hb hlow hup hi hmem
    subst hib
    rw [hget] at hblock
    rw [heq, Option.some.inj hblock] at hs
    exact hs
  · exact fun hs => ⟨blk, List.mem_of_getElem? hblock, hs⟩

/-- The last instruction of a block. -/
theorem getLast?_blockUnits (hc : c.Decodes) {i k : Nat} (hk : k ∈ c.blockUnits i)
    (hlast : (c.blockUnits i).filter (fun j => k < j) = []) :
    ((c.blockUnits i).map c.rawAt).getLast? = some (c.rawAt k) := by
  have hsorted : (c.blockUnits i).Pairwise (· < ·) := (starts_pairwise_units hc).filter _
  have hdrop := dropWhile_ne hsorted hk
  rw [hlast] at hdrop
  have hsuffix : [k] <:+ c.blockUnits i := hdrop ▸ List.dropWhile_suffix _
  obtain ⟨pre, hpre⟩ := hsuffix
  rw [← hpre, List.map_append]
  simp

/-- The successors a snapshot gives an instruction: the one it falls through to,
and its targets where these are instructions that start blocks. -/
theorem mem_snapshotSuccs (hc : c.Decodes) {k s : Nat} (hk : k ∈ c.starts)
    (htargets : ∀ t ∈ c.snapTargets k, t ∈ c.snapLeaders ∧ ∃ j ∈ c.starts, t = 2 * j) :
    s ∈ snapshotSuccs c.blocks (2 * k) ↔
      (isBlockTerminator (c.opcode k) = false ∧ c.FallsTo k s) ∨ s ∈ c.snapTargets k := by
  obtain ⟨b, hb, hlow, hup⟩ := exists_snapBlock hc hk
  obtain ⟨childs, hblock, hchilds⟩ := getElem?_blocks hc hb
  have hkb : k ∈ c.blockUnits b := (mem_blockUnits hb).mpr ⟨hk, hlow, hup⟩
  rw [mem_snapshotSuccs_iff hc hb hlow hup hblock]
  unfold blockSuccs
  rw [dropWhile_blockUnits hc, if_pos hkb]
  cases hrest : (c.blockUnits b).filter fun j => k < j with
  | nil =>
    have hlast (j : Nat) (hj : j ∈ c.starts) (hkj : k < j) : c.blockEnd b ≤ 2 * j := by
      by_contra hlt
      have hjb := (mem_blockUnits hb).mpr ⟨hj, by omega, by omega⟩
      have hin : j ∈ (c.blockUnits b).filter fun j => k < j :=
        List.mem_filter.mpr ⟨hjb, decide_eq_true hkj⟩
      rw [hrest] at hin
      simp at hin
    have hpos : 0 < c.blocks.length := by
      rw [length_blocks]
      omega
    simp only [List.map_nil]
    rw [hchilds, mem_childEdges_last (getLast?_blockUnits hc hkb hrest),
      mem_landing_end hb hlow hup hc (Nat.le_of_eq length_blocks.symm) hlast]
    apply or_congr_right
    constructor
    · rintro ⟨t, ht, hland⟩
      obtain ⟨hleader, j, hj, rfl⟩ := htargets t ht
      rw [(mem_landing_start hc hj hleader hpos).mp hland]
      exact ht
    · intro ht
      obtain ⟨hleader, j, hj, rfl⟩ := htargets s ht
      exact ⟨_, ht, (mem_landing_start hc hj hleader hpos).mpr rfl⟩
  | cons r rest =>
    have hin : r ∈ (c.blockUnits b).filter fun j => k < j := by
      rw [hrest]
      exact List.mem_cons_self
    obtain ⟨hrb, hkr⟩ := List.mem_filter.mp hin
    obtain ⟨hr, hrlow, hrup⟩ := (mem_blockUnits hb).mp hrb
    have hnext : c.IsNext k r := by
      refine ⟨hr, of_decide_eq_true hkr, fun j hj hkj => ?_⟩
      by_contra hlt
      have hjb := (mem_blockUnits hb).mpr ⟨hj, by omega, by omega⟩
      have hin : j ∈ (c.blockUnits b).filter fun j => k < j :=
        List.mem_filter.mpr ⟨hjb, decide_eq_true hkj⟩
      have hsorted : ((c.blockUnits b).filter fun j => k < j).Pairwise (· < ·) :=
        ((starts_pairwise_units hc).filter _).filter _
      rw [hrest] at hin hsorted
      have := head_le hsorted hin
      omega
    have hinside (l : Nat) (hl : l ∈ c.snapLeaders) (hkl : 2 * k < l) : 2 * r < l := by
      have := blockEnd_le hb hl (by omega)
      omega
    have hplain : isBlockTerminator (c.opcode k) = false ∧
        isConditionalBranch (c.opcode k) = false ∧ isSwitch (c.opcode k) = false := by
      by_contra hends
      have hleader := mem_snapLeaders_of_start hc hk (l := 2 * r)
        (Or.inl ⟨by revert hends; cases isBlockTerminator (c.opcode k) <;>
          cases isConditionalBranch (c.opcode k) <;> cases isSwitch (c.opcode k) <;> simp,
          r, hnext, rfl⟩)
      have := hinside _ hleader (by have := hnext.lt; omega)
      omega
    have hnone : c.snapTargets k = [] := by
      have hunc : isUnconditionalBranch (c.opcode k) = false := by
        have hterm := hplain.1
        unfold isBlockTerminator at hterm
        exact (Bool.or_eq_false_iff.mp hterm).2
      simp [snapTargets, hunc, hplain]
    simp only [List.map_cons, List.mem_singleton, hplain.1, hnone, List.not_mem_nil, or_false,
      true_and, FallsTo]
    constructor
    · rintro rfl
      refine ⟨r, hnext, rfl, ?_⟩
      rintro ⟨m, -, l, hl, hml, hlt, hle⟩
      have := hinside l hl (by omega)
      omega
    · rintro ⟨r', hr', rfl, -⟩
      have := hr'.le r hr hnext.lt
      have := hnext.le r' hr'.mem hr'.lt
      omega

end CodeItem

end Dexllm
