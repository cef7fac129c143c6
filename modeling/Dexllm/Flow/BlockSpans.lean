import Dexllm.Flow.SnapshotSpecs
import Dexllm.Lib.Segments

/-!
`SplitIntoBlocks` as it finds the span of a block: the table of instruction
starts by byte offset, the search for the first instruction at or behind a leader
the table misses, and the walk to the end of the block. Wherever the leaders fall,
the blocks partition the instructions.
-/

namespace Dexllm

open Leaders Segments

/-- An entry of `ins_storage`. -/
structure StoredIns extends RawIns where
  lengthBytes : Nat
  deriving DecidableEq, Repr

/-- A block as `SplitIntoBlocks` leaves it. -/
structure SpanBlock where
  startByte : Nat
  endByte : Nat
  lastLengthBytes : Nat := 0
  ins : List StoredIns := []
  startsOffInstruction : Bool := false
  deriving DecidableEq, Repr

namespace Spans

/-- `ins_idx_by_byte`: the index of the instruction that starts at a byte. -/
def insIdxByByte (storage : List StoredIns) : List (Option Nat) :=
  match storage.getLast? with
  | none => []
  | some last =>
    storage.zipIdx.foldl (fun table entry => table.set entry.1.byteOff (some entry.2))
      (List.replicate (last.byteOff + last.lengthBytes) none)

/-- `std::lower_bound` on the starts. -/
def lowerBound (storage : List StoredIns) (start : Nat) : Nat :=
  storage.findIdx fun ri => !decide (ri.byteOff < start)

/-- The walk from `first_idx` to the last instruction before `end_`. -/
def lastIdxFrom (end_ : Nat) : List StoredIns → (i lastIdx : Nat) → Nat
  | [], _, lastIdx => lastIdx
  | ri :: rest, i, lastIdx =>
    if ri.byteOff < end_ then lastIdxFrom end_ rest (i + 1) i else lastIdx

/-- The block from `start` to `end_`. -/
def splitBlock (storage : List StoredIns) (table : List (Option Nat)) (start end_ : Nat) :
    SpanBlock :=
  let hit := table.getD start none
  let firstIdx := match hit with
    | some i => some i
    | none =>
      let it := lowerBound storage start
      match storage[it]? with
      | some ri => if ri.byteOff < end_ then some it else none
      | none => none
  let off := hit.isNone && !storage.isEmpty
  match firstIdx with
  | none => { startByte := start, endByte := end_, startsOffInstruction := off }
  | some firstIdx =>
    let lastIdx := lastIdxFrom end_ (storage.drop firstIdx) firstIdx firstIdx
    { startByte := start
      endByte := end_
      ins := (storage.drop firstIdx).take (lastIdx - firstIdx + 1)
      lastLengthBytes := (storage[lastIdx]?.map (·.lengthBytes)).getD 0
      startsOffInstruction := off }

/-- `SplitIntoBlocks`, from the leaders in ascending order. -/
def splitIntoBlocks (storage : List StoredIns) (leaders : List Nat) (insnsByteSize : Nat) :
    List SpanBlock :=
  (spans insnsByteSize leaders).map fun span =>
    splitBlock storage (insIdxByByte storage) span.1 span.2

/-- What the linear decode stores: instructions with non-empty ranges that do not
overlap, in order and inside `insns[]`. -/
structure Stored (storage : List StoredIns) (insnsByteSize : Nat) : Prop where
  apart : storage.Pairwise fun a b => a.byteOff + a.lengthBytes ≤ b.byteOff
  nonempty : ∀ ri ∈ storage, 0 < ri.lengthBytes
  inside : ∀ ri ∈ storage, ri.byteOff + ri.lengthBytes ≤ insnsByteSize

theorem Stored.ordered {storage : List StoredIns} {insnsByteSize : Nat}
    (h : Stored storage insnsByteSize) : storage.Pairwise fun a b => a.byteOff < b.byteOff := by
  refine h.apart.imp_of_mem fun {a b} ha _ hab => ?_
  have := h.nonempty a ha
  omega

section Table

theorem getElem?_foldl_set (xs : List StoredIns) (k : Nat) (table : List (Option Nat)) (b : Nat)
    (hxs : xs.Pairwise fun a b => a.byteOff < b.byteOff) :
    ((xs.zipIdx k).foldl (fun table entry => table.set entry.1.byteOff (some entry.2)) table)[b]? =
      match xs.findIdx? fun ri => ri.byteOff = b with
      | none => table[b]?
      | some i => table[b]?.map fun _ => some (k + i) := by
  induction xs generalizing k table with
  | nil => rfl
  | cons ri xs ih =>
    obtain ⟨hhead, htail⟩ := List.pairwise_cons.mp hxs
    rw [List.zipIdx_cons, List.foldl_cons, ih _ _ htail, List.findIdx?_cons]
    by_cases hb : ri.byteOff = b
    · have hnone : xs.findIdx? (fun ri => ri.byteOff = b) = none := by
        rw [List.findIdx?_eq_none_iff]
        intro x hx
        have := hhead x hx
        simp only [decide_eq_false_iff_not]
        omega
      rw [hnone, if_pos (by simpa using hb), ← hb]
      obtain hlt | hge := Nat.lt_or_ge ri.byteOff table.length
      · simp [hlt]
      · simp [hge]
    · rw [if_neg (by simpa using hb)]
      cases xs.findIdx? fun ri => ri.byteOff = b with
      | none => simp [hb]
      | some i => simp [hb, Nat.add_comm, Nat.add_left_comm]

/-- The table gives an index exactly at the start of an instruction. -/
theorem insIdxByByte_eq {storage : List StoredIns} {insnsByteSize : Nat}
    (h : Stored storage insnsByteSize) (b : Nat) :
    (insIdxByByte storage).getD b none = storage.findIdx? fun ri => ri.byteOff = b := by
  unfold insIdxByByte
  cases hlast : storage.getLast? with
  | none =>
    rw [List.getLast?_eq_none_iff.mp hlast]
    rfl
  | some last =>
    have hmem := List.mem_of_getLast? hlast
    rw [List.getD_eq_getElem?_getD, getElem?_foldl_set _ _ _ _ h.ordered]
    cases hfind : storage.findIdx? fun ri => ri.byteOff = b with
    | none => grind
    | some i =>
      obtain ⟨hi, hb, -⟩ := List.findIdx?_eq_some_iff_getElem.mp hfind
      have hend : storage[i].byteOff < last.byteOff + last.lengthBytes := by
        have hpos := h.nonempty last hmem
        obtain hlt | heq := Nat.lt_or_eq_of_le (Nat.le_sub_one_of_lt hi)
        · have hlen : storage.length - 1 < storage.length := by omega
          have hord := List.pairwise_iff_getElem.mp h.ordered i (storage.length - 1) hi hlen hlt
          rw [List.getLast?_eq_getElem?, List.getElem?_eq_getElem hlen] at hlast
          rw [← Option.some.inj hlast] at hpos ⊢
          omega
        · rw [List.getLast?_eq_getElem?, List.getElem?_eq_getElem (by omega)] at hlast
          rw [← Option.some.inj hlast] at hpos ⊢
          simp only [← heq] at hpos ⊢
          omega
      simp only [decide_eq_true_eq] at hb
      simp [← hb, hend]

end Table

section Spans

variable {storage : List StoredIns} {insnsByteSize : Nat}

theorem lastIdxFrom_eq (end_ : Nat) (rest : List StoredIns) (i lastIdx : Nat) :
    lastIdxFrom end_ rest i lastIdx =
      match (rest.takeWhile fun ri => ri.byteOff < end_).length with
      | 0 => lastIdx
      | n + 1 => i + n := by
  induction rest generalizing i lastIdx with
  | nil => rfl
  | cons ri rest ih =>
    rw [lastIdxFrom]
    split
    · rename_i hlt
      rw [ih, List.takeWhile_cons_of_pos (by simpa using hlt), List.length_cons]
      cases (rest.takeWhile fun ri => ri.byteOff < end_).length with
      | zero => rfl
      | succ n => exact Nat.add_right_comm i 1 n
    · rename_i hge
      rw [List.takeWhile_cons_of_neg (by simpa using hge)]
      rfl

/-- The walk takes the instructions before the end of the block. -/
theorem take_lastIdx (end_ : Nat) (rest : List StoredIns) (i : Nat)
    (hfirst : ∀ ri ∈ rest.head?, ri.byteOff < end_) :
    rest.take (lastIdxFrom end_ rest i i - i + 1) =
      rest.takeWhile fun ri => ri.byteOff < end_ := by
  cases rest with
  | nil => rfl
  | cons ri rest =>
    have hri : ri.byteOff < end_ := hfirst ri rfl
    have htake : ((ri :: rest).takeWhile fun ri => ri.byteOff < end_).length =
        (rest.takeWhile fun ri => ri.byteOff < end_).length + 1 := by
      rw [List.takeWhile_cons_of_pos (by simpa using hri), List.length_cons]
    rw [lastIdxFrom_eq, htake]
    simp only [Nat.add_sub_cancel_left]
    rw [← htake]
    exact (List.prefix_iff_eq_take.mp (List.takeWhile_prefix _)).symm

/-- Both ways to the first instruction of a block lead to the first one at or
behind its start. -/
theorem drop_lowerBound (start : Nat) :
    storage.drop (lowerBound storage start) = storage.dropWhile fun ri => ri.byteOff < start :=
  List.dropWhile_eq_drop_findIdx_not.symm

theorem hit_eq_lowerBound (h : Stored storage insnsByteSize) {start i : Nat}
    (hit : (insIdxByByte storage).getD start none = some i) :
    i = lowerBound storage start ∧ ∃ ri, storage[i]? = some ri ∧ ri.byteOff = start := by
  rw [insIdxByByte_eq h] at hit
  obtain ⟨hi, hstart, hbefore⟩ := List.findIdx?_eq_some_iff_getElem.mp hit
  simp only [decide_eq_true_eq] at hstart
  refine ⟨?_, storage[i], List.getElem?_eq_getElem hi, hstart⟩
  refine ((List.findIdx_eq hi).mpr ⟨by simp [hstart], fun j hj => ?_⟩).symm
  have := List.pairwise_iff_getElem.mp h.ordered j i (by omega) hi hj
  simp only [Bool.not_eq_false', decide_eq_true_eq]
  omega

/-- A block holds the instructions that start inside it. -/
theorem splitBlock_ins (h : Stored storage insnsByteSize) {start end_ : Nat}
    (hend : ∀ ri ∈ storage, ri.byteOff = start → start < end_) :
    (splitBlock storage (insIdxByByte storage) start end_).ins =
      within (·.byteOff) start end_ storage := by
  rw [← takeWhile_dropWhile h.ordered]
  have hwalk (i : Nat) (hi : i = lowerBound storage start)
      (hfirst : ∀ ri, storage[i]? = some ri → ri.byteOff < end_) :
      (storage.drop i).take (lastIdxFrom end_ (storage.drop i) i i - i + 1) =
        (storage.dropWhile fun ri => ri.byteOff < start).takeWhile fun ri => ri.byteOff < end_ := by
    rw [take_lastIdx _ _ _ fun ri hri => hfirst ri (by rwa [List.head?_drop] at hri), hi,
      drop_lowerBound]
  unfold splitBlock
  cases hit : (insIdxByByte storage).getD start none with
  | some i =>
    obtain ⟨hi, ri, hri, hstart⟩ := hit_eq_lowerBound h hit
    refine hwalk i hi fun rj hrj => ?_
    obtain rfl : ri = rj := Option.some.inj (hri.symm.trans hrj)
    exact hstart ▸ hend ri (List.mem_of_getElem? hri) hstart
  | none =>
    -- past the last start, or a first instruction behind the end: nothing is taken
    have hnone (hge : ∀ ri, storage[lowerBound storage start]? = some ri → end_ ≤ ri.byteOff) :
        (storage.dropWhile fun ri => ri.byteOff < start).takeWhile
          (fun ri => ri.byteOff < end_) = [] := by
      rw [← drop_lowerBound]
      cases hdrop : storage.drop (lowerBound storage start) with
      | nil => rfl
      | cons ri rest =>
        have hri : storage[lowerBound storage start]? = some ri := by
          rw [← List.head?_drop, hdrop]
          rfl
        rw [List.takeWhile_cons_of_neg (by simpa using hge ri hri)]
    simp only
    cases hat : storage[lowerBound storage start]? with
    | none => exact (hnone (by simp [hat])).symm
    | some ri =>
      simp only
      obtain hlt | hge := Nat.lt_or_ge ri.byteOff end_
      · rw [if_pos hlt]
        refine hwalk _ rfl fun rj hrj => ?_
        obtain rfl : ri = rj := Option.some.inj (hat.symm.trans hrj)
        exact hlt
      · rw [if_neg (Nat.not_lt_of_le hge)]
        refine (hnone fun rj hrj => ?_).symm
        obtain rfl : ri = rj := Option.some.inj (hat.symm.trans hrj)
        exact hge

@[simp] theorem splitBlock_startByte (table : List (Option Nat)) (start end_ : Nat) :
    (splitBlock storage table start end_).startByte = start := by
  unfold splitBlock
  grind

@[simp] theorem splitBlock_endByte (table : List (Option Nat)) (start end_ : Nat) :
    (splitBlock storage table start end_).endByte = end_ := by
  unfold splitBlock
  grind

end Spans

/-- A leader at an instruction is before the end of its block. -/
theorem lt_of_mem_spans {leaders : List Nat} (hleaders : leaders.Pairwise (· < ·)) {stop : Nat}
    {span : Nat × Nat} (hspan : span ∈ spans stop leaders) (hstop : span.1 < stop) :
    span.1 < span.2 := by
  induction leaders with
  | nil => simp [spans] at hspan
  | cons leader rest ih =>
    obtain ⟨hhead, htail⟩ := List.pairwise_cons.mp hleaders
    obtain rfl | hspan := List.mem_cons.mp hspan
    · cases rest with
      | nil => exact hstop
      | cons next rest => exact hhead next (by simp)
    · exact ih htail hspan

/-- No instruction is dropped or duplicated, wherever the leaders fall: the blocks
in order hold the instructions of the method, each block those that start inside
it. -/
theorem split_into_blocks_partition (storage : List StoredIns) (insnsByteSize : Nat)
    (leaderByteOffs : List Nat) (h : Stored storage insnsByteSize)
    (hfirst : ∀ ri ∈ storage.head?, ri.byteOff ∈ leaderByteOffs) :
    ((splitIntoBlocks storage (ascending leaderByteOffs) insnsByteSize).flatMap (·.ins)) =
        storage ∧
      ∀ blk ∈ splitIntoBlocks storage (ascending leaderByteOffs) insnsByteSize,
        ∀ ri ∈ blk.ins, blk.startByte ≤ ri.byteOff ∧ ri.byteOff < blk.endByte := by
  have hleaders := pairwise_ascending leaderByteOffs
  have hblock : ∀ span ∈ spans insnsByteSize (ascending leaderByteOffs),
      (splitBlock storage (insIdxByByte storage) span.1 span.2).ins =
        within (·.byteOff) span.1 span.2 storage := by
    refine fun span hspan => splitBlock_ins h fun ri hri hoff => ?_
    have := h.inside ri hri
    have := h.nonempty ri hri
    exact lt_of_mem_spans hleaders hspan (by omega)
  refine ⟨?_, fun blk hblk ri hri => ?_⟩
  · rw [splitIntoBlocks, List.flatMap_map, List.flatMap_congr hblock]
    cases hasc : ascending leaderByteOffs with
    | nil =>
      cases storage with
      | nil => rfl
      | cons ri rest =>
        have hmem := mem_ascending.mpr (hfirst ri rfl)
        simp [hasc] at hmem
    | cons first rest =>
      rw [hasc] at hleaders
      rw [flatMap_spans h.ordered hleaders fun ri hri => by
        have := h.inside ri hri
        have := h.nonempty ri hri
        omega, List.filter_eq_self]
      intro ri hri
      cases storage with
      | nil => simp at hri
      | cons head tail =>
        have hmem := mem_ascending.mpr (hfirst head rfl)
        rw [hasc] at hmem
        have hle := head_le hleaders hmem
        have hhead : head.byteOff ≤ ri.byteOff := by
          obtain rfl | hri := List.mem_cons.mp hri
          · exact Nat.le_refl _
          · exact Nat.le_of_lt (List.rel_of_pairwise_cons h.ordered hri)
        exact decide_eq_true (Nat.le_trans hle hhead)
  · obtain ⟨span, hspan, rfl⟩ := List.mem_map.mp hblk
    rw [hblock span hspan] at hri
    simpa [within] using (List.mem_filter.mp hri).2

/-- Three instructions and a payload between them; leaders inside an instruction,
inside the payload and past the end. -/
def sampleStorage : List StoredIns :=
  [⟨{ byteOff := 4, opcode := 0x14 }, 6⟩, ⟨{ byteOff := 10, opcode := 0x12 }, 2⟩,
    ⟨{ byteOff := 20, opcode := 0x0E }, 2⟩]

theorem split_into_blocks_partition_sample :
    ((splitIntoBlocks sampleStorage (ascending [0, 4, 6, 14, 4294967280]) 22).flatMap (·.ins)) =
        sampleStorage ∧
      ∀ blk ∈ splitIntoBlocks sampleStorage (ascending [0, 4, 6, 14, 4294967280]) 22,
        ∀ ri ∈ blk.ins, blk.startByte ≤ ri.byteOff ∧ ri.byteOff < blk.endByte :=
  split_into_blocks_partition sampleStorage 22 [0, 4, 6, 14, 4294967280]
    ⟨by decide, by decide, by decide⟩ (by decide)

end Spans

namespace CodeItem

variable {c : CodeItem}

/-- The instructions the builder stores. -/
def stored (c : CodeItem) : List StoredIns :=
  c.starts.map fun k => { toRawIns := c.rawAt k, lengthBytes := 2 * c.getBytecodeWidth k }

theorem stored_of_decodes (hc : c.Decodes) : Spans.Stored c.stored c.codeBytes where
  apart := by
    rw [stored, List.pairwise_map]
    refine (starts_pairwise_units hc).imp_of_mem fun {i j} hi hj hij => ?_
    have := hc.apart (mem_starts.mp hi).1 (mem_starts.mp hj).1 hij
    simp only [byteOff_rawAt]
    omega
  nonempty := by
    intro ri hri
    obtain ⟨k, hk, rfl⟩ := List.mem_map.mp hri
    have := (hc.width k (mem_starts.mp hk).1).1
    simp only
    omega
  inside := by
    intro ri hri
    obtain ⟨k, hk, rfl⟩ := List.mem_map.mp hri
    have := (hc.width k (mem_starts.mp hk).1).2.1
    simp only [byteOff_rawAt, codeBytes]
    omega

/-- The blocks of the snapshot are those the span lookup finds. -/
theorem split_spans (hc : c.Decodes) :
    c.split = (Spans.splitIntoBlocks c.stored c.snapLeaders c.codeBytes).map fun blk =>
      { startByte := blk.startByte, endByte := blk.endByte, ins := blk.ins.map (·.toRawIns) } := by
  apply List.ext_getElem
  · simp [length_split, Spans.splitIntoBlocks]
  intro i hi hi'
  have hlen : i < c.snapLeaders.length := by
    rwa [length_split] at hi
  have hstart : c.snapLeaders.getD i 0 = c.snapLeaders[i] := List.getD_eq_getElem _ 0 hlen
  have hspan : (Spans.splitBlock c.stored (Spans.insIdxByByte c.stored) (c.snapLeaders.getD i 0)
      (c.blockEnd i)).ins.map (·.toRawIns) = (c.blockUnits i).map c.rawAt := by
    rw [Spans.splitBlock_ins (stored_of_decodes hc), within, stored, List.filter_map,
      List.map_map]
    · simp only [blockUnits, Function.comp_def, byteOff_rawAt]
    · intro ri hri hoff
      obtain ⟨k, hk, rfl⟩ := List.mem_map.mp hri
      simp only [byteOff_rawAt, hstart] at hoff
      rw [hstart, ← hoff]
      exact lt_blockEnd hlen hk hoff.symm
  simp only [Spans.splitIntoBlocks, List.map_map, List.getElem_map, Function.comp_apply,
    getElem_spans, Spans.splitBlock_startByte, Spans.splitBlock_endByte]
  simp only [split, splitIntoBlocks, List.getElem_map, List.getElem_range]
  rw [show c.snapLeaders.getD (i + 1) c.codeBytes = c.blockEnd i from rfl, hspan,
    ← blockIns_eq hc hlen]
  rfl

end CodeItem

end Dexllm
