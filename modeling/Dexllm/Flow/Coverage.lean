import Dexllm.Flow.BlockSpans
import Dexllm.Flow.TryTables

/-!
Which handlers cover an instruction. `AttachExceptionHandlers` decides once for a
block, from its first byte: try starts begin a block and try ends do not, so the
handlers of a try that has ended still cover the rest of the block it ends in.
-/

namespace Dexllm

open Guarded Bytes Leaders Segments

namespace CodeItem

variable {c : CodeItem}

/-- Where a block of the snapshot starts, for any decoded instructions: the first
one, behind a branch or an end of flow, at a branch or case target, at the start of
a try and at a handler. -/
inductive StartsBlock (c : CodeItem) (ins : List RawIns) : Nat → Prop where
  | entry {ri : RawIns} (hri : ins.head? = some ri) : StartsBlock c ins ri.byteOff
  | behind {pre post : List RawIns} {ri next : RawIns} (hsplit : ins = pre ++ ri :: next :: post)
      (hends : (isBlockTerminator ri.opcode || isConditionalBranch ri.opcode ||
        isSwitch ri.opcode) = true) : StartsBlock c ins next.byteOff
  | target {ri : RawIns} (hri : ri ∈ ins) (hbranch : ri.branchTarget ≠ uint32Max) :
      StartsBlock c ins ri.branchTarget
  | payloadCase {ri : RawIns} {s : Nat} (hri : ri ∈ ins) (hs : s ∈ c.payloadLeaders ri) :
      StartsBlock c ins s
  | tryStart {item : ParsedTry} (hitem : item ∈ c.parseExceptions) :
      StartsBlock c ins item.startByte
  | handler {item : ParsedTry} {s : Nat} (hitem : item ∈ c.parseExceptions)
      (hs : s ∈ item.handlers) : StartsBlock c ins s

private theorem or_regroup {a b d e f g : Prop} :
    ((a ∨ b) ∨ d) ∨ e ∨ f ∨ g ↔ (a ∨ e) ∨ (b ∨ f) ∨ (d ∨ g) := by
  tauto

theorem mem_computeLeaders {ins : List RawIns} {l : Nat} :
    l ∈ c.computeLeaders ins ↔
      (∃ pre post ri next, ins = pre ++ ri :: next :: post ∧ (isBlockTerminator ri.opcode ||
        isConditionalBranch ri.opcode || isSwitch ri.opcode) = true ∧ l = next.byteOff) ∨
      (∃ ri ∈ ins, ri.branchTarget ≠ uint32Max ∧ l = ri.branchTarget) ∨
      ∃ ri ∈ ins, l ∈ c.payloadLeaders ri := by
  induction ins with
  | nil => simp [computeLeaders]
  | cons ri rest ih =>
    have hbehind : (∃ pre post rj next, ri :: rest = pre ++ rj :: next :: post ∧
        (isBlockTerminator rj.opcode || isConditionalBranch rj.opcode ||
          isSwitch rj.opcode) = true ∧ l = next.byteOff) ↔
        ((isBlockTerminator ri.opcode || isConditionalBranch ri.opcode ||
          isSwitch ri.opcode) = true ∧ ∃ next ∈ rest.head?, l = next.byteOff) ∨
        ∃ pre post rj next, rest = pre ++ rj :: next :: post ∧
          (isBlockTerminator rj.opcode || isConditionalBranch rj.opcode ||
            isSwitch rj.opcode) = true ∧ l = next.byteOff := by
      constructor
      · rintro ⟨pre, post, rj, next, hsplit, hends, rfl⟩
        cases pre with
        | nil =>
          obtain ⟨rfl, rfl⟩ := List.cons.inj hsplit
          exact Or.inl ⟨hends, next, rfl, rfl⟩
        | cons _ pre => exact Or.inr ⟨pre, post, rj, next, (List.cons.inj hsplit).2, hends, rfl⟩
      · rintro (⟨hends, next, hnext, rfl⟩ | ⟨pre, post, rj, next, rfl, hends, rfl⟩)
        · cases rest with
          | nil => cases hnext
          | cons next' post =>
            obtain rfl := Option.some.inj hnext
            exact ⟨[], post, ri, next', rfl, hends, rfl⟩
        · exact ⟨ri :: pre, post, rj, next, rfl, hends, rfl⟩
    have hhead : l ∈ (if isBlockTerminator ri.opcode || isConditionalBranch ri.opcode ||
        isSwitch ri.opcode then (rest.take 1).map (·.byteOff) else []) ↔
        (isBlockTerminator ri.opcode || isConditionalBranch ri.opcode ||
          isSwitch ri.opcode) = true ∧ ∃ next ∈ rest.head?, l = next.byteOff := by
      split
      · rename_i hends
        cases rest <;> simp [hends]
      · rename_i hends
        simp [hends]
    have htarget : l ∈ (if ri.branchTarget ≠ uint32Max then [ri.branchTarget] else []) ↔
        ri.branchTarget ≠ uint32Max ∧ l = ri.branchTarget := by
      split <;> simp_all
    rw [computeLeaders, hbehind]
    simp only [List.mem_append, ih, hhead, htarget, List.exists_mem_cons_iff]
    exact or_regroup

/-- The leaders are where blocks start. -/
theorem mem_leaders {ins : List RawIns} {l : Nat} : l ∈ c.leaders ins ↔ c.StartsBlock ins l := by
  rw [leaders, mem_ascending, List.mem_append, List.mem_append, mem_computeLeaders,
    List.mem_flatMap]
  constructor
  · rintro ((hentry | ⟨pre, post, ri, next, hsplit, hends, rfl⟩ | ⟨ri, hri, hbranch, rfl⟩ |
      ⟨ri, hri, hs⟩) | ⟨item, hitem, hl⟩)
    · cases ins with
      | nil => simp at hentry
      | cons ri rest =>
        obtain rfl : l = ri.byteOff := by simpa using hentry
        exact .entry rfl
    · exact .behind hsplit hends
    · exact .target hri hbranch
    · exact .payloadCase hri hs
    · obtain rfl | hl := List.mem_cons.mp hl
      · exact .tryStart hitem
      · exact .handler hitem hl
  · intro h
    cases h with
    | @entry ri hri =>
      refine Or.inl (Or.inl ?_)
      cases ins with
      | nil => cases hri
      | cons ri' rest =>
        obtain rfl := Option.some.inj hri
        simp
    | @behind pre post ri next hsplit hends =>
      exact Or.inl (Or.inr (Or.inl ⟨pre, post, ri, next, hsplit, hends, rfl⟩))
    | @target ri hri hbranch => exact Or.inl (Or.inr (Or.inr (Or.inl ⟨ri, hri, hbranch, rfl⟩)))
    | @payloadCase ri s hri hs => exact Or.inl (Or.inr (Or.inr (Or.inr ⟨ri, hri, hs⟩)))
    | @tryStart item hitem => exact Or.inr ⟨item, hitem, List.mem_cons_self⟩
    | @handler item s hitem hs => exact Or.inr ⟨item, hitem, List.mem_cons_of_mem _ hs⟩

section Blocks

theorem byteOff_rawIns (byteOff op : Nat) (d : Instruction) :
    (rawIns byteOff op d).byteOff = byteOff := by
  unfold rawIns
  split
  · dsimp only
    split <;> rfl
  · rfl

/-- The linear decode stores its instructions in order, inside the code. -/
theorem ordered_of_decodeAllFrom {fuel k : Nat} {ins : List RawIns}
    (h : c.decodeAllFrom fuel k = .ok ins) :
    ins.Pairwise (fun a b => a.byteOff < b.byteOff) ∧
      ∀ ri ∈ ins, 2 * k ≤ ri.byteOff ∧ ri.byteOff < c.codeBytes := by
  induction fuel generalizing k ins with
  | zero =>
    obtain rfl := Except.ok.inj h
    simp
  | succ fuel ih =>
    unfold decodeAllFrom at h
    split at h
    · rename_i hin
      obtain ⟨w, hw, h⟩ := bind_eq_ok.mp h
      have hpos : 0 < w := by
        unfold safeWidth at hw
        split at hw
        · cases hw
        · obtain ⟨w', -, hw⟩ := bind_eq_ok.mp hw
          split at hw
          · cases hw
          · obtain rfl := Except.ok.inj hw
            omega
      split at h
      · obtain ⟨hordered, hrange⟩ := ih h
        exact ⟨hordered, fun ri hri => ⟨by have := hrange ri hri; omega, (hrange ri hri).2⟩⟩
      · simp only [bind_eq_ok] at h
        obtain ⟨d, -, rest, hrest, h⟩ := h
        obtain rfl := Except.ok.inj h
        obtain ⟨hordered, hrange⟩ := ih hrest
        refine ⟨List.pairwise_cons.mpr ⟨fun ri hri => ?_, hordered⟩, fun ri hri => ?_⟩
        · rw [byteOff_rawIns]
          have := (hrange ri hri).1
          omega
        · obtain rfl | hri := List.mem_cons.mp hri
          · rw [byteOff_rawIns, codeBytes]
            omega
          · exact ⟨by have := (hrange ri hri).1; omega, (hrange ri hri).2⟩
    · obtain rfl := Except.ok.inj h
      simp

/-- A block holds the instructions that start inside it. -/
theorem blockIns_eq_within {ins : List RawIns}
    (hins : ins.Pairwise fun a b => a.byteOff < b.byteOff) {start end_ : Nat}
    (hend : ∀ ri ∈ ins, ri.byteOff = start → start < end_) :
    blockIns ins start end_ = within (·.byteOff) start end_ ins := by
  rw [← takeWhile_dropWhile hins, blockIns]
  have hsub : ∀ ri ∈ ins.dropWhile fun ri => ri.byteOff < start, ri ∈ ins :=
    fun ri hri => (List.dropWhile_sublist _).subset hri
  cases hdrop : ins.dropWhile fun ri => ri.byteOff < start with
  | nil => rfl
  | cons first rest =>
    have hfirst := hsub first (hdrop ▸ List.mem_cons_self)
    obtain hlt | hge := Nat.lt_or_ge first.byteOff end_
    · simp [hlt]
    · have hne : first.byteOff ≠ start := by
        rintro rfl
        have := hend first hfirst rfl
        omega
      simp [Nat.not_lt_of_le hge, hne]

variable {ins : List RawIns}

/-- A block of the snapshot: its first byte is a leader, and no other leader is
inside it. -/
structure IsBlock (c : CodeItem) (ins : List RawIns) (blk : RawBlock) : Prop where
  starts : c.StartsBlock ins blk.startByte
  within : ∀ ri, ri ∈ blk.ins ↔ ri ∈ ins ∧ blk.startByte ≤ ri.byteOff ∧ ri.byteOff < blk.endByte
  alone : ∀ s, c.StartsBlock ins s → s < blk.endByte → s ≤ blk.startByte

theorem isBlock_of_mem (hins : ins.Pairwise fun a b => a.byteOff < b.byteOff)
    (hrange : ∀ ri ∈ ins, ri.byteOff < c.codeBytes) {blk : RawBlock}
    (hblk : blk ∈ c.splitIntoBlocks ins) : c.IsBlock ins blk := by
  obtain ⟨i, hi, rfl⟩ := List.mem_map.mp hblk
  rw [List.mem_range] at hi
  have hleaders : (c.leaders ins).Pairwise (· < ·) := pairwise_ascending _
  have hstart : (c.leaders ins).getD i 0 = (c.leaders ins)[i] := List.getD_eq_getElem _ 0 hi
  have hnext : ∀ s, c.StartsBlock ins s → (c.leaders ins)[i] < s →
      (c.leaders ins).getD (i + 1) c.codeBytes ≤ s := by
    intro s hs hlt
    obtain ⟨hlen, hle⟩ := not_mem_between hleaders hi (mem_leaders.mpr hs) hlt
    rwa [List.getD_eq_getElem _ _ hlen]
  have hend : ∀ ri ∈ ins, ri.byteOff = (c.leaders ins).getD i 0 →
      (c.leaders ins).getD i 0 < (c.leaders ins).getD (i + 1) c.codeBytes := by
    intro ri hri hoff
    obtain hlen | hlen := Nat.lt_or_ge (i + 1) (c.leaders ins).length
    · rw [List.getD_eq_getElem _ _ hlen, hstart]
      exact getElem_lt hleaders (Nat.lt_succ_self i) hlen
    · rw [List.getD_eq_default _ _ hlen, ← hoff]
      exact hrange ri hri
  refine ⟨?_, fun ri => ?_, fun s hs hlt => ?_⟩
  · simp only [hstart]
    exact mem_leaders.mp (List.getElem_mem hi)
  · simp only [blockIns_eq_within hins hend]
    simp [Segments.within]
  · simp only [hstart] at hlt ⊢
    by_contra hgt
    have := hnext s hs (by omega)
    omega

/-- Every leader starts a block, and the lookup finds it. -/
theorem findBlock_of_startsBlock {s : Nat} (hs : c.StartsBlock ins s) :
    ∃ id blk, findBlockIdForByteOff (c.splitIntoBlocks ins) s = some id ∧
      (c.splitIntoBlocks ins)[id]? = some blk ∧ blk.startByte = s := by
  obtain ⟨i, hi, rfl⟩ := List.getElem_of_mem (mem_leaders.mpr hs)
  have hblk : ∃ blk ∈ c.splitIntoBlocks ins, (blk.startByte == (c.leaders ins)[i]) = true := by
    refine ⟨_, List.mem_map_of_mem (List.mem_range.mpr hi), ?_⟩
    simp only [List.getD_eq_getElem _ 0 hi, beq_self_eq_true]
  have hsome : ((c.splitIntoBlocks ins).findIdx? fun blk =>
      blk.startByte == (c.leaders ins)[i]).isSome = true := by
    rw [List.findIdx?_isSome]
    exact List.any_eq_true.mpr hblk
  obtain ⟨id, hid⟩ := Option.isSome_iff_exists.mp hsome
  obtain ⟨hlt, hfound, -⟩ := List.findIdx?_eq_some_iff_getElem.mp hid
  exact ⟨id, _, hid, List.getElem?_eq_getElem hlt, by simpa using hfound⟩

/-- Every instruction is in a block. -/
theorem exists_block_of_mem (hins : ins.Pairwise fun a b => a.byteOff < b.byteOff)
    (hrange : ∀ ri ∈ ins, ri.byteOff < c.codeBytes) {ri : RawIns} (hri : ri ∈ ins) :
    ∃ blk ∈ c.splitIntoBlocks ins, ri ∈ blk.ins := by
  have hleaders : (c.leaders ins).Pairwise (· < ·) := pairwise_ascending _
  obtain ⟨first, hfirst⟩ : ∃ first, ins.head? = some first := by
    cases ins with
    | nil => cases hri
    | cons first rest => exact ⟨first, rfl⟩
  have hle : first.byteOff ≤ ri.byteOff := by
    cases ins with
    | nil => cases hri
    | cons head rest =>
      obtain rfl := Option.some.inj hfirst
      obtain rfl | hri := List.mem_cons.mp hri
      · exact Nat.le_refl _
      · exact Nat.le_of_lt (List.rel_of_pairwise_cons hins hri)
  obtain ⟨i, hi⟩ := exists_segment hleaders (mem_leaders.mpr (.entry hfirst)) hle
  obtain ⟨hlen, hstart, hnext⟩ := (segmentOf_eq_some hleaders).mp hi
  have hmem := List.mem_map_of_mem (f := fun i =>
    { startByte := (c.leaders ins).getD i 0
      endByte := (c.leaders ins).getD (i + 1) c.codeBytes
      ins := blockIns ins ((c.leaders ins).getD i 0)
        ((c.leaders ins).getD (i + 1) c.codeBytes) : RawBlock }) (List.mem_range.mpr hlen)
  refine ⟨_, hmem, ((isBlock_of_mem hins hrange hmem).within ri).mpr ⟨hri, ?_, ?_⟩⟩
  · simp only [List.getD_eq_getElem _ 0 hlen]
    exact hstart
  · obtain hlast | hlast := Nat.lt_or_ge (i + 1) (c.leaders ins).length
    · simp only [List.getD_eq_getElem _ _ hlast]
      exact hnext hlast
    · simp only [List.getD_eq_default _ _ hlast]
      exact hrange ri hri

end Blocks

end CodeItem

/-- The handlers `AttachExceptionHandlers` gives a block: the type of each with the
block it leads to. -/
def attachHandlers (blocks : List RawBlock) (tries : List TypedTry) (blk : RawBlock) :
    List (Text × Nat) :=
  tries.flatMap fun pt =>
    if pt.startByte ≤ blk.startByte ∧ blk.startByte < pt.endByte then
      pt.handlers.flatMap fun ph =>
        match findBlockIdForByteOff blocks ph.handlerByteOff with
        | none => []
        | some id => [(ph.type, id)]
    else []

/-- A handler is attached to a block: one with its type leads to the block at its
address. -/
def Attached (blocks : List RawBlock) (tries : List TypedTry) (blk : RawBlock)
    (h : TypedHandler) : Prop :=
  ∃ id target, (h.type, id) ∈ attachHandlers blocks tries blk ∧ blocks[id]? = some target ∧
    target.startByte = h.handlerByteOff

/-- The handlers of the try_items with `start ≤ off < end`. -/
def Covered (tries : List TypedTry) (off : Nat) (h : TypedHandler) : Prop :=
  ∃ t ∈ tries, t.startByte ≤ off ∧ off < t.endByte ∧ h ∈ t.handlers

namespace CodeItem

variable {c : CodeItem}

/-- A try that has ended at or before `off` has a block start between its end and
`off`, or all its handlers cover `off` through other tries. -/
def EndedTriesApart (c : CodeItem) (ins : List RawIns) (tries : List TypedTry) (off : Nat) :
    Prop :=
  ∀ t ∈ tries, t.startByte ≤ off → t.endByte ≤ off →
    (∃ s, c.StartsBlock ins s ∧ t.endByte ≤ s ∧ s ≤ off) ∨ ∀ h ∈ t.handlers, Covered tries off h

section Coverage

variable {ins : List RawIns} {typeName : Nat → Text}

theorem starts_of_mem_tries {t : TypedTry} (ht : t ∈ c.parseTypedTries typeName) :
    c.StartsBlock ins t.startByte ∧ ∀ h ∈ t.handlers, c.StartsBlock ins h.handlerByteOff := by
  have hitem : t.offsets ∈ c.parseExceptions := by
    rw [← c.offsets_parseTypedTries typeName]
    exact List.mem_map_of_mem ht
  exact ⟨.tryStart hitem, fun h hh => .handler hitem (List.mem_map_of_mem hh)⟩

theorem findBlock_computeChildEdges (blocks : List RawBlock) (off : Nat) :
    findBlockIdForByteOff (c.computeChildEdges blocks) off = findBlockIdForByteOff blocks off := by
  rw [findBlockIdForByteOff, computeChildEdges, List.findIdx?_map]
  rfl

/-- What is attached to a block are the handlers of the tries that cover its first
byte: every handler starts a block. -/
theorem attached_iff {blk : RawBlock} {h : TypedHandler} :
    Attached (c.computeChildEdges (c.splitIntoBlocks ins)) (c.parseTypedTries typeName) blk h ↔
      Covered (c.parseTypedTries typeName) blk.startByte h := by
  constructor
  · rintro ⟨id, target, hattached, hid, htarget⟩
    obtain ⟨t, ht, hmem⟩ := List.mem_flatMap.mp hattached
    split at hmem
    · rename_i hcovers
      obtain ⟨ph, hph, hmem⟩ := List.mem_flatMap.mp hmem
      split at hmem
      · cases hmem
      · rename_i found hfound
        obtain ⟨htype, rfl⟩ := Prod.mk.inj (List.mem_singleton.mp hmem)
        obtain ⟨hlt, hstart, -⟩ := List.findIdx?_eq_some_iff_getElem.mp hfound
        rw [List.getElem?_eq_getElem hlt] at hid
        obtain rfl := Option.some.inj hid
        have haddr : h.handlerByteOff = ph.handlerByteOff := by
          rw [← htarget]
          simpa using hstart
        have heq : h = ph := by
          cases h
          cases ph
          simp_all
        exact ⟨t, ht, hcovers.1, hcovers.2, heq ▸ hph⟩
    · cases hmem
  · rintro ⟨t, ht, hstart, hend, hh⟩
    obtain ⟨id, target, hfind, hid, haddr⟩ :=
      findBlock_of_startsBlock ((@starts_of_mem_tries _ ins _ _ ht).2 h hh)
    have hblock : (c.computeChildEdges (c.splitIntoBlocks ins))[id]? =
        some { target with childs := c.childEdges (c.splitIntoBlocks ins) target } := by
      rw [computeChildEdges, List.getElem?_map, hid]
      rfl
    refine ⟨id, _, List.mem_flatMap.mpr ⟨t, ht, ?_⟩, hblock, haddr⟩
    · rw [if_pos ⟨hstart, hend⟩]
      refine List.mem_flatMap.mpr ⟨h, hh, ?_⟩
      rw [findBlock_computeChildEdges, hfind]
      exact List.mem_singleton_self _

/-- At an instruction of a block. -/
theorem coverage_iff {blk : RawBlock} (hblk : c.IsBlock ins blk) {ri : RawIns}
    (hri : ri ∈ blk.ins) :
    (∀ h, Covered (c.parseTypedTries typeName) blk.startByte h ↔
      Covered (c.parseTypedTries typeName) ri.byteOff h) ↔
      c.EndedTriesApart ins (c.parseTypedTries typeName) ri.byteOff := by
  obtain ⟨-, hlow, hhigh⟩ := (hblk.within ri).mp hri
  have hbefore {s : Nat} (hs : c.StartsBlock ins s) (hle : s ≤ ri.byteOff) : s ≤ blk.startByte :=
    hblk.alone s hs (Nat.lt_of_le_of_lt hle hhigh)
  constructor
  · intro hexact t ht hstart hend
    obtain hbetween | hinside := Nat.lt_or_ge blk.startByte t.endByte
    · refine Or.inr fun h hh => (hexact h).mp ⟨t, ht, ?_, hbetween, hh⟩
      exact hbefore (starts_of_mem_tries ht).1 hstart
    · exact Or.inl ⟨blk.startByte, hblk.starts, hinside, hlow⟩
  · intro hapart h
    constructor
    · rintro ⟨t, ht, hstart, hend, hh⟩
      obtain hcovers | hended := Nat.lt_or_ge ri.byteOff t.endByte
      · exact ⟨t, ht, by omega, hcovers, hh⟩
      · obtain ⟨s, hs, hle, hoff⟩ | hother := hapart t ht (by omega) hended
        · have := hbefore hs hoff
          omega
        · exact hother h hh
    · rintro ⟨t, ht, hstart, hend, hh⟩
      exact ⟨t, ht, hbefore (starts_of_mem_tries ht).1 hstart, by omega, hh⟩

end Coverage

end CodeItem

/-- A bare header with the code item of `const/4 v0, 0; const/4 v0, 0; return-void`, a
try over the first instruction and a catch-all at the last. -/
def endedTryImage : Memory :=
  List.replicate 32 0 ++ [147, 0, 0, 0] ++ List.replicate 76 0 ++
    [1, 0, 0, 0, 0, 0, 1, 0, 0, 0, 0, 0, 3, 0, 0, 0] ++ [0x12, 0, 0x12, 0, 0x0E, 0, 0, 0] ++
    [0, 0, 0, 0, 1, 0, 1, 0] ++ [1, 0, 2]

set_option maxRecDepth 20000 in
def endedTryVerifier : Verifier :=
  ⟨endedTryImage, 0, headerAt endedTryImage 0, ⟨0, 147, by decide⟩, true⟩

set_option maxRecDepth 1000 in
theorem endedTry_open : openVerifier endedTryImage 0 true = .ok endedTryVerifier := by
  rfl

/-- Its instructions. -/
def endedTryIns : List RawIns :=
  [{ byteOff := 0, opcode := 0x12 }, { byteOff := 2, opcode := 0x12 },
    { byteOff := 4, opcode := 0x0E }]

set_option maxRecDepth 20000 in
/-- The runs on the code item. -/
theorem endedTry_runs : endedTryVerifier.verifyCodeItem 112 = .ok () ∧
    (endedTryVerifier.codeItem 112).decodeAllFrom (endedTryVerifier.codeItem 112).insnsSize 0 =
      .ok endedTryIns ∧
    (endedTryVerifier.codeItem 112).parseTypedTries (fun _ => []) =
      [⟨136, 145, 0, 2, [⟨[], 4⟩]⟩] ∧
    (endedTryVerifier.codeItem 112).computeChildEdges
        ((endedTryVerifier.codeItem 112).splitIntoBlocks endedTryIns) =
      [⟨0, 4, endedTryIns.take 2, [⟨.fallthrough, 1⟩]⟩, ⟨4, 6, endedTryIns.drop 2, []⟩] := by
  decide

namespace CodeItem

end CodeItem

end Dexllm
