import Dexllm.Core.DexItemSpecs
import Dexllm.Lib.Delimited

/-!
The scan of a class's static values for strings: a second walker over the
encoded arrays the verifier accepted, with a ULEB128 reader that keeps 64 bits
where the verifier's keeps 32.
-/

namespace Dexllm

open Guarded Bytes Leb128 Cursor

/-- The nesting cap of the scan. -/
def kScanMaxDepth : Nat := 16

/-- What a scan leaves: the cursor, the strings it collected, and the spans of
the values it went through, which the code does not keep. -/
structure StringScan where
  cursor : Nat
  spans : List ValueSpan := []
  ids : List Nat := []
  deriving DecidableEq, Repr

/-- Scan on from the cursor of `s`. -/
def StringScan.andThen (s : StringScan) (f : Nat → StringScan) : StringScan :=
  let t := f s.cursor
  ⟨t.cursor, s.spans ++ t.spans, s.ids ++ t.ids⟩

/-- `ScanUleb`. -/
def scanUleb (mem : Memory) (p : Nat) : Nat × Nat := readUleb 64 10 mem mem.length p

/-- `ScanIntLE`. -/
def scanIntLE (mem : Memory) (p nbytes : Nat) : Nat × Nat := readLE mem mem.length nbytes p

/-- `for (i = 0; i < size && p < end; ++i)` on `item`. -/
def scanElements (mem : Memory) (item : Nat → StringScan) : (size p : Nat) → StringScan
  | 0, p => ⟨p, [], []⟩
  | size + 1, p =>
    if p < mem.length then (item p).andThen (scanElements mem item size)
    else ⟨p, [], []⟩

/-- A name index, then a value. -/
def scanNamed (mem : Memory) (item : Nat → StringScan) (p : Nat) : StringScan :=
  item (scanUleb mem p).2

/-- The arms of `ScanEncodedValueStrings`, on a value whose header byte is
before `p`. -/
def scanPayload (mem : Memory) (item : Nat → StringScan) (type nbytes p : Nat) : StringScan :=
  match type with
  | 0x17 =>
    let (index, q) := scanIntLE mem p nbytes
    ⟨q, [], [index % 2 ^ 32]⟩
  | 0x1c =>
    let (size, q) := scanUleb mem p
    scanElements mem item size q
  | 0x1d =>
    let (_, q) := scanUleb mem p
    let (size, q) := scanUleb mem q
    scanElements mem (scanNamed mem item) size q
  | 0x1e | 0x1f => ⟨p, [], []⟩
  | _ => ⟨p + min nbytes (mem.length - p), [], []⟩

/-- `ScanEncodedValueStrings` with `left` levels below the nesting cap. -/
def scanEncodedValueStrings (mem : Memory) : (left p : Nat) → StringScan
  | 0, p => ⟨p, [], []⟩
  | left + 1, p =>
    if mem.length ≤ p then ⟨p, [], []⟩
    else
      let header := byteAt mem p
      let s := scanPayload mem (scanEncodedValueStrings mem left) (header &&& 0x1f)
        ((header >>> 5) + 1) (p + 1)
      { s with spans := ⟨kScanMaxDepth - left, p, s.cursor, header &&& 0x1f⟩ :: s.spans }

/-- `ScanClassDefStaticStrings`. -/
def scanClassDefStaticStrings (r : Reader) (cd : ClassDef) : Run StringScan :=
  if cd.staticValuesOff = 0 then pure ⟨0, [], []⟩
  else do
    let p ← r.dataPtr cd.staticValuesOff 1
    if r.image.length ≤ p then pure ⟨p, [], []⟩
    else
      let (count, p) := scanUleb r.image p
      pure (scanElements r.image (scanEncodedValueStrings r.image (kScanMaxDepth + 1)) count p)

/-- The string indices in a log. -/
def stringIds (log : List ValueVisit) : List Nat :=
  (log.filter fun visit => visit.type == 0x17).map ValueVisit.index

/-- The number at `p` with all its bits, at most 35 of them. -/
def WideUlebAt (mem : Memory) (p wide : Nat) : Prop :=
  ∃ n, IsUleb mem p n ∧ wide = ulebValue mem p n

/-- The size field of an array or an annotation is at `p`. -/
inductive SizeField (mem : Memory) (visit : ValueVisit) (p : Nat) : Prop where
  | array (htype : visit.type = 0x1c) (hp : p = visit.start + 1)
  | annotation {typeIdx : Nat} (htype : visit.type = 0x1d)
      (hp : UlebAt mem (visit.start + 1) typeIdx p)

/-- The size of a nested value fits 32 bits, or the elements it has too many of
are nowhere: the value ends the image, or it is an array at the nesting cap. -/
def SizeKept (mem : Memory) (visit : ValueVisit) : Prop :=
  ∀ p wide, SizeField mem visit p → WideUlebAt mem p wide →
    wide < 2 ^ 32 ∨ visit.stop = mem.length ∨ (visit.type = 0x1c ∧ visit.depth = kMaxDepth)

/-- The element count of the array at `p`, which ends at `stop`, fits 32 bits,
or the array ends the image. -/
def CountKept (mem : Memory) (p stop : Nat) : Prop :=
  ∀ wide, WideUlebAt mem p wide → wide < 2 ^ 32 ∨ stop = mem.length

section Scan

variable {mem : Memory} {p q value n : Nat}

theorem scanUleb_eq (h : UlebAt mem p value q) :
    ∃ wide, scanUleb mem p = (wide, q) ∧ WideUlebAt mem p wide ∧ wide % 2 ^ 32 = value := by
  obtain ⟨n, hn, hlen, rfl, rfl, hq⟩ := h
  refine ⟨ulebValue mem p n, ?_, ⟨n, hn, rfl⟩, rfl⟩
  have hpos := hn.pos
  have hwide : ulebValue mem p n < 2 ^ 64 :=
    lt_of_lt_of_le (ulebValue_lt mem p n) (Nat.pow_le_pow_right (by decide) (by omega))
  rw [scanUleb, readUleb_eq hn (by omega) (by omega), show min n (mem.length - p) = n by omega,
    Nat.mod_eq_of_lt hwide, show min (p + n) mem.length = p + n by omega]

theorem WideUlebAt.unique {wide wide' : Nat} (h : WideUlebAt mem p wide)
    (h' : WideUlebAt mem p wide') : wide = wide' := by
  obtain ⟨n, hn, rfl⟩ := h
  obtain ⟨m, hm, rfl⟩ := h'
  rw [hn.unique hm]

theorem scanElements_add (item : Nat → StringScan) (m : Nat) :
    scanElements mem item (n + m) p =
      (scanElements mem item n p).andThen (scanElements mem item m) := by
  induction n generalizing p with
  | zero => simp [scanElements, StringScan.andThen]
  | succ n ih =>
    rw [show n + 1 + m = (n + m) + 1 by omega, scanElements, scanElements]
    split
    · simp only [StringScan.andThen, ih, List.append_assoc]
    · rename_i hend
      cases m with
      | zero => simp [scanElements, StringScan.andThen]
      | succ m => simp [scanElements, StringScan.andThen, hend]

theorem scanElements_one (item : Nat → StringScan) (hp : p < mem.length) :
    scanElements mem item 1 p = item p := by
  simp [scanElements, StringScan.andThen, hp]

/-- A scan moves its cursor forward over the values it goes through. -/
structure Forward (mem : Memory) (item : Nat → StringScan) : Prop where
  le : ∀ p, p ≤ mem.length → p ≤ (item p).cursor ∧ (item p).cursor ≤ mem.length
  starts : ∀ p, p ≤ mem.length → ∀ span ∈ (item p).spans,
    p ≤ span.start ∧ span.start < (item p).cursor

theorem Forward.elements {item : Nat → StringScan} (h : Forward mem item) (n : Nat) :
    Forward mem (scanElements mem item n) := by
  induction n with
  | zero => exact ⟨fun p hp => ⟨le_rfl, hp⟩, fun p _ span hspan => by cases hspan⟩
  | succ n ih =>
    constructor
    · intro p hp
      rw [scanElements]
      split
      · have hitem := h.le p hp
        have hrest := ih.le (item p).cursor hitem.2
        exact ⟨le_trans hitem.1 hrest.1, hrest.2⟩
      · exact ⟨le_rfl, hp⟩
    · intro p hp
      rw [scanElements]
      split
      · have hitem := h.le p hp
        have hrest := ih.le (item p).cursor hitem.2
        intro span hspan
        simp only [StringScan.andThen] at hspan ⊢
        rcases List.mem_append.mp hspan with hspan | hspan
        · have hstart := h.starts p hp span hspan
          omega
        · have hstart := ih.starts (item p).cursor hitem.2 span hspan
          omega
      · intro span hspan
        cases hspan

theorem scanElements_of_end {item : Nat → StringScan} (h : mem.length ≤ p) :
    scanElements mem item n p = ⟨p, [], []⟩ := by
  cases n with
  | zero => rfl
  | succ n => rw [scanElements, if_neg (by omega)]

theorem scanElements_of_idle {item : Nat → StringScan} (h : item p = ⟨p, [], []⟩) :
    scanElements mem item n p = ⟨p, [], []⟩ := by
  induction n with
  | zero => rfl
  | succ n ih =>
    rw [scanElements]
    split
    · simp only [h, StringScan.andThen, ih, List.append_nil]
    · rfl

theorem stringIds_append (log log' : List ValueVisit) :
    stringIds (log ++ log') = stringIds log ++ stringIds log' := by
  simp [stringIds]

end Scan

/-- How a scan goes through the values of an item of the grammar. -/
structure Follows (mem : Memory) (scan : Nat → StringScan) (item : LoggedItem) : Prop where
  forward : Forward mem scan
  bounds : ∀ {p q log}, item p q log →
    p < q ∧ q ≤ mem.length ∧ ∀ visit ∈ log, p ≤ visit.start ∧ visit.start < q
  root : ∀ {p q log}, item p q log → ∃ visit nested spans, log = visit :: nested ∧
    visit.stop = q ∧
    (scan p).spans = ⟨visit.depth, visit.start, (scan p).cursor, visit.type⟩ :: spans
  kept : ∀ {p q log}, item p q log → (scan p).spans = log.map ValueVisit.span →
    ∀ visit ∈ log, SizeKept mem visit
  eq : ∀ {p q log}, item p q log → (∀ visit ∈ log, SizeKept mem visit) →
    scan p = ⟨q, log.map ValueVisit.span, stringIds log⟩

namespace Follows

variable {mem : Memory} {scan : Nat → StringScan} {item : LoggedItem} {p n q : Nat}
  {log : List ValueVisit} (h : Follows mem scan item)

include h

/-- A row of items whose sizes are kept is scanned to its end. -/
theorem elements_eq (hrow : Elements item p n q log)
    (hkept : ∀ visit ∈ log, SizeKept mem visit) :
    scanElements mem scan n p = ⟨q, log.map ValueVisit.span, stringIds log⟩ := by
  induction hrow with
  | nil => rfl
  | snoc hinit hlast ih =>
    have hinit' := ih fun visit hvisit => hkept visit (List.mem_append_left _ hvisit)
    have hlast' := h.eq hlast fun visit hvisit => hkept visit (List.mem_append_right _ hvisit)
    have hbounds := h.bounds hlast
    rw [scanElements_add, hinit']
    simp only [StringScan.andThen]
    rw [scanElements_one scan (by omega), hlast', List.map_append, stringIds_append]

/-- A scan that goes through the values of a row, and only later through
others, ends where the row ends, and the sizes in the row are kept. -/
theorem elements_kept (hrow : Elements item p n q log) (hp : p ≤ mem.length)
    {rest rest' : List ValueSpan}
    (heq : (scanElements mem scan n p).spans ++ rest' = log.map ValueVisit.span ++ rest)
    (hrest' : ∀ span ∈ rest', (scanElements mem scan n p).cursor ≤ span.start)
    (hrest : ∀ span ∈ rest, q ≤ span.start) :
    (scanElements mem scan n p).cursor = q ∧ rest' = rest ∧ ∀ visit ∈ log, SizeKept mem visit := by
  induction hrow generalizing rest rest' with
  | nil => exact ⟨rfl, heq, by simp⟩
  | snoc hinit hlast ih =>
    rename_i n q r log visits
    have hbounds := h.bounds hlast
    have hsplit := @scanElements_add mem p n scan 1
    have hfirst := (h.forward.elements n).le p hp
    rw [hsplit] at heq hrest' ⊢
    simp only [StringScan.andThen, List.map_append, List.append_assoc] at heq hrest' ⊢
    have hsecond := (h.forward.elements 1).le _ hfirst.2
    obtain ⟨hcursor, hlater, hkept⟩ := ih heq (fun span hspan => by
      rcases List.mem_append.mp hspan with hspan | hspan
      · exact ((h.forward.elements 1).starts _ hfirst.2 span hspan).1
      · exact le_trans hsecond.1 (hrest' span hspan)) (fun span hspan => by
      rcases List.mem_append.mp hspan with hspan | hspan
      · obtain ⟨visit, hvisit, rfl⟩ := List.mem_map.mp hspan
        exact (hbounds.2.2 visit hvisit).1
      · have hlate := hrest span hspan
        omega)
    rw [hcursor, scanElements_one scan (by omega)] at hlater hrest' ⊢
    -- the roots at `q` are equal, so the last item ends where the grammar's does
    obtain ⟨visit, nested, spans, hvisits, hstop, hspans⟩ := h.root hlast
    have hend : (scan q).cursor = r := by
      rw [hspans, hvisits] at hlater
      have hhead := (List.cons.inj hlater).1
      rw [← hstop]
      exact congrArg ValueSpan.stop hhead
    rw [hend] at hrest' ⊢
    obtain ⟨hsame, hlast'⟩ := @Delimited.cut_inj _ _ _ _ _ ValueSpan.start r
        (fun span hspan => by
          have hstart := (h.forward.starts q (by omega) span hspan).2
          omega)
        (fun span hspan => by
          obtain ⟨visit, hvisit, rfl⟩ := List.mem_map.mp hspan
          exact (hbounds.2.2 visit hvisit).2)
        hrest' hrest hlater
    refine ⟨rfl, hlast', fun visit hvisit => ?_⟩
    rcases List.mem_append.mp hvisit with hvisit | hvisit
    · exact hkept visit hvisit
    · exact h.kept hlast hsame visit hvisit

end Follows

section Named

variable {mem : Memory} {scan : Nat → StringScan} {item : LoggedItem} {limits : ValueLimits}

theorem Forward.named (h : Forward mem scan) : Forward mem (scanNamed mem scan) := by
  have hname {p : Nat} (hp : p ≤ mem.length) :
      p ≤ (scanUleb mem p).2 ∧ (scanUleb mem p).2 ≤ mem.length := readUleb_bounds 64 10 hp
  constructor
  · intro p hp
    have hscan := h.le _ (hname hp).2
    exact ⟨le_trans (hname hp).1 hscan.1, hscan.2⟩
  · intro p hp span hspan
    have hstart := h.starts _ (hname hp).2 span hspan
    exact ⟨le_trans (hname hp).1 hstart.1, hstart.2⟩

/-- A scan that follows the values follows them behind their names. -/
theorem Follows.named (h : Follows mem scan item) :
    Follows mem (scanNamed mem scan) (NamedValue mem limits item) := by
  have hskip {p nameIdx p1 : Nat} (hname : UlebAt mem p nameIdx p1) :
      scanNamed mem scan p = scan p1 := by
    obtain ⟨wide, hscan, _⟩ := scanUleb_eq hname
    rw [scanNamed, hscan]
  refine ⟨h.forward.named, ?_, ?_, ?_, ?_⟩
  · rintro p q log ⟨nameIdx, p1, hname, _, _, hvalue⟩
    have hbounds := h.bounds hvalue
    have hlt := hname.lt
    refine ⟨by omega, hbounds.2.1, fun visit hvisit => ?_⟩
    have hstart := hbounds.2.2 visit hvisit
    omega
  · rintro p q log ⟨nameIdx, p1, hname, _, _, hvalue⟩
    rw [hskip hname]
    exact h.root hvalue
  · rintro p q log ⟨nameIdx, p1, hname, _, _, hvalue⟩
    rw [hskip hname]
    exact h.kept hvalue
  · rintro p q log ⟨nameIdx, p1, hname, _, _, hvalue⟩
    rw [hskip hname]
    exact h.eq hvalue

end Named

section Payload

variable {mem : Memory} {scan : Nat → StringScan} {limits : ValueLimits} {type arg p n : Nat}

theorem scanPayload_plain (hwidth : plainWidth type arg = some n) (hstop : p + n ≤ mem.length) :
    scanPayload mem scan type (arg + 1) p = ⟨p + n, [], []⟩ ∧ type ≠ 0x17 ∧ type ≠ 0x1c ∧
      type ≠ 0x1d := by
  unfold plainWidth at hwidth
  split at hwidth
  all_goals try split at hwidth
  all_goals cases hwidth
  all_goals refine ⟨?_, by decide, by decide, by decide⟩
  all_goals simp only [scanPayload, StringScan.mk.injEq, and_true]
  all_goals omega

/-- An index is collected when it is a string's. -/
theorem scanPayload_index {limit : Nat} (hindex : limits.index type = some limit) (harg : arg ≤ 3)
    (hstop : p + (arg + 1) ≤ mem.length) :
    scanPayload mem scan type (arg + 1) p =
        ⟨p + (arg + 1), [], if type = 0x17 then [leValue mem p (arg + 1)] else []⟩ ∧
      type ≠ 0x1c ∧ type ≠ 0x1d := by
  have hlt : leValue mem p (arg + 1) < 2 ^ 32 :=
    lt_of_lt_of_le (leValue_lt mem p (arg + 1)) (Nat.pow_le_pow_right (by decide) (by omega))
  unfold ValueLimits.index at hindex
  split at hindex
  all_goals cases hindex
  all_goals refine ⟨?_, by decide, by decide⟩
  case h_3 =>
    rw [scanPayload, scanIntLE, readLE_eq hstop]
    simp only [Nat.mod_eq_of_lt hlt, if_true]
  all_goals
    simp only [scanPayload, StringScan.mk.injEq, true_and]
    exact ⟨by omega, rfl⟩

/-- The values inside a payload are scanned forward from its start. -/
theorem scanPayload_forward (h : Forward mem scan) (type nbytes : Nat) (hp : p ≤ mem.length) :
    p ≤ (scanPayload mem scan type nbytes p).cursor ∧
      (scanPayload mem scan type nbytes p).cursor ≤ mem.length ∧
      ∀ span ∈ (scanPayload mem scan type nbytes p).spans,
        p ≤ span.start ∧ span.start < (scanPayload mem scan type nbytes p).cursor := by
  have huleb {q : Nat} (hq : q ≤ mem.length) :
      q ≤ (scanUleb mem q).2 ∧ (scanUleb mem q).2 ≤ mem.length := readUleb_bounds 64 10 hq
  have hrow {item : Nat → StringScan} (hitem : Forward mem item) (n : Nat) {q : Nat} (hpq : p ≤ q)
      (hq : q ≤ mem.length) : p ≤ (scanElements mem item n q).cursor ∧
        (scanElements mem item n q).cursor ≤ mem.length ∧
        ∀ span ∈ (scanElements mem item n q).spans,
          p ≤ span.start ∧ span.start < (scanElements mem item n q).cursor := by
    have hle := (hitem.elements n).le q hq
    refine ⟨by omega, hle.2, fun span hspan => ?_⟩
    have hstart := (hitem.elements n).starts q hq span hspan
    omega
  have hsize := huleb hp
  unfold scanPayload
  split
  · have hindex := @readLE_bounds mem _ _ nbytes hp
    exact ⟨hindex.1, hindex.2, by simp⟩
  · exact hrow h _ hsize.1 hsize.2
  · have hsize' := huleb hsize.2
    exact hrow h.named _ (le_trans hsize.1 hsize'.1) hsize'.2
  · exact ⟨le_rfl, hp, by simp⟩
  · exact ⟨le_rfl, hp, by simp⟩
  · refine ⟨by simp, ?_, by simp⟩
    simp only
    omega

/-- Elements past the ones of the grammar leave no trace only if there are none
of them, or no room for one, or they are below the nesting cap. -/
theorem scanElements_excess {item : Nat → StringScan} (h : Forward mem item) {extra q : Nat}
    (hq : q ≤ mem.length) (hstay : (scanElements mem item extra q).cursor = q) :
    extra = 0 ∨ q = mem.length ∨ (item q).cursor = q := by
  cases extra with
  | zero => exact .inl rfl
  | succ extra =>
    by_cases hend : q = mem.length
    · exact .inr (.inl hend)
    · rw [scanElements, if_pos (by omega)] at hstay
      have hfirst := h.le q hq
      have hrest := (h.elements extra).le _ hfirst.2
      simp only [StringScan.andThen] at hstay
      exact .inr (.inr (by omega))

end Payload

section Values

variable {mem : Memory} {limits : ValueLimits} {left p q : Nat} {log : List ValueVisit}

theorem scan_succ (hp : p < mem.length) :
    scanEncodedValueStrings mem (left + 1) p =
      let s := scanPayload mem (scanEncodedValueStrings mem left) (byteAt mem p &&& 0x1f)
        ((byteAt mem p >>> 5) + 1) (p + 1)
      { s with
        spans := ⟨kScanMaxDepth - left, p, s.cursor, byteAt mem p &&& 0x1f⟩ :: s.spans } := by
  rw [scanEncodedValueStrings, if_neg (by omega)]

theorem scan_forward (left : Nat) : Forward mem (scanEncodedValueStrings mem left) := by
  induction left with
  | zero => exact ⟨fun p hp => ⟨le_rfl, hp⟩, fun p _ span hspan => by cases hspan⟩
  | succ left ih =>
    constructor
    · intro p hp
      by_cases hend : mem.length ≤ p
      · rw [scanEncodedValueStrings, if_pos hend]
        exact ⟨le_rfl, hp⟩
      · have hpayload := scanPayload_forward ih (byteAt mem p &&& 0x1f) ((byteAt mem p >>> 5) + 1)
          (show p + 1 ≤ mem.length by omega)
        rw [scan_succ (by omega)]
        exact ⟨by simp only; omega, hpayload.2.1⟩
    · intro p hp
      by_cases hend : mem.length ≤ p
      · rw [scanEncodedValueStrings, if_pos hend]
        intro span hspan
        cases hspan
      · have hpayload := scanPayload_forward ih (byteAt mem p &&& 0x1f) ((byteAt mem p >>> 5) + 1)
          (show p + 1 ≤ mem.length by omega)
        rw [scan_succ (by omega)]
        intro span hspan
        simp only at hspan ⊢
        rcases List.mem_cons.mp hspan with rfl | hspan
        · simp only
          omega
        · have hstart := hpayload.2.2 span hspan
          omega

/-- Above the nesting cap a value that is there is scanned. -/
theorem lt_scan (hp : p < mem.length) : p < (scanEncodedValueStrings mem (left + 1) p).cursor := by
  have hpayload := scanPayload_forward (scan_forward left) (byteAt mem p &&& 0x1f)
    ((byteAt mem p >>> 5) + 1) (show p + 1 ≤ mem.length by omega)
  rw [scan_succ hp]
  exact hpayload.1

theorem lt_scanNamed (hp : p < mem.length) :
    p < (scanNamed mem (scanEncodedValueStrings mem left) p).cursor := by
  have hname := @readUleb_bounds mem _ _ 64 10 (Nat.le_of_lt hp)
  have hlt := @lt_readUleb mem _ _ 64 9 hp
  have hscan := (@scan_forward mem left).le _ hname.2
  exact lt_of_lt_of_le hlt hscan.1

/-- A row inside a payload, with the elements its wide size adds: what equal
spans say about it. -/
theorem Follows.row_kept {scan : Nat → StringScan} {item : LoggedItem} {n wide : Nat}
    (h : Follows mem scan item) (hrow : Elements item p n q log) (hp : p ≤ mem.length)
    (hq : q ≤ mem.length) (hwide : wide % 2 ^ 32 = n)
    (hcursor : (scanElements mem scan wide p).cursor = q)
    (hspans : (scanElements mem scan wide p).spans = log.map ValueVisit.span) :
    (wide < 2 ^ 32 ∨ q = mem.length ∨ (scan q).cursor = q) ∧
      ∀ visit ∈ log, SizeKept mem visit := by
  obtain ⟨extra, rfl⟩ : ∃ extra, wide = n + extra := ⟨wide - n, by omega⟩
  rw [scanElements_add] at hcursor hspans
  simp only [StringScan.andThen] at hcursor hspans
  have hfirst := (h.forward.elements n).le p hp
  obtain ⟨hend, _, hkept⟩ := @Follows.elements_kept _ _ _ _ _ _ _ h hrow hp [] _
      (by rw [List.append_nil]; exact hspans)
      (fun span hspan => ((h.forward.elements extra).starts _ hfirst.2 span hspan).1) (by simp)
  rw [hend] at hcursor
  refine ⟨?_, hkept⟩
  rcases scanElements_excess h.forward hq hcursor with hnone | hmore
  · exact .inl (by omega)
  · exact .inr hmore

/-- A row whose wide size adds nothing is scanned to its end. -/
theorem Follows.row_eq {scan : Nat → StringScan} {item : LoggedItem} {n wide : Nat}
    (h : Follows mem scan item) (hrow : Elements item p n q log) (hwide : wide % 2 ^ 32 = n)
    (hkept : ∀ visit ∈ log, SizeKept mem visit)
    (hsize : wide < 2 ^ 32 ∨ q = mem.length ∨ scan q = ⟨q, [], []⟩) :
    scanElements mem scan wide p = ⟨q, log.map ValueVisit.span, stringIds log⟩ := by
  obtain ⟨extra, rfl⟩ : ∃ extra, wide = n + extra := ⟨wide - n, by omega⟩
  have hexcess : scanElements mem scan extra q = ⟨q, [], []⟩ := by
    rcases hsize with hsmall | hend | hidle
    · rw [show extra = 0 by omega]
      rfl
    · exact scanElements_of_end (by omega)
    · exact scanElements_of_idle hidle
  rw [scanElements_add, h.elements_eq hrow hkept]
  simp only [StringScan.andThen, hexcess, List.append_nil]

/-- The size field of a payload in an array or annotation value. -/
theorem sizeKept_iff_of_field {visit : ValueVisit} {p1 wide : Nat}
    (hfield : SizeField mem visit p1) (hwide : WideUlebAt mem p1 wide) :
    SizeKept mem visit ↔ wide < 2 ^ 32 ∨ visit.stop = mem.length ∨
      (visit.type = 0x1c ∧ visit.depth = kMaxDepth) := by
  refine ⟨fun h => h p1 wide hfield hwide, fun h p' wide' hfield' hwide' => ?_⟩
  have hp : p' = p1 := by
    cases hfield with
    | array htype hp =>
      cases hfield' with
      | array _ hp' => rw [hp, hp']
      | annotation htype' _ => omega
    | annotation htype hp =>
      cases hfield' with
      | array htype' _ => omega
      | annotation _ hp' => exact (hp'.unique hp).2
  subst hp
  rwa [hwide'.unique hwide]

theorem sizeKept_of_type {visit : ValueVisit} (harray : visit.type ≠ 0x1c)
    (hnamedElements : visit.type ≠ 0x1d) : SizeKept mem visit := by
  intro p wide hfield
  cases hfield with
  | array htype _ => exact absurd htype harray
  | annotation htype _ => exact absurd htype hnamedElements

/-- Equal spans below a header byte mean that every size there is kept. -/
theorem payload_kept (ih : Follows mem (scanEncodedValueStrings mem left)
      (ValueAt mem limits left)) {type arg index : Nat} {nested : List ValueVisit}
    (hpayload : Payload mem limits (ValueAt mem limits left) type arg (p + 1) q index nested)
    (hq : q ≤ mem.length)
    (hcursor : (scanPayload mem (scanEncodedValueStrings mem left) type (arg + 1)
      (p + 1)).cursor = q)
    (hspans : (scanPayload mem (scanEncodedValueStrings mem left) type (arg + 1) (p + 1)).spans =
      nested.map ValueVisit.span) :
    ∀ visit ∈ ⟨kMaxDepth - left, p, q, type, index⟩ :: nested, SizeKept mem visit := by
  have hroot (hkept : SizeKept mem ⟨kMaxDepth - left, p, q, type, index⟩)
      (hnested : ∀ visit ∈ nested, SizeKept mem visit) :
      ∀ visit ∈ ⟨kMaxDepth - left, p, q, type, index⟩ :: nested, SizeKept mem visit := by
    intro visit hvisit
    rcases List.mem_cons.mp hvisit with rfl | hvisit
    · exact hkept
    · exact hnested visit hvisit
  cases hpayload with
  | plain hwidth hend =>
    obtain ⟨_, _, harray, hnamedElements⟩ := @scanPayload_plain mem
        (scanEncodedValueStrings mem left) _ _ _ _ hwidth (show _ ≤ mem.length by omega)
    exact hroot (sizeKept_of_type harray hnamedElements) (by simp)
  | index hindex harg hend hlimit =>
    obtain ⟨_, harray, hnamedElements⟩ := @scanPayload_index mem (scanEncodedValueStrings mem left)
        _ _ _ _ _ hindex harg (show _ ≤ mem.length by omega)
    exact hroot (sizeKept_of_type harray hnamedElements) (by simp)
  | array htype _ hsize _ helements =>
    subst htype
    rename_i size p1
    obtain ⟨wide, hscan, hwide, hmod⟩ := scanUleb_eq hsize
    simp only [scanPayload, hscan] at hcursor hspans
    obtain ⟨hexcess, hnested⟩ := ih.row_kept helements hsize.le_length hq hmod hcursor hspans
    refine hroot ((sizeKept_iff_of_field (.array rfl rfl) hwide).mpr ?_) hnested
    rcases hexcess with hsmall | hend | hidle
    · exact .inl hsmall
    · exact .inr (.inl hend)
    · by_cases hend : q = mem.length
      · exact .inr (.inl hend)
      · cases left with
        | zero => exact .inr (.inr ⟨rfl, rfl⟩)
        | succ left =>
          have hlt := @lt_scan mem left _ (show q < mem.length by omega)
          omega
  | annotation htype _ htypeIdx _ hsize _ helements =>
    subst htype
    rename_i typeIdx p1 size p2
    obtain ⟨_, hscan, _⟩ := scanUleb_eq htypeIdx
    obtain ⟨wide, hscan', hwide, hmod⟩ := scanUleb_eq hsize
    simp only [scanPayload, hscan, hscan'] at hcursor hspans
    obtain ⟨hexcess, hnested⟩ := ih.named.row_kept helements hsize.le_length hq hmod hcursor hspans
    refine hroot ((sizeKept_iff_of_field ( SizeField.annotation rfl htypeIdx) hwide).mpr ?_) hnested
    rcases hexcess with hsmall | hend | hidle
    · exact .inl hsmall
    · exact .inr (.inl hend)
    · by_cases hend : q = mem.length
      · exact .inr (.inl hend)
      · have hlt := @lt_scanNamed mem left _ (show q < mem.length by omega)
        omega

variable (hstop : limits.stop ≤ mem.length)

include hstop

/-- Below a header byte the scan reads what the grammar says, if every size is
kept. -/
theorem payload_eq (ih : Follows mem (scanEncodedValueStrings mem left)
      (ValueAt mem limits left)) {type arg index : Nat} {nested : List ValueVisit}
    (hpayload : Payload mem limits (ValueAt mem limits left) type arg (p + 1) q index nested)
    (hkept : ∀ visit ∈ ⟨kMaxDepth - left, p, q, type, index⟩ :: nested, SizeKept mem visit) :
    scanPayload mem (scanEncodedValueStrings mem left) type (arg + 1) (p + 1) =
      ⟨q, nested.map ValueVisit.span,
        stringIds (⟨kMaxDepth - left, p, q, type, index⟩ :: nested)⟩ := by
  have hroot := hkept _ List.mem_cons_self
  have hnested : ∀ visit ∈ nested, SizeKept mem visit := fun visit hvisit =>
    hkept visit (List.mem_cons_of_mem _ hvisit)
  cases hpayload with
  | plain hwidth hend =>
    obtain ⟨hscan, hstring, _⟩ := @scanPayload_plain mem (scanEncodedValueStrings mem left) _ _ _
        _ hwidth (le_trans hend hstop)
    rw [hscan]
    simp [stringIds, hstring]
  | index hindex harg hend hlimit =>
    obtain ⟨hscan, _⟩ := @scanPayload_index mem (scanEncodedValueStrings mem left) _ _ _ _ _
        hindex harg (le_trans hend hstop)
    rw [hscan]
    by_cases hstring : type = 0x17 <;> simp [stringIds, hstring]
  | array htype _ hsize _ helements =>
    subst htype
    obtain ⟨wide, hscan, hwide, hmod⟩ := scanUleb_eq hsize
    have hsize' := (sizeKept_iff_of_field (.array rfl rfl) hwide).mp hroot
    simp only [scanPayload, hscan]
    rw [ih.row_eq helements hmod hnested]
    · rfl
    rcases hsize' with hsmall | hend | ⟨_, hdepth⟩
    · exact .inl hsmall
    · exact .inr (.inl hend)
    · refine .inr (.inr ?_)
      have hleft : left = 0 := by
        simp only [kMaxDepth] at hdepth
        omega
      subst hleft
      rfl
  | annotation htype _ htypeIdx _ hsize _ helements =>
    subst htype
    obtain ⟨_, hscan, _⟩ := scanUleb_eq htypeIdx
    obtain ⟨wide, hscan', hwide, hmod⟩ := scanUleb_eq hsize
    have hsize' := (sizeKept_iff_of_field ( SizeField.annotation rfl htypeIdx) hwide).mp hroot
    simp only [scanPayload, hscan, hscan']
    rw [ih.named.row_eq helements hmod hnested]
    · rfl
    rcases hsize' with hsmall | hend | ⟨htype, _⟩
    · exact .inl hsmall
    · exact .inr (.inl hend)
    · exact absurd htype (by simp)

/-- The scan follows the values of the grammar at every nesting level. -/
theorem scan_follows (left : Nat) :
    Follows mem (scanEncodedValueStrings mem left) (ValueAt mem limits left) := by
  induction left with
  | zero => exact ⟨scan_forward 0, fun h => h.elim, fun h => h.elim, fun h => h.elim,
      fun h => h.elim⟩
  | succ left ih =>
    refine ⟨scan_forward _, ?_, ?_, ?_, ?_⟩
    · intro p q log hvalue
      have hbounds := hvalue.bounds
      exact ⟨hbounds.1, by omega, hvalue.starts⟩
    · rintro p q log ⟨hp, index, nested, _, rfl⟩
      rw [scan_succ (by omega)]
      exact ⟨_, nested, _, rfl, rfl, rfl⟩
    · intro p q log hvalue hspans
      have hq := hvalue.bounds.2
      obtain ⟨hp, index, nested, hpayload, rfl⟩ := hvalue
      rw [scan_succ (by omega)] at hspans
      simp only [List.map_cons, List.cons.injEq, ValueVisit.span, ValueSpan.mk.injEq, true_and,
        and_true] at hspans
      exact payload_kept ih hpayload (by omega) hspans.1.2 hspans.2
    · rintro p q log ⟨hp, index, nested, hpayload, rfl⟩ hkept
      rw [scan_succ (by omega)]
      simp only [payload_eq hstop ih hpayload hkept, List.map_cons]
      rfl

end Values

section Main

variable {v : Verifier} {r : Reader} {cd : ClassDef} {methodHandleCount q : Nat}
  {log : List ValueVisit}

/-- The scan of an accepted static_values array goes through exactly the values
the verifier went through, and collects exactly their strings in order, if and
only if its offset is no negative `int` and no size in it has bits past the
32nd that add elements. -/
theorem scan_lockstep_iff (hr : ReaderOf v r) (hoff : cd.staticValuesOff ≠ 0)
    (harray : v.verifyEncodedArrayAt methodHandleCount cd.staticValuesOff = .ok (q, log)) :
    scanClassDefStaticStrings r cd = .ok ⟨q, log.map ValueVisit.span, stringIds log⟩ ↔
      cd.staticValuesOff < 2 ^ 31 ∧
        CountKept v.image (v.offsetToPtr cd.staticValuesOff) q ∧
        ∀ visit ∈ log, SizeKept v.image visit := by
  have hgrammar := @Verifier.wp_verifyEncodedArrayAt v methodHandleCount cd.staticValuesOff
  rw [harray] at hgrammar
  obtain ⟨size, p1, hsize, hp1, helements⟩ := hgrammar
  have hend : (v.valueLimits methodHandleCount).stop ≤ v.image.length := v.endOfFile_le
  have hfollows := scan_follows hend (kMaxDepth + 1)
  obtain ⟨wide, hscan, hwide, hmod⟩ := scanUleb_eq hsize
  have hrow := helements.bounds hp1 fun p q log hvalue => by
    have hbounds := hvalue.bounds
    omega
  have hq : q ≤ v.image.length := by omega
  have hlt := hsize.lt
  have hrun (hsmall : cd.staticValuesOff < 2 ^ 31) : scanClassDefStaticStrings r cd =
      .ok (scanElements v.image (scanEncodedValueStrings v.image (kScanMaxDepth + 1)) wide p1) := by
    rw [scanClassDefStaticStrings, if_neg hoff, dataPtr_eq hr hsmall hoff, bind_ok, hr.image,
      if_neg (by omega), hscan]
    rfl
  have hcount : CountKept v.image (v.offsetToPtr cd.staticValuesOff) q ↔
      wide < 2 ^ 32 ∨ q = v.image.length := by
    refine ⟨fun h => h wide hwide, fun h wide' hwide' => ?_⟩
    rwa [hwide'.unique hwide]
  constructor
  · intro hlockstep
    have hsmall : cd.staticValuesOff < 2 ^ 31 := by
      rw [scanClassDefStaticStrings, if_neg hoff, bind_eq_ok] at hlockstep
      obtain ⟨p, hptr, _⟩ := hlockstep
      obtain ⟨_, hcheck, _⟩ := bind_eq_ok.mp hptr
      exact (slicerCheck_eq_ok.mp hcheck).1
    rw [hrun hsmall] at hlockstep
    have hscanned := Except.ok.inj hlockstep
    obtain ⟨hexcess, hkept⟩ := hfollows.row_kept helements hsize.le_length hq hmod
      (congrArg StringScan.cursor hscanned) (congrArg StringScan.spans hscanned)
    refine ⟨hsmall, hcount.mpr ?_, hkept⟩
    rcases hexcess with hnarrow | hlast | hidle
    · exact .inl hnarrow
    · exact .inr hlast
    · by_cases hlast : q = v.image.length
      · exact .inr hlast
      · have hmoves := @lt_scan v.image kMaxDepth _ (show q < v.image.length by omega)
        exact absurd hidle (Nat.ne_of_gt hmoves)
  · rintro ⟨hsmall, hsize', hkept⟩
    have hscanned := hfollows.row_eq helements hmod hkept <| by
      rcases hcount.mp hsize' with hnarrow | hlast
      · exact .inl hnarrow
      · exact .inr (.inl hlast)
    rw [hrun hsmall]
    exact congrArg Except.ok hscanned

/-- A class with one static field, whose value is an empty array with the size
`80 80 80 80 10`. -/
def wideDex : Memory := [
  100, 101, 120, 10, 48, 51, 53, 0, 0, 0, 0, 0, 0, 0, 0, 0, 0, 0, 0, 0, 0, 0, 0, 0,
  0, 0, 0, 0, 0, 0, 0, 0, 16, 1, 0, 0, 112, 0, 0, 0, 120, 86, 52, 18, 0, 0, 0, 0,
  0, 0, 0, 0, 196, 0, 0, 0, 3, 0, 0, 0, 112, 0, 0, 0, 2, 0, 0, 0, 124, 0, 0, 0,
  0, 0, 0, 0, 0, 0, 0, 0, 1, 0, 0, 0, 132, 0, 0, 0, 0, 0, 0, 0, 0, 0, 0, 0,
  1, 0, 0, 0, 140, 0, 0, 0, 0, 0, 0, 0, 0, 0, 0, 0, 185, 0, 0, 0, 188, 0, 0, 0,
  193, 0, 0, 0, 0, 0, 0, 0, 1, 0, 0, 0, 1, 0, 0, 0, 2, 0, 0, 0, 1, 0, 0, 0,
  1, 0, 0, 0, 255, 255, 255, 255, 0, 0, 0, 0, 255, 255, 255, 255, 0, 0, 0, 0, 172, 0, 0, 0,
  178, 0, 0, 0, 1, 0, 0, 0, 0, 9, 1, 28, 128, 128, 128, 128, 16, 1, 73, 0, 3, 76, 65, 59,
  0, 1, 97, 0, 6, 0, 0, 0, 0, 0, 0, 0, 1, 0, 0, 0, 0, 0, 0, 0, 1, 0, 0, 0,
  3, 0, 0, 0, 112, 0, 0, 0, 2, 0, 0, 0, 2, 0, 0, 0, 124, 0, 0, 0, 4, 0, 0, 0,
  1, 0, 0, 0, 132, 0, 0, 0, 6, 0, 0, 0, 1, 0, 0, 0, 140, 0, 0, 0, 0, 16, 0, 0,
  1, 0, 0, 0, 196, 0, 0, 0]

set_option maxRecDepth 20000 in
theorem wideDex_runs : (verifyDex wideDex true 0 {}).1.ok = true ∧
    (do
      let v ← openVerifier wideDex 0 true
      let item ← loadDexItem wideDex 0
      let cd ← item.reader.classDef 0
      let (q, log) ← v.verifyEncodedArrayAt 0 cd.staticValuesOff
      let s ← scanClassDefStaticStrings item.reader cd
      pure (cd.staticValuesOff, decide (s.cursor ≠ q ∧ s.spans ≠ log.map ValueVisit.span))) =
      .ok (178, true) := by
  decide

theorem scan_lockstep_iff_wideDex : ∃ v item cd q log,
    openVerifier wideDex 0 true = .ok v ∧ loadDexItem wideDex 0 = .ok item ∧
    item.reader.classDef 0 = .ok cd ∧
    v.verifyEncodedArrayAt 0 cd.staticValuesOff = .ok (q, log) ∧
    (scanClassDefStaticStrings item.reader cd =
        .ok ⟨q, log.map ValueVisit.span, stringIds log⟩ ↔
      cd.staticValuesOff < 2 ^ 31 ∧
        CountKept v.image (v.offsetToPtr cd.staticValuesOff) q ∧
        ∀ visit ∈ log, SizeKept v.image visit) := by
  obtain ⟨hok, hrun⟩ := wideDex_runs
  obtain ⟨v, hopen, hrun⟩ := bind_eq_ok.mp hrun
  obtain ⟨item, hload, hrun⟩ := bind_eq_ok.mp hrun
  obtain ⟨cd, hclass, hrun⟩ := bind_eq_ok.mp hrun
  obtain ⟨array, harray, hrun⟩ := bind_eq_ok.mp hrun
  obtain ⟨s, -, hrun⟩ := bind_eq_ok.mp hrun
  obtain ⟨hoff, -⟩ := Prod.mk.inj (Except.ok.inj hrun)
  obtain ⟨v', methodHandleCount, deviations, haccepted⟩ := accepted_of_verifyDex hok
  obtain rfl := Except.ok.inj (haccepted.opened.symm.trans hopen)
  have hl := loaded_of_loadDexItem haccepted hload
  exact ⟨v', item, cd, _, _, hopen, hload, hclass, harray,
    scan_lockstep_iff hl.reader (by omega) harray⟩

/-- The scan reads 2^32 elements where the verifier reads none, so it runs to
the end of the image. -/
theorem wideDex_not_lockstep : (verifyDex wideDex true 0 {}).1.ok = true ∧
    ∃ v item cd q log s, openVerifier wideDex 0 true = .ok v ∧
      loadDexItem wideDex 0 = .ok item ∧ item.reader.classDef 0 = .ok cd ∧
      v.verifyEncodedArrayAt 0 cd.staticValuesOff = .ok (q, log) ∧
      scanClassDefStaticStrings item.reader cd = .ok s ∧
      s.cursor ≠ q ∧ s.spans ≠ log.map ValueVisit.span := by
  obtain ⟨hok, hrun⟩ := wideDex_runs
  obtain ⟨v, hopen, hrun⟩ := bind_eq_ok.mp hrun
  obtain ⟨item, hload, hrun⟩ := bind_eq_ok.mp hrun
  obtain ⟨cd, hclass, hrun⟩ := bind_eq_ok.mp hrun
  obtain ⟨⟨q, log⟩, harray, hrun⟩ := bind_eq_ok.mp hrun
  obtain ⟨s, hscan, hrun⟩ := bind_eq_ok.mp hrun
  obtain ⟨-, happart⟩ := Prod.mk.inj (Except.ok.inj hrun)
  exact ⟨hok, v, item, cd, q, log, s, hopen, hload, hclass, harray, hscan,
    of_decide_eq_true happart⟩

end Main

end Dexllm
