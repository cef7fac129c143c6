import Dexllm.Lib.Cursor

/-!
The grammar of `encoded_value`: what it means for the bytes `[p, q)` to hold a
value, with the log of the values inside it. The verifier and the two decoders
of static values are each related to this grammar, not to each other.
-/

namespace Dexllm

open Guarded Bytes Leb128 Cursor

/-- One encoded_value: its nesting depth, its first byte and the end of its
payload, its type code, and the index of an index-typed value. -/
structure ValueVisit where
  depth : Nat
  start : Nat
  stop : Nat
  type : Nat
  index : Nat := 0
  deriving DecidableEq, Repr

/-- Where one encoded_value lies. -/
structure ValueSpan where
  depth : Nat
  start : Nat
  stop : Nat
  type : Nat
  deriving DecidableEq, Repr

def ValueVisit.span (visit : ValueVisit) : ValueSpan :=
  ⟨visit.depth, visit.start, visit.stop, visit.type⟩

/-- The nesting cap of all three walkers. -/
def kMaxDepth : Nat := 16

/-- The payload width of the types that hold no index and nest nothing, when
their width argument is one they allow. -/
def plainWidth (type arg : Nat) : Option Nat :=
  match type with
  | 0x00 => if arg = 0 then some 1 else none
  | 0x02 | 0x03 => if arg ≤ 1 then some (arg + 1) else none
  | 0x04 | 0x10 => if arg ≤ 3 then some (arg + 1) else none
  | 0x06 | 0x11 => some (arg + 1)
  | 0x1e => if arg = 0 then some 0 else none
  | 0x1f => if arg ≤ 1 then some 0 else none
  | _ => none

/-- The end of the readable range and the size of each table an index is
checked against. -/
structure ValueLimits where
  stop : Nat
  protos : Nat
  methodHandles : Nat
  strings : Nat
  types : Nat
  fields : Nat
  methods : Nat

/-- The table size for an index type. -/
def ValueLimits.index (limits : ValueLimits) (type : Nat) : Option Nat :=
  match type with
  | 0x15 => some limits.protos
  | 0x16 => some limits.methodHandles
  | 0x17 => some limits.strings
  | 0x18 => some limits.types
  | 0x19 | 0x1b => some limits.fields
  | 0x1a => some limits.methods
  | _ => none

/-- `item q r visits`: an item fills `[q, r)` with the values `visits`. -/
abbrev LoggedItem := Nat → Nat → List ValueVisit → Prop

/-- `n` items in a row fill `[p, q)`, with the concatenated log. -/
inductive Elements (item : LoggedItem) (p : Nat) : Nat → Nat → List ValueVisit → Prop where
  | nil : Elements item p 0 p []
  | snoc {n q r : Nat} {log visits : List ValueVisit} (hinit : Elements item p n q log)
      (hitem : item q r visits) : Elements item p (n + 1) r (log ++ visits)

variable (mem : Memory) (limits : ValueLimits)

/-- An annotation element: a name, then a value. -/
def NamedValue (value : LoggedItem) : LoggedItem := fun p q log =>
  ∃ nameIdx p1, UlebAt mem p nameIdx p1 ∧ p1 ≤ limits.stop ∧ nameIdx < limits.strings ∧
    value p1 q log

/-- The payload of a value of type `type` with width argument `arg` fills
`[p, q)`. -/
inductive Payload (value : LoggedItem) (type arg p : Nat) :
    Nat → Nat → List ValueVisit → Prop where
  | plain {n : Nat} (hwidth : plainWidth type arg = some n) (hstop : p + n ≤ limits.stop) :
      Payload value type arg p (p + n) 0 []
  | index {limit : Nat} (hindex : limits.index type = some limit) (harg : arg ≤ 3)
      (hstop : p + (arg + 1) ≤ limits.stop) (hlimit : leValue mem p (arg + 1) < limit) :
      Payload value type arg p (p + (arg + 1)) (leValue mem p (arg + 1)) []
  | array {size p1 q : Nat} {log : List ValueVisit} (htype : type = 0x1c) (harg : arg = 0)
      (hsize : UlebAt mem p size p1) (hstop : p1 ≤ limits.stop)
      (helements : Elements value p1 size q log) : Payload value type arg p q 0 log
  | annotation {typeIdx p1 size p2 q : Nat} {log : List ValueVisit} (htype : type = 0x1d)
      (harg : arg = 0) (htypeIdx : UlebAt mem p typeIdx p1) (htypes : typeIdx < limits.types)
      (hsize : UlebAt mem p1 size p2) (hstop : p2 ≤ limits.stop)
      (helements : Elements (NamedValue mem limits value) p2 size q log) :
      Payload value type arg p q 0 log

/-- A value with `left` levels below the nesting cap fills `[p, q)`. -/
def ValueAt : (left : Nat) → LoggedItem
  | 0, _, _, _ => False
  | left + 1, p, q, log => p < limits.stop ∧ ∃ index nested,
    Payload mem limits (ValueAt left) (byteAt mem p &&& 0x1f) (byteAt mem p >>> 5) (p + 1) q
      index nested ∧
    log = ⟨kMaxDepth - left, p, q, byteAt mem p &&& 0x1f, index⟩ :: nested

/-- An encoded_array_item: its element count, then that many values. -/
def EncodedArray (p q : Nat) (log : List ValueVisit) : Prop :=
  ∃ size p1, UlebAt mem p size p1 ∧ p1 ≤ limits.stop ∧
    Elements (ValueAt mem limits (kMaxDepth + 1)) p1 size q log

section Bounds

variable {mem} {limits} {item : LoggedItem} {p n q : Nat} {log : List ValueVisit}

/-- Items that move forward inside a range keep a row of them inside it. -/
theorem Elements.bounds {stop : Nat} (h : Elements item p n q log) (hp : p ≤ stop)
    (hitem : ∀ p q log, item p q log → p ≤ q ∧ q ≤ stop) : p ≤ q ∧ q ≤ stop := by
  induction h with
  | nil => exact ⟨le_rfl, hp⟩
  | snoc _ hlast ih =>
    have hmid := hitem _ _ _ hlast
    omega

/-- The starts of the values in a row lie in it, when those of each item lie in
the item. -/
theorem Elements.starts (h : Elements item p n q log)
    (hitem : ∀ p q log, item p q log → p ≤ q ∧ ∀ visit ∈ log, p ≤ visit.start ∧ visit.start < q) :
    p ≤ q ∧ ∀ visit ∈ log, p ≤ visit.start ∧ visit.start < q := by
  induction h with
  | nil => exact ⟨le_rfl, by simp⟩
  | snoc _ hlast ih =>
    have hstarts := hitem _ _ _ hlast
    refine ⟨by omega, fun visit hvisit => ?_⟩
    rcases List.mem_append.mp hvisit with hvisit | hvisit
    · have hold := ih.2 visit hvisit
      omega
    · have hnew := hstarts.2 visit hvisit
      omega

/-- A value lies inside the readable range and is not empty. -/
theorem ValueAt.bounds {left : Nat} (h : ValueAt mem limits left p q log) :
    p < q ∧ q ≤ limits.stop := by
  induction left generalizing p q log with
  | zero => exact h.elim
  | succ left ih =>
    obtain ⟨hp, index, nested, hpayload, _⟩ := h
    have hvalue : ∀ p q log, ValueAt mem limits left p q log → p ≤ q ∧ q ≤ limits.stop := by
      intro p q log hvalue
      have hbounds := ih hvalue
      omega
    cases hpayload with
    | plain _ hstop => omega
    | index _ _ hstop _ => omega
    | array _ _ hsize hstop helements =>
      have hlt := hsize.lt
      have hrow := helements.bounds hstop hvalue
      omega
    | annotation _ _ htypeIdx _ hsize hstop helements =>
      have hlt := htypeIdx.lt
      have hlt' := hsize.lt
      have hrow := helements.bounds hstop fun p q log hnamed => by
        obtain ⟨nameIdx, p1, hname, _, _, hnested⟩ := hnamed
        have hlt := hname.lt
        have hbounds := hvalue _ _ _ hnested
        omega
      omega

/-- The values inside a value start inside it. -/
theorem ValueAt.starts {left : Nat} (h : ValueAt mem limits left p q log) :
    ∀ visit ∈ log, p ≤ visit.start ∧ visit.start < q := by
  induction left generalizing p q log with
  | zero => exact h.elim
  | succ left ih =>
    have hlt := h.bounds.1
    obtain ⟨_, index, nested, hpayload, rfl⟩ := h
    have hvalue : ∀ p q log, ValueAt mem limits left p q log →
        p ≤ q ∧ ∀ visit ∈ log, p ≤ visit.start ∧ visit.start < q := by
      intro p q log hvalue
      have hbounds := hvalue.bounds
      exact ⟨by omega, ih hvalue⟩
    have hnested : ∀ visit ∈ nested, p ≤ visit.start ∧ visit.start < q := by
      cases hpayload with
      | plain _ _ => simp
      | index _ _ _ _ => simp
      | array _ _ hsize _ helements =>
        have hlt := hsize.lt
        have hrow := helements.starts hvalue
        intro visit hvisit
        have hstart := hrow.2 visit hvisit
        omega
      | annotation _ _ htypeIdx _ hsize _ helements =>
        have hlt := htypeIdx.lt
        have hlt' := hsize.lt
        have hrow := helements.starts fun p q log hnamed => by
          obtain ⟨nameIdx, p1, hname, _, _, hnested⟩ := hnamed
          have hlt := hname.lt
          have hbounds := hvalue _ _ _ hnested
          refine ⟨by omega, fun visit hvisit => ?_⟩
          have hstart := hbounds.2 visit hvisit
          omega
        intro visit hvisit
        have hstart := hrow.2 visit hvisit
        omega
    intro visit hvisit
    rcases List.mem_cons.mp hvisit with rfl | hvisit
    · exact ⟨le_rfl, hlt⟩
    · exact hnested visit hvisit

/-- What holds of the values of every item holds of those of a row. -/
theorem Elements.forall_mem {P : ValueVisit → Prop} (h : Elements item p n q log)
    (hitem : ∀ p q log, item p q log → ∀ visit ∈ log, P visit) : ∀ visit ∈ log, P visit := by
  induction h with
  | nil => simp
  | snoc _ hlast ih =>
    intro visit hvisit
    rcases List.mem_append.mp hvisit with hvisit | hvisit
    · exact ih visit hvisit
    · exact hitem _ _ _ hlast visit hvisit

/-- A row is its first `k` items and the rest. -/
theorem Elements.split {k : Nat} (h : Elements item p n q log) (hk : k ≤ n) :
    ∃ r log1 log2, Elements item p k r log1 ∧ Elements item r (n - k) q log2 ∧
      log = log1 ++ log2 := by
  induction h with
  | nil =>
    obtain rfl : k = 0 := by omega
    exact ⟨p, [], [], .nil, .nil, rfl⟩
  | snoc hinit hlast ih =>
    rename_i n q r log visits
    rcases Nat.lt_succ_iff_lt_or_eq.mp (Nat.lt_succ_of_le hk) with hlt | rfl
    · obtain ⟨mid, log1, log2, hfirst, hrest, rfl⟩ := ih (by omega)
      refine ⟨mid, log1, log2 ++ visits, hfirst, ?_, List.append_assoc _ _ _⟩
      rw [show n + 1 - k = n - k + 1 by omega]
      exact .snoc hrest hlast
    · refine ⟨r, log ++ visits, [], .snoc hinit hlast, ?_, (List.append_nil _).symm⟩
      rw [Nat.sub_self]
      exact .nil

/-- The values inside a value are deeper than it. -/
theorem ValueAt.le_depth {left : Nat} (h : ValueAt mem limits left p q log) :
    ∀ visit ∈ log, kMaxDepth + 1 - left ≤ visit.depth := by
  induction left generalizing p q log with
  | zero => exact h.elim
  | succ left ih =>
    obtain ⟨_, index, nested, hpayload, rfl⟩ := h
    have hnested : ∀ visit ∈ nested, kMaxDepth + 1 - left ≤ visit.depth := by
      cases hpayload with
      | plain _ _ => simp
      | index _ _ _ _ => simp
      | array _ _ _ _ helements => exact helements.forall_mem fun p q log => ih
      | annotation _ _ _ _ _ _ helements =>
        refine helements.forall_mem fun p q log hnamed => ?_
        obtain ⟨_, _, _, _, _, hvalue⟩ := hnamed
        exact ih hvalue
    intro visit hvisit
    rcases List.mem_cons.mp hvisit with rfl | hvisit
    · dsimp only
      omega
    · have hdeep := hnested visit hvisit
      omega

/-- The values of a log that are inside no other value. -/
def topValues (log : List ValueVisit) : List ValueVisit := log.filter fun visit => visit.depth == 0

theorem topValues_append (log log' : List ValueVisit) :
    topValues (log ++ log') = topValues log ++ topValues log' := List.filter_append log log'

/-- A top-level value is the only one of its log. -/
theorem ValueAt.topValues_eq (h : ValueAt mem limits (kMaxDepth + 1) p q log) :
    ∃ root nested, log = root :: nested ∧ topValues log = [root] ∧ root.start = p ∧
      root.stop = q := by
  obtain ⟨hp, index, nested, hpayload, hlog⟩ := h
  refine ⟨_, nested, hlog, ?_, rfl, rfl⟩
  have hnested : ∀ visit ∈ nested, ¬(visit.depth == 0) = true := by
    have hdeep : ∀ p q log, ValueAt mem limits kMaxDepth p q log →
        ∀ visit ∈ log, ¬(visit.depth == 0) = true := by
      intro p q log hvalue visit hvisit
      have hdepth := hvalue.le_depth visit hvisit
      rw [beq_iff_eq]
      omega
    cases hpayload with
    | plain _ _ => simp
    | index _ _ _ _ => simp
    | array _ _ _ _ helements => exact helements.forall_mem hdeep
    | annotation _ _ _ _ _ _ helements =>
      refine helements.forall_mem fun p q log hnamed => ?_
      obtain ⟨_, _, _, _, _, hvalue⟩ := hnamed
      exact hdeep _ _ _ hvalue
  rw [hlog, topValues, List.filter_cons_of_pos (by simp [kMaxDepth]), List.filter_eq_nil_iff.mpr hnested]

/-- A row of top-level values: as many as items, the last of which ends where the
row does. -/
theorem Elements.topValues (h : Elements (ValueAt mem limits (kMaxDepth + 1)) p n q log) :
    (Dexllm.topValues log).length = n ∧ (∀ top ∈ Dexllm.topValues log, top.stop ≤ q) ∧
      (0 < n → ∃ top ∈ Dexllm.topValues log, top.stop = q) := by
  induction h with
  | nil => simp [Dexllm.topValues]
  | snoc _ hlast ih =>
    obtain ⟨hlength, hstops, _⟩ := ih
    have hlt := hlast.bounds.1
    obtain ⟨root, _, _, htop, _, hstop⟩ := hlast.topValues_eq
    rw [topValues_append, htop]
    refine ⟨by simp [hlength], fun top hmem => ?_, fun _ => ⟨root, by simp, hstop⟩⟩
    rcases List.mem_append.mp hmem with hmem | hmem
    · have hold := hstops top hmem
      omega
    · rw [List.mem_singleton.mp hmem, hstop]

end Bounds

end Dexllm
