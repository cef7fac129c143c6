import Dexllm.Flow.Snapshot

/-!
The payload parsers of the builder on an array of code units: each returned word
keeps the unit it was read at, and a read at or past the end of the array faults.
No parse faults; clamping shortens a packed table and the data of an array, but it
moves the second half of a sparse table.
-/

namespace Dexllm

open Guarded Bytes

namespace Payloads

/-- An `int32_t` of `insns[]` and the unit it starts at. -/
structure Word where
  unit : Nat
  value : Int
  deriving DecidableEq, Repr

/-- A byte of `insns[]` and its place. -/
structure DataByte where
  pos : Nat
  value : Nat
  deriving DecidableEq, Repr

/-- `PayloadVariant`, with the places of its elements. -/
inductive ParsedPayload where
  | monostate
  | packedSwitch (firstKey : Word) (targets : List Word)
  | sparseSwitch (keys targets : List Word)
  | fillArray (elementWidth size : Nat) (data : List DataByte)
  deriving DecidableEq, Repr

section Parsers

variable (insns : List UInt16)

/-- Code unit `k`. -/
def unitOf (k : Nat) : Run Nat :=
  match insns[k]? with
  | none => .error .oob
  | some u => .ok u.toNat

/-- The 32 bits from unit `k` on. -/
def wordBits (k : Nat) : Run Nat := do
  let low ← unitOf insns k
  let high ← unitOf insns (k + 1)
  pure (low + 65536 * high)

def readWord (k : Nat) : Run Word := do
  let bits ← wordBits insns k
  pure ⟨k, Verifier.toS4 bits⟩

/-- The byte at place `pos`, the lower half of a unit first. -/
def readByte (pos : Nat) : Run DataByte := do
  let u ← unitOf insns (pos / 2)
  pure ⟨pos, if pos % 2 = 0 then u % 256 else u / 256⟩

/-- `ParsePackedSwitchPayload`. -/
def parsePackedSwitchPayload (p : Nat) : Run ParsedPayload :=
  if insns.length < p + 4 then pure .monostate
  else do
    let size ← unitOf insns (p + 1)
    let firstKey ← readWord insns (p + 2)
    let avail := (insns.length - (p + 4)) / 2
    let targets ← collect (min size avail) fun i => readWord insns (p + 4 + 2 * i)
    pure (.packedSwitch firstKey targets)

/-- `ParseSparseSwitchPayload`. The targets are taken behind the keys that fit. -/
def parseSparseSwitchPayload (p : Nat) : Run ParsedPayload :=
  if insns.length < p + 4 then pure .monostate
  else do
    let size ← unitOf insns (p + 1)
    let avail := (insns.length - (p + 2)) / 2
    let n := min size (avail / 2)
    let keys ← collect n fun i => readWord insns (p + 2 + 2 * i)
    let targets ← collect n fun i => readWord insns (p + 2 + 2 * n + 2 * i)
    pure (.sparseSwitch keys targets)

/-- `ParseFillArrayPayload`. -/
def parseFillArrayPayload (p : Nat) : Run ParsedPayload :=
  if insns.length < p + 4 then pure .monostate
  else do
    let elementWidth ← unitOf insns (p + 1)
    let size ← wordBits insns (p + 2)
    let availBytes := (insns.length - (p + 4)) * 2
    let data ← collect (min (elementWidth * size) availBytes) fun j =>
      readByte insns (2 * (p + 4) + j)
    pure (.fillArray elementWidth size data)

/-- `ParsePayloadAt`, at unit `p`. -/
def parsePayloadAt (p : Nat) : Run ParsedPayload :=
  if insns.length < p + 1 then pure .monostate
  else do
    let ident ← unitOf insns p
    if ident = 0x0100 then parsePackedSwitchPayload insns p
    else if ident = 0x0200 then parseSparseSwitchPayload insns p
    else if ident = 0x0300 then parseFillArrayPayload insns p
    else pure .monostate

end Parsers

section Layout

variable (insns : List UInt16)

/-- Unit `k`, zero past the end. -/
def unitValue (k : Nat) : Nat := (insns.getD k 0).toNat

def bitsAt (k : Nat) : Nat := unitValue insns k + 65536 * unitValue insns (k + 1)

/-- The word at unit `k`, if it is inside the array. -/
def word? (k : Nat) : Option Word :=
  if k + 2 ≤ insns.length then some ⟨k, Verifier.toS4 (bitsAt insns k)⟩ else none

/-- The byte at place `pos`. -/
def byteOf (pos : Nat) : DataByte :=
  let u := unitValue insns (pos / 2)
  ⟨pos, if pos % 2 = 0 then u % 256 else u / 256⟩

def byte? (pos : Nat) : Option DataByte :=
  if pos < 2 * insns.length then some (byteOf insns pos) else none

/-- Every element is the one at the same index of the layout the payload at unit
`p` declares, and there are no more than it declares. -/
def AsDeclared (p : Nat) : ParsedPayload → Prop
  | .monostate => True
  | .packedSwitch firstKey targets =>
    some firstKey = word? insns (p + 2) ∧ targets.length ≤ unitValue insns (p + 1) ∧
      ∀ i w, targets[i]? = some w → some w = word? insns (p + 4 + 2 * i)
  | .sparseSwitch keys targets =>
    let size := unitValue insns (p + 1)
    keys.length = targets.length ∧ keys.length ≤ size ∧
      (∀ i w, keys[i]? = some w → some w = word? insns (p + 2 + 2 * i)) ∧
      ∀ i w, targets[i]? = some w → some w = word? insns (p + 2 + 2 * size + 2 * i)
  | .fillArray elementWidth size data =>
    elementWidth = unitValue insns (p + 1) ∧ size = bitsAt insns (p + 2) ∧
      data.length ≤ elementWidth * size ∧
      ∀ j b, data[j]? = some b → some b = byte? insns (2 * (p + 4) + j)

/-- The parse at unit `p` reads nothing at or past the end, and what it returns is
what the payload declares. -/
def ParsesAsDeclared (p : Nat) : Prop :=
  ∃ v, parsePayloadAt insns p = .ok v ∧ AsDeclared insns p v

/-- A sparse table at unit `p` fits with all it declares, or there is no room for
one pair of it. -/
def SparseFits (p : Nat) : Prop :=
  unitValue insns p = 0x0200 →
    p + 2 + 4 * unitValue insns (p + 1) ≤ insns.length ∨ insns.length < p + 6

end Layout

section Reads

variable {insns : List UInt16} {k n : Nat}

theorem unitOf_eq (h : k < insns.length) : unitOf insns k = .ok (unitValue insns k) := by
  rw [unitOf, unitValue, List.getElem?_eq_getElem h, List.getD_eq_getElem _ _ h]

theorem wordBits_eq (h : k + 2 ≤ insns.length) : wordBits insns k = .ok (bitsAt insns k) := by
  rw [wordBits, unitOf_eq (by omega), bind_ok, unitOf_eq (by omega)]
  rfl

theorem readWord_eq (h : k + 2 ≤ insns.length) :
    readWord insns k = .ok ⟨k, Verifier.toS4 (bitsAt insns k)⟩ := by
  rw [readWord, wordBits_eq h]
  rfl

/-- A run of words inside the array is read without a fault, word for word. -/
theorem collect_words {start : Nat} (h : n = 0 ∨ start + 2 * n ≤ insns.length) :
    collect n (fun i => readWord insns (start + 2 * i)) =
      .ok ((List.range n).map fun i =>
        ⟨start + 2 * i, Verifier.toS4 (bitsAt insns (start + 2 * i))⟩) :=
  collect_eq fun i hi => readWord_eq (by omega)

theorem word?_of_mem {start i : Nat} {w : Word} (h : start + 2 * n ≤ insns.length)
    (hw : ((List.range n).map fun i =>
      (⟨start + 2 * i, Verifier.toS4 (bitsAt insns (start + 2 * i))⟩ : Word))[i]? = some w) :
    some w = word? insns (start + 2 * i) := by
  rw [List.getElem?_map] at hw
  obtain ⟨j, hj, rfl⟩ := Option.map_eq_some_iff.mp hw
  obtain ⟨hlt, rfl⟩ := List.getElem?_eq_some_iff.mp hj
  rw [List.length_range] at hlt
  rw [List.getElem_range, word?, if_pos (by omega)]

theorem readByte_eq {pos : Nat} (h : pos < 2 * insns.length) :
    readByte insns pos = .ok (byteOf insns pos) := by
  rw [readByte, unitOf_eq (by omega)]
  rfl

end Reads

section Tables

variable {insns : List UInt16} {p : Nat}

theorem packed_declared : ∃ v, parsePackedSwitchPayload insns p = .ok v ∧ AsDeclared insns p v := by
  unfold parsePackedSwitchPayload
  split
  · exact ⟨.monostate, rfl, trivial⟩
  · rename_i hroom
    have hfit : p + 4 + 2 * min (unitValue insns (p + 1)) ((insns.length - (p + 4)) / 2) ≤
        insns.length := by
      omega
    rw [unitOf_eq (by omega), bind_ok, readWord_eq (by omega), bind_ok]
    dsimp only
    rw [collect_words (Or.inr hfit), bind_ok]
    refine ⟨_, rfl, ?_, ?_, fun i w hw => word?_of_mem hfit hw⟩
    · rw [word?, if_pos (by omega)]
    · rw [List.length_map, List.length_range]
      exact Nat.min_le_left _ _

theorem fillArray_declared :
    ∃ v, parseFillArrayPayload insns p = .ok v ∧ AsDeclared insns p v := by
  unfold parseFillArrayPayload
  split
  · exact ⟨.monostate, rfl, trivial⟩
  · rename_i hroom
    have hbyte (j : Nat) (hj : j < min (unitValue insns (p + 1) * bitsAt insns (p + 2))
        ((insns.length - (p + 4)) * 2)) :
        readByte insns (2 * (p + 4) + j) = .ok (byteOf insns (2 * (p + 4) + j)) :=
      readByte_eq (by omega)
    rw [unitOf_eq (by omega), bind_ok, wordBits_eq (by omega), bind_ok]
    dsimp only
    rw [collect_eq hbyte, bind_ok]
    refine ⟨_, rfl, rfl, rfl, ?_, fun j d hd => ?_⟩
    · rw [List.length_map, List.length_range]
      exact Nat.min_le_left _ _
    · rw [List.getElem?_map] at hd
      obtain ⟨i, hi, rfl⟩ := Option.map_eq_some_iff.mp hd
      obtain ⟨hlt, rfl⟩ := List.getElem?_eq_some_iff.mp hi
      rw [List.length_range] at hlt
      rw [List.getElem_range, byte?, if_pos (by omega)]

/-- How many pairs of a sparse table the parser takes. -/
def sparsePairs (insns : List UInt16) (p : Nat) : Nat :=
  min (unitValue insns (p + 1)) ((insns.length - (p + 2)) / 2 / 2)

/-- The sparse parser takes as many pairs as fit, the targets from right behind the
keys it takes. -/
theorem sparse_eq (hroom : p + 4 ≤ insns.length) :
    parseSparseSwitchPayload insns p = .ok (.sparseSwitch
      ((List.range (sparsePairs insns p)).map fun i =>
        ⟨p + 2 + 2 * i, Verifier.toS4 (bitsAt insns (p + 2 + 2 * i))⟩)
      ((List.range (sparsePairs insns p)).map fun i =>
        ⟨p + 2 + 2 * sparsePairs insns p + 2 * i,
          Verifier.toS4 (bitsAt insns (p + 2 + 2 * sparsePairs insns p + 2 * i))⟩)) := by
  have hkeys : p + 2 + 2 * sparsePairs insns p ≤ insns.length := by
    unfold sparsePairs
    omega
  have htargets : p + 2 + 2 * sparsePairs insns p + 2 * sparsePairs insns p ≤ insns.length := by
    unfold sparsePairs
    omega
  unfold parseSparseSwitchPayload
  rw [if_neg (by omega), unitOf_eq (by omega), bind_ok]
  simp only [show min (unitValue insns (p + 1)) ((insns.length - (p + 2)) / 2 / 2) =
    sparsePairs insns p from rfl]
  rw [collect_words (Or.inr hkeys), bind_ok, collect_words (Or.inr htargets), bind_ok]
  rfl

theorem sparse_declared_iff (hroom : p + 4 ≤ insns.length) :
    (∃ v, parseSparseSwitchPayload insns p = .ok v ∧ AsDeclared insns p v) ↔
      p + 2 + 4 * unitValue insns (p + 1) ≤ insns.length ∨ insns.length < p + 6 := by
  have hpairs : sparsePairs insns p =
      min (unitValue insns (p + 1)) ((insns.length - (p + 2)) / 2 / 2) := rfl
  rw [sparse_eq hroom]
  constructor
  · rintro ⟨v, hv, hdeclared⟩
    obtain rfl := Except.ok.inj hv
    -- a first target behind fewer keys than declared is not the declared one
    by_contra hmoved
    rw [not_or] at hmoved
    obtain ⟨-, -, -, htargets⟩ := hdeclared
    have hfirst := htargets 0 _ (by
      rw [List.getElem?_map, List.getElem?_range (by omega)]
      rfl)
    unfold word? at hfirst
    split at hfirst
    · have hunit := congrArg Word.unit (Option.some.inj hfirst)
      simp only at hunit
      omega
    · cases hfirst
  · intro hfits
    have hwhole : sparsePairs insns p = 0 ∨ sparsePairs insns p = unitValue insns (p + 1) := by
      omega
    refine ⟨_, rfl, by simp, ?_, fun i w hw => word?_of_mem (by omega) hw, fun i w hw => ?_⟩
    · rw [List.length_map, List.length_range]
      omega
    · obtain hnone | hall := hwhole
      · simp [hnone] at hw
      · rw [hall] at hw
        exact word?_of_mem (by omega) hw

end Tables

/-- The parse never reads past the end, and it returns what the payload declares
unless it is a sparse table that is cut short: then every target it pairs with a
key is a word before the declared one. -/
theorem payload_parse_iff (insns : List UInt16) (p : Nat) :
    ParsesAsDeclared insns p ↔ SparseFits insns p := by
  unfold ParsesAsDeclared parsePayloadAt SparseFits
  split
  · rename_i hout
    have hzero : unitValue insns p = 0 := by
      rw [unitValue, List.getD_eq_default _ _ (by omega)]
      rfl
    exact iff_of_true ⟨.monostate, rfl, trivial⟩ fun h => by omega
  · rename_i hin
    rw [unitOf_eq (by omega), bind_ok]
    split
    · rename_i hpacked
      exact iff_of_true packed_declared fun h => by omega
    split
    · rename_i hsparse
      obtain hroom | hroom := Nat.lt_or_ge insns.length (p + 4)
      · rw [parseSparseSwitchPayload, if_pos hroom]
        exact iff_of_true ⟨.monostate, rfl, trivial⟩ fun _ => by omega
      · rw [sparse_declared_iff hroom, hsparse]
        exact ⟨fun h _ => h, fun h => h rfl⟩
    · rename_i hsparse
      have hfits : unitValue insns p = 0x0200 → p + 2 + 4 * unitValue insns (p + 1) ≤ insns.length ∨
          insns.length < p + 6 := fun h => absurd h hsparse
      split
      · exact iff_of_true fillArray_declared hfits
      · exact iff_of_true ⟨.monostate, rfl, trivial⟩ hfits

/-- A sparse switch into the data of an array: the table declares the keys 1 and 2
with the targets 7 and 9, and the array ends before the second target. -/
def cutSparse : List UInt16 :=
  [0x002C, 8, 0, 0x000E, 0x0300, 2, 8, 0, 0x0200, 2, 1, 0, 2, 0, 7, 0]

set_option maxRecDepth 20000 in
/-- The key 1 comes back with the key 2 as its target. -/
theorem cutSparse_not_declared : ¬ ∀ (insns : List UInt16) (p : Nat), p < insns.length →
    ParsesAsDeclared insns p := by
  intro h
  obtain ⟨v, hv, hdeclared⟩ := h cutSparse 8 (by decide)
  have hparse : parsePayloadAt cutSparse 8 = .ok (.sparseSwitch [⟨10, 1⟩] [⟨12, 2⟩]) := by
    decide
  rw [hparse] at hv
  obtain rfl := Except.ok.inj hv
  have hfirst := hdeclared.2.2.2 0 ⟨12, 2⟩ rfl
  exact absurd hfirst (by decide)

/-- The payload without the places of its elements. -/
def ParsedPayload.variant : ParsedPayload → PayloadVariant
  | .monostate => .monostate
  | .packedSwitch firstKey targets => .packedSwitch firstKey.value (targets.map (·.value))
  | .sparseSwitch keys targets => .sparseSwitch (keys.map (·.value)) (targets.map (·.value))
  | .fillArray _ _ _ => .fillArray

end Payloads

namespace CodeItem

open Payloads

/-- The code units of `insns[]`. -/
def units (c : CodeItem) : List UInt16 :=
  (List.range c.insnsSize).map fun k => UInt16.ofNat (c.unit k)

variable (c : CodeItem)

@[simp] theorem length_units : c.units.length = c.insnsSize := by simp [units]

theorem unitValue_units {k : Nat} (h : k < c.insnsSize) : unitValue c.units k = c.unit k := by
  have hunit : (UInt16.ofNat (c.unit k)).toNat = c.unit k :=
    UInt16.toNat_ofNat_of_lt' (u2At_lt _ _)
  rw [unitValue, units, List.getD_eq_getElem _ _ (by simpa using h)]
  simpa using hunit

theorem toS4_units {k : Nat} (h : k + 2 ≤ c.insnsSize) :
    Verifier.toS4 (bitsAt c.units k) = c.readInt k := by
  rw [bitsAt, unitValue_units c (by omega), unitValue_units c (by omega)]
  rfl

/-- The parse of the array of code units is the one of the code item. -/
theorem parsePayloadAt_units (t : Nat) :
    ∃ v, Payloads.parsePayloadAt c.units t = .ok v ∧ v.variant = c.parsePayloadAt t := by
  have hlen := c.length_units
  unfold Payloads.parsePayloadAt parsePayloadAt
  rw [hlen]
  split
  · exact ⟨.monostate, rfl, rfl⟩
  · rename_i hin
    rw [unitOf_eq (by omega), bind_ok, unitValue_units c (by omega)]
    split
    · unfold parsePackedSwitchPayload
      rw [hlen]
      split
      · exact ⟨.monostate, rfl, rfl⟩
      · rename_i hroom
        have hfit : t + 4 + 2 * min (c.unit (t + 1)) ((c.insnsSize - (t + 4)) / 2) ≤
            c.insnsSize := by
          omega
        rw [unitOf_eq (by omega), bind_ok, readWord_eq (by omega), bind_ok,
          unitValue_units c (by omega)]
        dsimp only
        rw [collect_words (Or.inr (by omega)), bind_ok]
        refine ⟨_, rfl, ?_⟩
        simp only [ParsedPayload.variant, List.map_map, PayloadVariant.packedSwitch.injEq]
        refine ⟨toS4_units c (by omega), List.map_congr_left fun i hi => ?_⟩
        rw [List.mem_range] at hi
        exact toS4_units c (by omega)
    split
    · obtain hroom | hroom := Nat.lt_or_ge c.insnsSize (t + 4)
      · rw [parseSparseSwitchPayload, hlen, if_pos hroom, if_pos hroom]
        exact ⟨.monostate, rfl, rfl⟩
      · have hpairs : sparsePairs c.units t =
            min (c.unit (t + 1)) ((c.insnsSize - (t + 2)) / 2 / 2) := by
          rw [sparsePairs, unitValue_units c (by omega), hlen]
        rw [sparse_eq (by omega), if_neg (by omega), hpairs]
        refine ⟨_, rfl, ?_⟩
        simp only [ParsedPayload.variant, List.map_map, PayloadVariant.sparseSwitch.injEq]
        refine ⟨List.map_congr_left fun i hi => ?_, List.map_congr_left fun i hi => ?_⟩ <;>
        · rw [List.mem_range] at hi
          exact toS4_units c (by omega)
    split
    · obtain ⟨v, hv, -⟩ := @fillArray_declared c.units t
      refine ⟨v, hv, ?_⟩
      unfold parseFillArrayPayload at hv
      rw [hlen] at hv
      split at hv
      · rename_i hroom
        obtain rfl := Except.ok.inj hv
        rw [if_pos hroom]
        rfl
      · rename_i hroom
        simp only [bind_eq_ok, pure_eq_ok] at hv
        obtain ⟨_, -, _, -, _, -, hv⟩ := hv
        obtain rfl := Except.ok.inj hv
        dsimp only
        rw [if_neg hroom]
        rfl
    · exact ⟨.monostate, rfl, rfl⟩

end CodeItem

end Dexllm
