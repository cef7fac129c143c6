import Dexllm.Flow.ArrayWidth
import Dexllm.Flow.BuildersAgree

/-!
The values of a fill-array-data. The parser cuts the data of an array payload to what is
left of `insns[]`; the loop over the elements goes on to the declared count.
-/

namespace Dexllm

open Guarded Bytes Payloads

namespace Payloads

/-- The number some bytes spell, the lowest first. -/
def littleEndian (data : List DataByte) : Nat :=
  data.foldr (fun b rest => b.value + 256 * rest) 0

/-- Element `i` of width `w`, signed. -/
def elementAt (w : Nat) (data : List DataByte) (i : Nat) : Int :=
  Int.bmod (littleEndian ((data.drop (i * w)).take w)) (2 ^ (8 * w))

/-- A signed read of `w` bytes; it faults past the end of the copied data. -/
def readSigned (data : List DataByte) (base w : Nat) : Run Int :=
  if base + w ≤ data.length then
    .ok (Int.bmod (littleEndian ((data.drop base).take w)) (2 ^ (8 * w)))
  else .error .oob

/-- `FillArrayValues`. The index product has 32 bits. -/
def fillArrayValues (elementWidth size : Nat) (data : List DataByte) : Run (List Int) :=
  collect size fun i =>
    let base := i * elementWidth % 2 ^ 32
    match elementWidth with
    | 1 => readSigned data base 1
    | 2 => readSigned data base 2
    | 4 => readSigned data base 4
    | 8 => readSigned data base 8
    | _ => pure 0

/-- The widths an element can have. -/
def IsWidth (w : Nat) : Prop := w = 1 ∨ w = 2 ∨ w = 4 ∨ w = 8

instance (w : Nat) : Decidable (IsWidth w) := inferInstanceAs (Decidable (_ ∨ _))

/-- The values are elements of the data, from its start on, and no more than fit. -/
structure AreElements (w : Nat) (data : List DataByte) (values : List Int) : Prop where
  fit : values.length * w ≤ data.length
  element : ∀ i x, values[i]? = some x → IsWidth w ∧ x = elementAt w data i

variable {w size : Nat} {data : List DataByte} {values : List Int}

theorem fillArrayValues_of_width (hw : IsWidth w) : fillArrayValues w size data =
    collect size fun i => readSigned data (i * w % 2 ^ 32) w := by
  obtain rfl | rfl | rfl | rfl := hw <;> rfl

theorem fillArrayValues_of_not_width (hw : ¬IsWidth w) :
    fillArrayValues w size data = .ok ((List.range size).map fun _ => 0) := by
  have hone : w ≠ 1 := fun h => hw (Or.inl h)
  have htwo : w ≠ 2 := fun h => hw (Or.inr (Or.inl h))
  have hfour : w ≠ 4 := fun h => hw (Or.inr (Or.inr (Or.inl h)))
  have height : w ≠ 8 := fun h => hw (Or.inr (Or.inr (Or.inr h)))
  refine collect_eq fun i _ => ?_
  split
  · exact absurd rfl hone
  · exact absurd rfl htwo
  · exact absurd rfl hfour
  · exact absurd rfl height
  · rfl

theorem exists_of_collect {α : Type} {f : Nat → Run α} {n : Nat} {l : List α}
    (h : collect n f = .ok l) : ∀ i < n, ∃ a, f i = .ok a := by
  induction n generalizing l with
  | zero => exact fun i hi => absurd hi (Nat.not_lt_zero i)
  | succ n ih =>
    unfold collect at h
    rw [loop_succ] at h
    obtain ⟨init, hinit, h⟩ := bind_eq_ok.mp h
    obtain ⟨a, ha, -⟩ := bind_eq_ok.mp h
    intro i hi
    obtain hlt | rfl := Nat.lt_succ_iff_lt_or_eq.mp hi
    · exact ih hinit i hlt
    · exact ⟨a, ha⟩

/-- Data that is all there is read whole. -/
theorem fillArrayValues_of_whole (hw : IsWidth w) (hlen : w * size ≤ data.length)
    (hsmall : data.length < 2 ^ 32) :
    fillArrayValues w size data = .ok ((List.range size).map (elementAt w data)) := by
  have hread : ∀ i < size, readSigned data (i * w % 2 ^ 32) w = .ok (elementAt w data i) := by
    intro i hi
    have hin : i * w + w ≤ w * size := by
      rw [← Nat.succ_mul, Nat.mul_comm w]
      exact Nat.mul_le_mul_right w hi
    have hpos : 0 < w := by
      obtain rfl | rfl | rfl | rfl := hw <;> decide
    rw [Nat.mod_eq_of_lt (by omega), readSigned, if_pos (by omega)]
    rfl
  exact (fillArrayValues_of_width hw).trans (collect_eq hread)

theorem elements_of_whole (hw : IsWidth w) (hlen : w * size ≤ data.length)
    (hsmall : data.length < 2 ^ 32) : ∃ values, fillArrayValues w size data = .ok values ∧
      AreElements w data values := by
  refine ⟨_, fillArrayValues_of_whole hw hlen hsmall, ?_, fun i x hx => ⟨hw, ?_⟩⟩
  · rw [List.length_map, List.length_range, Nat.mul_comm]
    exact hlen
  · rw [List.getElem?_map] at hx
    obtain ⟨j, hj, rfl⟩ := Option.map_eq_some_iff.mp hx
    obtain ⟨hlt, rfl⟩ := List.getElem?_eq_some_iff.mp hj
    rw [List.getElem_range]

/-- The loop stays inside the data only when it is all there. -/
theorem whole_of_elements (hsize : size ≠ 0) (hsmall : data.length < 2 ^ 32)
    (hvalues : fillArrayValues w size data = .ok values) (h : AreElements w data values) :
    IsWidth w ∧ w * size ≤ data.length := by
  have hw : IsWidth w := by
    by_contra hw
    rw [fillArrayValues_of_not_width hw] at hvalues
    obtain rfl := Except.ok.inj hvalues
    refine hw (h.element 0 0 ?_).1
    rw [List.getElem?_map, List.getElem?_range (Nat.pos_of_ne_zero hsize)]
    rfl
  refine ⟨hw, ?_⟩
  rw [fillArrayValues_of_width hw] at hvalues
  by_contra hcut
  have hpos : 0 < w := by
    obtain rfl | rfl | rfl | rfl := hw <;> decide
  -- the first element that does not fit, before the product can wrap
  have hfirst : data.length / w * w ≤ data.length := Nat.div_mul_le_self _ _
  have hlt : data.length / w < size := by
    rw [Nat.div_lt_iff_lt_mul hpos, Nat.mul_comm]
    omega
  obtain ⟨x, hx⟩ := exists_of_collect hvalues _ hlt
  rw [Nat.mod_eq_of_lt (by omega), readSigned, if_neg] at hx
  · cases hx
  · have hnext := Nat.lt_mul_div_succ data.length hpos
    rw [Nat.mul_succ, Nat.mul_comm w] at hnext
    omega

end Payloads

namespace CodeItem

/-- The values of the payload at unit `t` are elements of its data, and every read is inside. -/
def FillsInside (c : CodeItem) (t : Nat) : Prop :=
  ∀ elementWidth size data,
    Payloads.parsePayloadAt c.units t = .ok (.fillArray elementWidth size data) →
      ∃ values, fillArrayValues elementWidth size data = .ok values ∧
        AreElements elementWidth data values

/-- The payload at unit `t` is of another kind, cut in its header or empty, or its elements
have a width an element can have and are all inside `insns[]`. -/
def ArrayFits (c : CodeItem) (t : Nat) : Prop :=
  c.unit t = kArrayDataSignature → t + 4 ≤ c.insnsSize → c.elementCount t = 0 ∨
    (IsWidth (c.elementWidth t) ∧ c.dataBytes t ≤ 2 * (c.insnsSize - (t + 4)))

variable {c : CodeItem} {t : Nat}

/-- The data of an array payload is what is left of it. -/
theorem parse_array (hkind : c.unit t = kArrayDataSignature) (hroom : t + 4 ≤ c.insnsSize) :
    ∃ data, Payloads.parsePayloadAt c.units t =
        .ok (.fillArray (c.elementWidth t) (c.elementCount t) data) ∧
      data.length = min (c.dataBytes t) (2 * (c.insnsSize - (t + 4))) := by
  have hlen := c.length_units
  have hcount : bitsAt c.units (t + 2) = c.elementCount t := by
    rw [bitsAt, unitValue_units c (by omega), unitValue_units c (by omega)]
    rfl
  have hread (j : Nat) (hj : j < min (c.elementWidth t * c.elementCount t)
      ((c.insnsSize - (t + 4)) * 2)) :
      readByte c.units (2 * (t + 4) + j) = .ok (byteOf c.units (2 * (t + 4) + j)) :=
    readByte_eq (by omega)
  unfold Payloads.parsePayloadAt
  rw [hlen, if_neg (by omega), unitOf_eq (by omega), bind_ok, unitValue_units c (by omega), hkind,
    if_neg (by decide), if_neg (by decide), if_pos (by decide), parseFillArrayPayload, hlen,
    if_neg (by omega), unitOf_eq (by omega), bind_ok, wordBits_eq (by omega), bind_ok, hcount,
    unitValue_units c (by omega)]
  dsimp only
  rw [show c.unit (t + 1) = c.elementWidth t from rfl, collect_eq hread, bind_ok]
  refine ⟨_, rfl, ?_⟩
  rw [List.length_map, List.length_range, Nat.mul_comm 2]
  rfl

/-- Nothing else gives an array payload. -/
theorem array_of_parse {elementWidth size : Nat} {data : List DataByte}
    (h : Payloads.parsePayloadAt c.units t = .ok (.fillArray elementWidth size data)) :
    c.unit t = kArrayDataSignature ∧ t + 4 ≤ c.insnsSize := by
  have hlen := c.length_units
  unfold Payloads.parsePayloadAt at h
  rw [hlen] at h
  split at h
  · cases h
  · rw [unitOf_eq (by omega), bind_ok, unitValue_units c (by omega)] at h
    split at h
    · unfold parsePackedSwitchPayload at h
      split at h
      · cases h
      · simp only [bind_eq_ok] at h
        obtain ⟨_, -, _, -, _, -, h⟩ := h
        cases h
    · split at h
      · unfold parseSparseSwitchPayload at h
        split at h
        · cases h
        · simp only [bind_eq_ok] at h
          obtain ⟨_, -, _, -, _, -, h⟩ := h
          cases h
      · split at h
        · rename_i hkind
          refine ⟨hkind, ?_⟩
          unfold parseFillArrayPayload at h
          split at h
          · cases h
          · omega
        · cases h

end CodeItem

/-- In a code item the strict gate accepts, whatever unit a fill-array-data points at, its
values are elements read inside the copied data exactly when the payload there fits. -/
theorem fill_array_inside_iff {image : Memory} {headerOff off : Nat} {v : Verifier}
    (hopen : openVerifier image headerOff true = .ok v)
    (haccept : v.verifyCodeItem off = .ok ()) (t : Nat) :
    (v.codeItem off).FillsInside t ↔ (v.codeItem off).ArrayFits t := by
  have hbytes : 2 * (v.codeItem off).insnsSize < 2 ^ 32 := Verifier.codeBytes_lt hopen haccept
  constructor
  · intro h hkind hroom
    obtain ⟨data, hparse, hlen⟩ := CodeItem.parse_array hkind hroom
    obtain ⟨values, hvalues, helements⟩ := h _ _ _ hparse
    by_cases hsize : (v.codeItem off).elementCount t = 0
    · exact Or.inl hsize
    · obtain ⟨hw, hwhole⟩ := whole_of_elements hsize (by omega) hvalues helements
      refine Or.inr ⟨hw, ?_⟩
      rw [CodeItem.dataBytes] at hlen ⊢
      omega
  · intro h elementWidth size data hparse
    obtain ⟨hkind, hroom⟩ := CodeItem.array_of_parse hparse
    obtain ⟨data', hparse', hlen⟩ := CodeItem.parse_array hkind hroom
    have heq := Except.ok.inj (hparse.symm.trans hparse')
    obtain ⟨rfl, rfl, rfl⟩ := ParsedPayload.fillArray.inj heq
    obtain hzero | ⟨hw, hfit⟩ := h hkind hroom
    · rw [hzero]
      exact ⟨[], rfl, Nat.zero_mul _ ▸ Nat.zero_le _, fun i x hx => by cases hx⟩
    · refine elements_of_whole hw ?_ (by omega)
      rw [CodeItem.dataBytes] at hlen hfit
      omega

/-- A bare header with the code item of `fill-array-data v0, +4; const-wide v1; return-void`,
where the constant spells the header of an array of 16 bytes. -/
def cutArrayImage : Memory :=
  List.replicate 32 0 ++ [146, 0, 0, 0] ++ List.replicate 76 0 ++
    [4, 0, 0, 0, 0, 0, 0, 0, 0, 0, 0, 0, 9, 0, 0, 0] ++
    [0x26, 0, 4, 0, 0, 0, 0x18, 1, 0, 3, 1, 0, 16, 0, 0, 0, 0x0E, 0]

set_option maxRecDepth 20000 in
def cutArrayVerifier : Verifier :=
  ⟨cutArrayImage, 0, headerAt cutArrayImage 0, ⟨0, 146, by decide⟩, true⟩

set_option maxRecDepth 1000 in
theorem cutArray_open : openVerifier cutArrayImage 0 true = .ok cutArrayVerifier := by
  rfl

def cutArrayIns : List RawIns :=
  [{ byteOff := 0, opcode := 0x26, payload := some 8 }, { byteOff := 6, opcode := 0x18 },
    { byteOff := 16, opcode := 0x0E }]

set_option maxRecDepth 20000 in
theorem cutArray_runs : cutArrayVerifier.verifyCodeItem 112 = .ok () ∧
    (cutArrayVerifier.codeItem 112).decodeAllFrom
      (cutArrayVerifier.codeItem 112).insnsSize 0 = .ok cutArrayIns ∧
    (cutArrayVerifier.codeItem 112).unit 4 = kArrayDataSignature ∧
    4 + 4 ≤ (cutArrayVerifier.codeItem 112).insnsSize ∧
    ¬((cutArrayVerifier.codeItem 112).elementCount 4 = 0 ∨
      (IsWidth ((cutArrayVerifier.codeItem 112).elementWidth 4) ∧
        (cutArrayVerifier.codeItem 112).dataBytes 4 ≤
          2 * ((cutArrayVerifier.codeItem 112).insnsSize - (4 + 4)))) := by
  decide

theorem fill_array_inside_iff_cutArray :
    (cutArrayVerifier.codeItem 112).FillsInside 4 ↔ (cutArrayVerifier.codeItem 112).ArrayFits 4 :=
  fill_array_inside_iff cutArray_open cutArray_runs.1 4

/-- The loop reads the third of 16 elements behind the two bytes that were copied. -/
theorem cutArray_outside : ¬ ∀ (image : Memory) (headerOff off : Nat) (v : Verifier)
    (ins : List RawIns) (ri : RawIns) (payload : Nat),
    openVerifier image headerOff true = .ok v → v.verifyCodeItem off = .ok () →
    (v.codeItem off).decodeAllFrom (v.codeItem off).insnsSize 0 = .ok ins → ri ∈ ins →
    isFillArrayData ri.opcode = true → ri.payload = some payload →
    (v.codeItem off).FillsInside (payload / 2) := by
  intro h
  obtain ⟨haccept, hins, hkind, hroom, hcut⟩ := cutArray_runs
  have hinside := h cutArrayImage 0 112 cutArrayVerifier cutArrayIns
    { byteOff := 0, opcode := 0x26, payload := some 8 } 8 cutArray_open haccept hins
    List.mem_cons_self rfl rfl
  obtain ⟨data, hparse, hlen⟩ := CodeItem.parse_array hkind hroom
  obtain ⟨values, hvalues, helements⟩ := hinside _ _ _ hparse
  obtain ⟨hsize, hrest⟩ := not_or.mp hcut
  have hsmall : data.length < 2 ^ 32 := by
    have hbytes : 2 * (cutArrayVerifier.codeItem 112).insnsSize < 2 ^ 32 :=
      Verifier.codeBytes_lt cutArray_open haccept
    omega
  obtain ⟨hw, hwhole⟩ := whole_of_elements hsize hsmall hvalues helements
  refine hrest ⟨hw, ?_⟩
  rw [CodeItem.dataBytes] at hlen ⊢
  omega

end Dexllm
