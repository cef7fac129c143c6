import Dexllm.Flow.PayloadTables

/-!
The width of an array payload. The walk over the instructions steps over as many
units as the payload occupies exactly when the byte count of its data, plus one,
fits 32 bits.
-/

namespace Dexllm

open Guarded Bytes Payloads

namespace CodeItem

variable (c : CodeItem) (k : Nat)

/-- The element width and the element count the payload at unit `k` declares. -/
def elementWidth : Nat := c.unit (k + 1)

def elementCount : Nat := c.unit (k + 2) + 65536 * c.unit (k + 3)

/-- The bytes of its data. -/
def dataBytes : Nat := c.elementWidth k * c.elementCount k

/-- The code units it occupies. -/
def arrayUnits : Nat := 4 + (c.dataBytes k + 1) / 2

/-- The walk steps over the whole payload at unit `k`, and the parser returns its
data, every byte from inside it. -/
structure ArrayWhole : Prop where
  width : c.getBytecodeWidth k = c.arrayUnits k
  inside : k + c.arrayUnits k ≤ c.insnsSize
  data : ∃ bytes, Payloads.parsePayloadAt c.units k =
      .ok (.fillArray (c.elementWidth k) (c.elementCount k) bytes) ∧
    bytes.length = c.dataBytes k ∧
    ∀ j b, bytes[j]? = some b → b = byteOf c.units (2 * (k + 4) + j) ∧
      2 * (k + 4) ≤ b.pos ∧ b.pos < 2 * (k + c.arrayUnits k)

variable {c k}

theorem elementCount_eq : c.unit (k + 2) ||| (c.unit (k + 3) <<< 16) = c.elementCount k := by
  rw [Nat.lor_comm, ← Nat.shiftLeft_add_eq_or_of_lt (show c.unit (k + 2) < 2 ^ 16 from u2At_lt _ _),
    Nat.shiftLeft_eq, elementCount]
  omega

/-- The width of an array payload, as the walk computes it. -/
theorem width_of_array (hkind : c.unit k = kArrayDataSignature) :
    c.getBytecodeWidth k = 4 + (c.dataBytes k + 1) % 2 ^ 32 / 2 := by
  have hpacked : c.unit k ≠ kPackedSwitchSignature := hkind ▸ by decide
  have hsparse : c.unit k ≠ kSparseSwitchSignature := hkind ▸ by decide
  rw [getBytecodeWidth, if_neg hpacked, if_neg hsparse, if_pos hkind, elementCount_eq]
  rfl

theorem width_eq_iff (hkind : c.unit k = kArrayDataSignature) :
    c.getBytecodeWidth k = c.arrayUnits k ↔ c.dataBytes k + 1 < 2 ^ 32 := by
  rw [width_of_array hkind, arrayUnits]
  omega

/-- A payload with room for its data is parsed whole. -/
theorem data_of_room (hkind : c.unit k = kArrayDataSignature)
    (hroom : k + c.arrayUnits k ≤ c.insnsSize) :
    Payloads.parsePayloadAt c.units k = .ok (.fillArray (c.elementWidth k) (c.elementCount k)
      ((List.range (c.dataBytes k)).map fun j => byteOf c.units (2 * (k + 4) + j))) := by
  have hlen := c.length_units
  unfold arrayUnits at hroom
  have hcount : bitsAt c.units (k + 2) = c.elementCount k := by
    rw [bitsAt, unitValue_units c (by omega), unitValue_units c (by omega)]
    rfl
  have hbytes : min (c.elementWidth k * c.elementCount k) ((c.insnsSize - (k + 4)) * 2) =
      c.dataBytes k := by
    rw [dataBytes] at hroom ⊢
    omega
  have hread (j : Nat) (hj : j < c.dataBytes k) : readByte c.units (2 * (k + 4) + j) =
      .ok (byteOf c.units (2 * (k + 4) + j)) :=
    readByte_eq (by omega)
  unfold Payloads.parsePayloadAt
  rw [hlen, if_neg (by omega), unitOf_eq (by omega), bind_ok, unitValue_units c (by omega), hkind,
    if_neg (by decide), if_neg (by decide), if_pos (by decide), parseFillArrayPayload, hlen,
    if_neg (by omega), unitOf_eq (by omega), bind_ok, wordBits_eq (by omega), bind_ok, hcount,
    unitValue_units c (by omega)]
  dsimp only
  rw [show c.unit (k + 1) = c.elementWidth k from rfl, hbytes, collect_eq hread]
  rfl

end CodeItem

/-- In an array of instructions the gate accepts, the walk steps over an array
payload whole, and the parser returns its data, exactly when one more than its
byte count is below 2^32. -/
theorem array_whole_iff {v : Verifier} {c : CodeItem} (himage : v.image = c.mem)
    {registersSize : Nat} (haccept : v.verifyInsns c.insns c.insnsSize registersSize = .ok ())
    {k : Nat} (hk : k ∈ c.boundaries) (hkind : c.unit k = kArrayDataSignature) :
    c.ArrayWhole k ↔ c.dataBytes k + 1 < 2 ^ 32 := by
  constructor
  · intro h
    exact (CodeItem.width_eq_iff hkind).mp h.width
  · intro hsmall
    have hwidth := (CodeItem.width_eq_iff hkind).mpr hsmall
    have hroom : k + c.arrayUnits k ≤ c.insnsSize := by
      rw [← hwidth]
      exact (CodeItem.insns_of_verifyInsnsFrom himage (Nat.sub_le _ _) haccept k hk).1.2.1
    refine ⟨hwidth, hroom, _, CodeItem.data_of_room hkind hroom, by simp, fun j b hb => ?_⟩
    rw [List.getElem?_map] at hb
    obtain ⟨i, hi, rfl⟩ := Option.map_eq_some_iff.mp hb
    obtain ⟨hlt, rfl⟩ := List.getElem?_eq_some_iff.mp hi
    rw [List.length_range] at hlt
    rw [List.getElem_range]
    refine ⟨rfl, ?_⟩
    unfold CodeItem.arrayUnits
    change 2 * (k + 4) ≤ 2 * (k + 4) + j ∧
      2 * (k + 4) + j < 2 * (k + (4 + (c.dataBytes k + 1) / 2))
    omega

/-- An array payload of one byte, and one of 131072 elements of 32768 bytes. -/
def oneByteUnits : Memory := [0, 3, 1, 0, 1, 0, 0, 0, 7, 0]

def wrappedUnits : Memory := [0, 3, 0, 0x80, 0, 0, 2, 0]

/-- A gate over these bytes alone. -/
def bareVerifier (image : Memory) : Verifier :=
  ⟨image, 0, headerAt image 0, ⟨0, 0, Nat.zero_le _⟩, true⟩

theorem array_whole_iff_oneByte :
    (⟨oneByteUnits, 0, 5, 0⟩ : CodeItem).ArrayWhole 0 :=
  (@array_whole_iff (bareVerifier oneByteUnits) ⟨oneByteUnits, 0, 5, 0⟩ rfl 0 (by decide) 0
    (by decide) (by decide)).mpr (by decide)

/-- The walk takes the 2^32 data bytes for none. -/
theorem wrapped_not_whole : ¬ ∀ (v : Verifier) (c : CodeItem) (registersSize k : Nat),
    v.image = c.mem → v.verifyInsns c.insns c.insnsSize registersSize = .ok () →
      k ∈ c.boundaries → c.unit k = kArrayDataSignature → c.ArrayWhole k := by
  intro h
  have hwhole := h (bareVerifier wrappedUnits) ⟨wrappedUnits, 0, 4, 0⟩ 0 0 rfl (by decide)
    (by decide) (by decide)
  exact absurd hwhole.inside (by decide)

end Dexllm
