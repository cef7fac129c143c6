import Dexllm.Format
import Dexllm.Lib.Leb128

/-!
The slicer's `Reader` over one logical dex: the checks of its header, the
section and data pointers, and the unbounded primitives the core reads strings
and class_data with. A failed `SLICER_CHECK` throws.
-/

namespace Dexllm

open Guarded Bytes Leb128

/-- `SLICER_CHECK`. -/
def slicerCheck (c : Prop) [Decidable c] : Run Unit :=
  if c then .ok () else .error (.thrown "SLICER_CHECK failed")

/-- The core's `ReadULeb128` from byte `i` on: it stops at the first byte
without a continuation bit, wherever that is. -/
def readULeb128From (mem : Memory) : (fuel i p res : Nat) → Run (Nat × Nat)
  | 0, _, _, _ => .error .oob
  | fuel + 1, i, p, res => do
    let b ← readU1 mem p
    let res := res ||| (((b &&& 0x7f) <<< (7 * i)) % 2 ^ 32)
    if b &&& 0x80 = 0 then pure (res, p + 1) else readULeb128From mem fuel (i + 1) (p + 1) res

/-- `ReadULeb128`: the value and the cursor after it. -/
def readULeb128 (mem : Memory) (p : Nat) : Run (Nat × Nat) :=
  readULeb128From mem (mem.length - p) 0 p 0

/-- The characters of the C string at the start of a memory. -/
def cString : Memory → Run (List UInt8)
  | [] => .error .oob
  | c :: s =>
    if c = 0 then .ok []
    else do
      let rest ← cString s
      pure (c :: rest)

/-- `v[i]` on a vector. -/
def vectorAt {α : Type} (l : List α) (i : Nat) : Run α :=
  match l[i]? with
  | some a => .ok a
  | none => .error .oob

/-- `dex::Reader`: `base` is `image_` and `size` is `size_` after
`ValidateHeader`. -/
structure Reader where
  image : Memory
  base : Nat
  size : Nat
  header : Header

namespace Reader

variable (r : Reader)

/-- `ptr<T>`: an offset is an `int`, and only its sign is checked. -/
def ptr (off : Nat) : Run Nat := do
  slicerCheck (off < 2 ^ 31)
  pure (r.base + off)

/-- `dataPtr<T>` for a `T` of `bytes` bytes: the offset, an `int`, is at least
the truth value of the range test. -/
def dataPtr (off bytes : Nat) : Run Nat := do
  slicerCheck (off < 2 ^ 31 ∧
    ((r.header.dataOff ≠ 0 ∧ off + bytes ≤ r.size) → 1 ≤ off))
  pure (r.base + off)

/-- Entry `i` of the section at `off`, `size` entries of `bytes` bytes. -/
def sectionAt {α : Type} (bytes : Nat) (view : Memory → Nat → α) (off size i : Nat) : Run α := do
  let p ← r.ptr off
  slicerCheck (i < size)
  read bytes view r.image (p + i * bytes)

def stringId (i : Nat) : Run Nat := r.sectionAt 4 u4At r.header.stringIdsOff r.header.stringIdsSize i

def typeId (i : Nat) : Run Nat := r.sectionAt 4 u4At r.header.typeIdsOff r.header.typeIdsSize i

def protoId (i : Nat) : Run ProtoId :=
  r.sectionAt ProtoId.bytes protoIdAt r.header.protoIdsOff r.header.protoIdsSize i

def fieldId (i : Nat) : Run FieldId :=
  r.sectionAt FieldId.bytes fieldIdAt r.header.fieldIdsOff r.header.fieldIdsSize i

def methodId (i : Nat) : Run MethodId :=
  r.sectionAt MethodId.bytes methodIdAt r.header.methodIdsOff r.header.methodIdsSize i

def classDef (i : Nat) : Run ClassDef :=
  r.sectionAt ClassDef.bytes classDefAt r.header.classDefsOff r.header.classDefsSize i

/-- The views of the six id tables `InitBaseCache` takes: their offsets are no
negative `int`s. -/
def viewTables : Run Unit := do
  slicerCheck (r.header.stringIdsOff < 2 ^ 31)
  slicerCheck (r.header.typeIdsOff < 2 ^ 31)
  slicerCheck (r.header.protoIdsOff < 2 ^ 31)
  slicerCheck (r.header.fieldIdsOff < 2 ^ 31)
  slicerCheck (r.header.methodIdsOff < 2 ^ 31)
  slicerCheck (r.header.classDefsOff < 2 ^ 31)

/-- The rest of `ValidateHeader`, once `image_` and `size_` span the
container. -/
def validateSections : Run Unit := do
  let header := r.header
  slicerCheck (header.stringIdsOff % 4 = 0)
  slicerCheck (header.typeIdsSize < 65536)
  slicerCheck (header.typeIdsOff % 4 = 0)
  slicerCheck (header.protoIdsSize < 65536)
  slicerCheck (header.protoIdsOff % 4 = 0)
  slicerCheck (header.fieldIdsOff % 4 = 0)
  slicerCheck (header.methodIdsOff % 4 = 0)
  slicerCheck (header.classDefsOff % 4 = 0)
  slicerCheck (header.dataOff ≤ header.mapOff)
  slicerCheck (header.mapOff < r.size)
  slicerCheck (header.linkSize = 0)
  slicerCheck (header.linkOff = 0)
  slicerCheck (header.dataOff % 4 = 0)
  slicerCheck (header.mapOff % 4 = 0)
  let map ← r.ptr header.mapOff
  let count ← readU4 r.image map
  slicerCheck (0 < count)
  slicerCheck (header.mapOff + (4 + MapItem.bytes * count) ≤ r.size)

end Reader

/-- `Reader::Reader` on the header at `headerOff`, with `ValidateHeader`. -/
def openReader (image : Memory) (headerOff : Nat) : Run Reader := do
  let size := image.length - headerOff
  let header ← read kV40Size headerAt image headerOff
  slicerCheck (kV40Size < size)
  slicerCheck (header.fileSize ≤ size)
  slicerCheck (header.headerSize = kV40Size ∨ header.headerSize = kV41Size)
  slicerCheck (header.endianTag = kEndianConstant)
  slicerCheck (header.dataSize % 4 = 0)
  let containerOff ← readContainerOff image headerOff header
  let containerSize ← readContainerSize image headerOff header
  slicerCheck ((containerSize + (2 ^ 32 - containerOff)) % 2 ^ 32 ≤ size)
  let r : Reader := ⟨image, headerOff - containerOff, containerSize, header⟩
  r.validateSections
  pure r

section Specs

theorem slicerCheck_eq_ok {c : Prop} [Decidable c] {u : Unit} : slicerCheck c = .ok u ↔ c := by
  by_cases h : c <;> simp [slicerCheck, h]

@[simp] theorem wp_slicerCheck {c : Prop} [Decidable c] {post : Unit → Prop} :
    wp (slicerCheck c) post ↔ (c → post ()) := by
  by_cases h : c <;> simp [slicerCheck, h]

theorem vectorAt_eq_ok {α : Type} {l : List α} {i : Nat} {a : α} :
    vectorAt l i = .ok a ↔ l[i]? = some a := by
  unfold vectorAt
  cases l[i]? <;> simp

/-- The core reads an encoding the verifier accepted as the verifier did. -/
theorem readULeb128_eq {mem : Memory} {p value q : Nat} (h : UlebAt mem p value q) :
    readULeb128 mem p = .ok (value, q) := by
  obtain ⟨n, ⟨hpos, hmore, hlast⟩, _, rfl, rfl, hq⟩ := h
  have hround : ∀ k i, i + k = n → 0 < k → ∀ fuel, k ≤ fuel →
      readULeb128From mem fuel i (p + i) (ulebValue mem p i % 2 ^ 32) =
        .ok (ulebValue mem p n % 2 ^ 32, p + n) := by
    intro k
    induction k with
    | zero => intro i _ hk; omega
    | succ k ih =>
      intro i hi _ fuel hfuel
      obtain ⟨fuel, rfl⟩ : ∃ m, fuel = m + 1 := ⟨fuel - 1, by omega⟩
      have hread : readU1 mem (p + i) = .ok (byteAt mem (p + i)) := read_of_le (by omega)
      simp only [readULeb128From, hread, bind_ok, ulebValue_succ_mod]
      by_cases hk : k = 0
      · have hlast' : byteAt mem (p + i) &&& 0x80 = 0 := by
          rw [show i = n - 1 by omega]
          exact hlast
        rw [if_pos hlast', show i + 1 = n by omega, show p + i + 1 = p + n by omega]
        rfl
      · rw [if_neg (hmore i (by omega))]
        exact ih (i + 1) (by omega) (by omega) fuel (by omega)
  exact hround n 0 (by omega) hpos _ (by omega)

/-- The C string of a terminated run of nonzero bytes. -/
theorem cString_terminated {bs : List UInt8} (rest : Memory) (h : ∀ b ∈ bs, b ≠ 0) :
    cString (bs ++ 0 :: rest) = .ok bs := by
  induction bs with
  | nil => rfl
  | cons b bs ih =>
    have hb : b ≠ 0 := h b (by simp)
    simp only [List.cons_append, cString, hb, if_false]
    rw [ih fun c hc => h c (by simp [hc])]
    rfl

end Specs

end Dexllm
