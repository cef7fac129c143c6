import Dexllm.Lib.Guarded
import Mathlib.Data.List.Basic
import Mathlib.Data.List.GetD
import Mathlib.Tactic.Ring

/-!
Little-endian memory. `byteAt`, `u2At` and `u4At` are total views of a byte
string, zero past its end; `read` is the access a program performs, which faults
unless every byte it touches is there.
-/

namespace Bytes

open Guarded

abbrev Memory := List UInt8

def byteAt (mem : Memory) (a : Nat) : Nat := (mem.getD a 0).toNat

def u2At (mem : Memory) (a : Nat) : Nat := byteAt mem a + 256 * byteAt mem (a + 1)

def u4At (mem : Memory) (a : Nat) : Nat := u2At mem a + 65536 * u2At mem (a + 2)

/-- Read `size` bytes at `a` as the value `view` gives them. -/
def read {α : Type} (size : Nat) (view : Memory → Nat → α) (mem : Memory) (a : Nat) : Run α :=
  if a + size ≤ mem.length then .ok (view mem a) else .error .oob

def readU1 : Memory → Nat → Run Nat := read 1 byteAt

def readU2 : Memory → Nat → Run Nat := read 2 u2At

def readU4 : Memory → Nat → Run Nat := read 4 u4At

/-- `*p++` on a pointer given as the memory from it to the end. -/
def deref : Memory → Run (Nat × Memory)
  | [] => .error .oob
  | b :: rest => .ok (b.toNat, rest)

section Bounds

variable (mem : Memory) (a : Nat)

theorem byteAt_lt : byteAt mem a < 256 := (mem.getD a 0).toNat_lt

theorem u2At_lt : u2At mem a < 65536 := by
  have hlow := byteAt_lt mem a
  have hhigh := byteAt_lt mem (a + 1)
  unfold u2At
  omega

theorem u4At_lt : u4At mem a < 2 ^ 32 := by
  have hlow := u2At_lt mem a
  have hhigh := u2At_lt mem (a + 2)
  unfold u4At
  omega

end Bounds

section Reads

variable {α : Type} {size : Nat} {view : Memory → Nat → α} {mem : Memory} {a : Nat}

@[simp] theorem wp_read {post : α → Prop} :
    wp (read size view mem a) post ↔ a + size ≤ mem.length ∧ post (view mem a) := by
  by_cases h : a + size ≤ mem.length <;> simp [read, h]

theorem read_eq_ok {v : α} :
    read size view mem a = .ok v ↔ a + size ≤ mem.length ∧ view mem a = v := by
  by_cases h : a + size ≤ mem.length <;> simp [read, h]

theorem read_of_le (h : a + size ≤ mem.length) :
    read size view mem a = .ok (view mem a) := by
  simp [read, h]

@[simp] theorem wp_readU1 {post : Nat → Prop} :
    wp (readU1 mem a) post ↔ a + 1 ≤ mem.length ∧ post (byteAt mem a) := wp_read

@[simp] theorem wp_readU2 {post : Nat → Prop} :
    wp (readU2 mem a) post ↔ a + 2 ≤ mem.length ∧ post (u2At mem a) := wp_read

@[simp] theorem wp_readU4 {post : Nat → Prop} :
    wp (readU4 mem a) post ↔ a + 4 ≤ mem.length ∧ post (u4At mem a) := wp_read

end Reads

section Windows

variable (mem : Memory) (start a : Nat)

/-- The bytes `[start, start + size)` as a memory of their own. -/
def slice (size : Nat) : Memory := (mem.drop start).take size

theorem length_slice (size : Nat) :
    (slice mem start size).length = min size (mem.length - start) := by
  simp [slice]

theorem byteAt_drop : byteAt (mem.drop start) a = byteAt mem (start + a) := by
  simp [byteAt, List.getD_eq_getElem?_getD]

theorem byteAt_slice {size : Nat} (h : a < size) :
    byteAt (slice mem start size) a = byteAt mem (start + a) := by
  rw [← byteAt_drop]
  simp [byteAt, slice, List.getD_eq_getElem?_getD, h]

theorem u2At_slice {size : Nat} (h : a + 2 ≤ size) :
    u2At (slice mem start size) a = u2At mem (start + a) := by
  unfold u2At
  rw [byteAt_slice mem start a (by omega), byteAt_slice mem start (a + 1) (by omega),
    Nat.add_assoc]

theorem u4At_slice {size : Nat} (h : a + 4 ≤ size) :
    u4At (slice mem start size) a = u4At mem (start + a) := by
  unfold u4At
  rw [u2At_slice mem start a (by omega), u2At_slice mem start (a + 2) (by omega),
    Nat.add_assoc]

end Windows

/-- The memory from an in-range address starts with the byte there. -/
theorem drop_eq_cons {mem : Memory} {a : Nat} (h : a < mem.length) :
    ∃ b : UInt8, b.toNat = byteAt mem a ∧ mem.drop a = b :: mem.drop (a + 1) := by
  refine ⟨mem[a], ?_, List.drop_eq_getElem_cons h⟩
  simp [byteAt, List.getD_eq_getElem?_getD, h]

end Bytes
