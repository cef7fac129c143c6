import Mathlib.Data.BitVec

/-!
Values of a machine with 32-bit registers and pairs of them. Integer arithmetic is that of
words; the floating-point operations are a parameter. An operation reads its operands at
the width of its type, so it does not see what else a register holds.
-/

namespace MachineWords

inductive Width where
  | narrow | wide
  deriving DecidableEq, Repr

def Width.bits : Width → Nat
  | narrow => 32
  | wide => 64

/-- What one register holds, or a pair. -/
inductive Value where
  | narrow (bits : BitVec 32)
  | wide (bits : BitVec 64)
  deriving DecidableEq

namespace Value

def width : Value → Width
  | narrow _ => .narrow
  | wide _ => .wide

/-- The low `w` bits. -/
def bits (w : Nat) : Value → BitVec w
  | narrow b => b.setWidth w
  | wide b => b.setWidth w

/-- A value as an operand of a width. -/
def view : Width → Value → Value
  | .narrow, x => .narrow (x.bits 32)
  | .wide, x => .wide (x.bits 64)

/-- The bitwise complement. -/
def complement (x : Value) : Width → Value
  | .narrow => .narrow (~~~x.bits 32)
  | .wide => .wide (~~~x.bits 64)

def ofBits : Width → BitVec 64 → Value
  | .narrow, b => .narrow (b.setWidth 32)
  | .wide, b => .wide b

/-- The value of a literal. -/
def ofInt : Width → Int → Value
  | .narrow, n => .narrow (BitVec.ofInt 32 n)
  | .wide, n => .wide (BitVec.ofInt 64 n)

@[simp] theorem bits_narrow (b : BitVec 32) : (narrow b).bits 32 = b := BitVec.setWidth_eq b

@[simp] theorem bits_wide (b : BitVec 64) : (wide b).bits 64 = b := BitVec.setWidth_eq b

theorem bits_setWidth (x : Value) {v w : Nat} (h : v ≤ w) : (x.bits w).setWidth v = x.bits v := by
  cases x <;> exact BitVec.setWidth_setWidth_of_le _ h

/-- Values with one view have the same bits up to its width. -/
theorem bits_eq_of_view {w : Width} {x y : Value} {v : Nat} (h : x.view w = y.view w)
    (hv : v ≤ w.bits) : x.bits v = y.bits v := by
  have hbits : x.bits w.bits = y.bits w.bits := by
    cases w with
    | narrow => exact Value.narrow.inj h
    | wide => exact Value.wide.inj h
  rw [← x.bits_setWidth hv, hbits, y.bits_setWidth hv]

end Value

/-- A literal is taken modulo the width it is used at. -/
theorem ofInt_bmod {v w : Nat} (h : v ≤ w) (n : Int) :
    BitVec.ofInt v (n.bmod (2 ^ w)) = BitVec.ofInt v n := by
  refine BitVec.eq_of_toInt_eq ?_
  rw [BitVec.toInt_ofInt, BitVec.toInt_ofInt, Int.bmod_bmod_of_dvd (Nat.pow_dvd_pow 2 h)]

theorem Value.ofInt_bmod (w : Width) (n : Int) : Value.ofInt w (n.bmod (2 ^ 64)) = .ofInt w n := by
  cases w with
  | narrow => exact congrArg Value.narrow (MachineWords.ofInt_bmod (by decide) n)
  | wide => exact congrArg Value.wide (MachineWords.ofInt_bmod le_rfl n)

inductive NumType where
  | int | long | float | double
  deriving DecidableEq, Repr

def NumType.width : NumType → Width
  | int | float => .narrow
  | long | double => .wide

inductive BinOp where
  | add | sub | mul | div | rem | and | or | xor | shl | shr | ushr
  deriving DecidableEq, Repr

namespace BinOp

/-- The width of the right operand: a shift distance is narrow. -/
def rightWidth (t : NumType) : BinOp → Width
  | shl | shr | ushr => .narrow
  | _ => t.width

/-- The integer operations on words. A division by zero throws, and a shift takes the low
bits of its distance. -/
def eval {w : Nat} (x : BitVec w) (y : Value) : BinOp → Option (BitVec w)
  | add => some (x + y.bits w)
  | sub => some (x - y.bits w)
  | mul => some (x * y.bits w)
  | div => if y.bits w = 0 then none else some (x.sdiv (y.bits w))
  | rem => if y.bits w = 0 then none else some (x.srem (y.bits w))
  | and => some (x &&& y.bits w)
  | or => some (x ||| y.bits w)
  | xor => some (x ^^^ y.bits w)
  | shl => some (x <<< ((y.bits 32).toNat % w))
  | shr => some (x.sshiftRight ((y.bits 32).toNat % w))
  | ushr => some (x >>> ((y.bits 32).toNat % w))

end BinOp

/-- The operations on floating-point numbers. `convert` has a number that is none on one
side at most. -/
structure FloatUnit where
  arith32 : BinOp → BitVec 32 → BitVec 32 → BitVec 32
  arith64 : BinOp → BitVec 64 → BitVec 64 → BitVec 64
  neg32 : BitVec 32 → BitVec 32
  neg64 : BitVec 64 → BitVec 64
  convert : NumType → NumType → BitVec 64 → BitVec 64
  compare32 : BitVec 32 → BitVec 32 → Option Ordering
  compare64 : BitVec 64 → BitVec 64 → Option Ordering

/-- The integer types a conversion can cut an int to. -/
inductive SmallInt where
  | byte | char | short
  deriving DecidableEq, Repr

def SmallInt.ofInt (x : Value) : SmallInt → Value
  | byte => .narrow ((x.bits 8).signExtend 32)
  | char => .narrow ((x.bits 16).setWidth 32)
  | short => .narrow ((x.bits 16).signExtend 32)

theorem Value.complement_congr {w : Width} {x x' : Value} (hx : x.view w = x'.view w) :
    x.complement w = x'.complement w := by
  have hbits := bits_eq_of_view hx le_rfl
  cases w with
  | narrow => exact congrArg (fun b => Value.narrow (~~~b)) hbits
  | wide => exact congrArg (fun b => Value.wide (~~~b)) hbits

theorem SmallInt.ofInt_congr {t : SmallInt} {x x' : Value} (hx : x.view .narrow = x'.view .narrow) :
    t.ofInt x = t.ofInt x' := by
  have hbyte : x.bits 8 = x'.bits 8 := Value.bits_eq_of_view hx (by decide)
  have hshort : x.bits 16 = x'.bits 16 := Value.bits_eq_of_view hx (by decide)
  cases t <;> simp only [ofInt, hbyte, hshort]

namespace FloatUnit

variable (F : FloatUnit)

/-- The operands are read at the widths of the operation. -/
def arith (op : BinOp) (x y : Value) (t : NumType) : Option Value :=
  let x := x.view t.width
  let y := y.view (op.rightWidth t)
  match t with
  | .int => (op.eval (x.bits 32) y).map .narrow
  | .long => (op.eval (x.bits 64) y).map .wide
  | .float => some (.narrow (F.arith32 op (x.bits 32) (y.bits 32)))
  | .double => some (.wide (F.arith64 op (x.bits 64) (y.bits 64)))

def neg (x : Value) : NumType → Value
  | .int => .narrow (-x.bits 32)
  | .long => .wide (-x.bits 64)
  | .float => .narrow (F.neg32 (x.bits 32))
  | .double => .wide (F.neg64 (x.bits 64))

/-- The types are those of the operand and of the result. -/
def cast (x : Value) (src dst : NumType) : Value :=
  let x := x.view src.width
  match src, dst with
  | .int, .long => .wide ((x.bits 32).signExtend 64)
  | .long, .int => .narrow ((x.bits 64).setWidth 32)
  | src, dst => .ofBits dst.width (F.convert src dst (x.bits 64))

/-- Unordered operands have no order. -/
def compare (x y : Value) : NumType → Option Ordering
  | .float => F.compare32 (x.bits 32) (y.bits 32)
  | .double => F.compare64 (x.bits 64) (y.bits 64)
  | .int => some (Ord.compare (x.bits 32).toInt (y.bits 32).toInt)
  | .long => some (Ord.compare (x.bits 64).toInt (y.bits 64).toInt)

/-! Nothing but the operands at their widths counts. -/

variable {F} {x x' y y' : Value} {t : NumType}

theorem arith_congr {op : BinOp} (hx : x.view t.width = x'.view t.width)
    (hy : y.view (op.rightWidth t) = y'.view (op.rightWidth t)) :
    F.arith op x y t = F.arith op x' y' t := by
  unfold arith
  rw [hx, hy]

theorem neg_congr (hx : x.view t.width = x'.view t.width) : F.neg x t = F.neg x' t := by
  have hbits := Value.bits_eq_of_view hx le_rfl
  cases t with
  | int => exact congrArg (fun b => Value.narrow (-b)) hbits
  | long => exact congrArg (fun b => Value.wide (-b)) hbits
  | float => exact congrArg (fun b => Value.narrow (F.neg32 b)) hbits
  | double => exact congrArg (fun b => Value.wide (F.neg64 b)) hbits

theorem cast_congr {dst : NumType} (hx : x.view t.width = x'.view t.width) :
    F.cast x t dst = F.cast x' t dst := by
  unfold cast
  rw [hx]

theorem compare_congr (hx : x.view t.width = x'.view t.width)
    (hy : y.view t.width = y'.view t.width) : F.compare x y t = F.compare x' y' t := by
  have hxbits := Value.bits_eq_of_view hx le_rfl
  have hybits := Value.bits_eq_of_view hy le_rfl
  cases t with
  | int => exact congrArg₂ (fun a b => some (Ord.compare a.toInt b.toInt)) hxbits hybits
  | long => exact congrArg₂ (fun a b => some (Ord.compare a.toInt b.toInt)) hxbits hybits
  | float => exact congrArg₂ F.compare32 hxbits hybits
  | double => exact congrArg₂ F.compare64 hxbits hybits

/-- Subtracting the negated literal adds it. -/
theorem arith_sub_neg (n : Int) :
    F.arith .sub x (.ofInt .narrow (-n)) .int = F.arith .add x (.ofInt .narrow n) .int := by
  have hsub : ∀ b : BitVec 32, b - BitVec.ofInt 32 (-n) = b + BitVec.ofInt 32 n := by
    intro b
    rw [BitVec.ofInt_neg, BitVec.sub_eq_add_neg, BitVec.neg_neg]
  simp [arith, BinOp.rightWidth, NumType.width, Value.view, Value.ofInt, BinOp.eval, hsub]

end FloatUnit

end MachineWords
