import Dexllm.Flow.Insns

/-!
The exception table as the two control-flow builders read it: behind the
instructions, each read bounded by the end of the image only.
-/

namespace Dexllm

open Bytes

/-- A ULEB128 of at most five bytes that stops at `stop`: its low 32 bits and
the cursor after it. -/
def ulebBefore (mem : Memory) (stop : Nat) : (rounds shift p result : Nat) → Nat × Nat
  | 0, _, p, result => (result, p)
  | rounds + 1, shift, p, result =>
    if p < stop then
      let b := byteAt mem p
      let result := result ||| (((b &&& 0x7f) <<< shift) % 2 ^ 32)
      if b &&& 0x80 = 0 then (result, p + 1)
      else ulebBefore mem stop rounds (shift + 7) (p + 1) result
    else (result, p)

/-- The SLEB128 of the same bounds; `b` is the last byte read. -/
def slebBefore (mem : Memory) (stop : Nat) : (rounds shift p result b : Nat) → Int × Nat
  | 0, _, p, result, _ => (Verifier.toS4 result, p)
  | rounds + 1, shift, p, result, b =>
    let extended (shift b result : Nat) : Int := Verifier.toS4
      (if shift < 32 ∧ b &&& 0x40 ≠ 0 then result ||| (2 ^ 32 - 2 ^ shift) else result)
    if p < stop then
      let b := byteAt mem p
      let result := result ||| (((b &&& 0x7f) <<< shift) % 2 ^ 32)
      if b &&& 0x80 = 0 then (extended (shift + 7) b result, p + 1)
      else slebBefore mem stop rounds (shift + 7) (p + 1) result b
    else (extended shift b result, p)

/-- The byte offsets of at most `count` typed handlers from `p`, and the cursor
after them. -/
def typedHandlers (mem : Memory) (stop : Nat) : (count p : Nat) → List Nat × Nat
  | 0, p => ([], p)
  | count + 1, p =>
    if p < stop then
      let (_, p) := ulebBefore mem stop 5 0 p 0
      let (addr, p) := ulebBefore mem stop 5 0 p 0
      let (rest, p) := typedHandlers mem stop count p
      (addr * 2 % 2 ^ 32 :: rest, p)
    else ([], p)

/-- A try_item as the snapshot keeps it, in byte offsets. -/
structure ParsedTry where
  startByte : Nat
  endByte : Nat
  handlers : List Nat
  deriving DecidableEq, Repr

namespace CodeItem

variable (c : CodeItem)

/-- The first try_item: the end of the instructions, aligned to four bytes. -/
def tryItems : Nat := (c.insns + c.codeBytes + 3) / 4 * 4

def handlersBase : Nat := c.tryItems + c.triesSize * TryBlock.bytes

def tryItem (i : Nat) : TryBlock := tryBlockAt c.mem (c.tryItems + i * TryBlock.bytes)

/-- The handler offsets `BuildCfg` gathers. -/
def cfgHandlers : List Nat :=
  let stop := c.mem.length
  if c.triesSize = 0 ∨ stop < c.handlersBase then []
  else (List.range c.triesSize).flatMap fun i =>
    let hp := c.handlersBase + (c.tryItem i).handlerOff
    if stop ≤ hp then []
    else
      let (size, p) := slebBefore c.mem stop 5 0 hp 0 0
      let (typed, p) := typedHandlers c.mem stop size.natAbs p
      if size ≤ 0 ∧ p < stop then typed ++ [(ulebBefore c.mem stop 5 0 p 0).1 * 2 % 2 ^ 32]
      else typed

/-- `ParseExceptions`, without the handlers' types. -/
def parseExceptions : List ParsedTry :=
  let stop := c.mem.length
  if c.triesSize = 0 ∨ stop < c.handlersBase then []
  else (List.range c.triesSize).filterMap fun i =>
    let item := c.tryItem i
    let p := c.handlersBase + item.handlerOff
    if stop ≤ p then none
    else
      let (size, p) := slebBefore c.mem stop 5 0 p 0 0
      let (typed, p) := typedHandlers c.mem stop size.natAbs p
      let handlers :=
        if size ≤ 0 then typed ++ [(ulebBefore c.mem stop 5 0 p 0).1 * 2 % 2 ^ 32] else typed
      some ⟨item.startAddr * 2 % 2 ^ 32, (item.startAddr + item.insnCount) * 2 % 2 ^ 32, handlers⟩

/-- The handler offsets of the snapshot. -/
def handlerOffs : List Nat := c.parseExceptions.flatMap (·.handlers)

end CodeItem

end Dexllm
