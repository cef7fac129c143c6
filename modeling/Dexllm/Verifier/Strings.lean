import Dexllm.Verifier.Map
import Dexllm.Lib.Mutf8

/-!
The string data of a dex: `VerifyStringData` with `VerifyMutf8`, which bound a
string once, and the routines that later walk a verified string by its
terminator alone. A `const char*` is the memory from it on, so a walk that
misses the terminator faults at the end of the image.
-/

namespace Dexllm

open Guarded Bytes Mutf8

/-- `GetUtf16FromUtf8`: the decoded unit, or a surrogate pair with the leading
unit in the low half. -/
def getUtf16FromUtf8 (s : Memory) : Run (Nat × Memory) := do
  let (one, s) ← deref s
  if one &&& 0x80 = 0 then pure (one, s)
  else do
    let (two, s) ← deref s
    if one &&& 0x20 = 0 then pure (decode2 one two, s)
    else do
      let (three, s) ← deref s
      if one &&& 0x10 = 0 then pure (decode3 one two three, s)
      else do
        let (four, s) ← deref s
        let codePoint := ((one &&& 0x0f) <<< 18) ||| ((two &&& 0x3f) <<< 12) |||
          ((three &&& 0x3f) <<< 6) ||| (four &&& 0x3f)
        let leading := ((codePoint >>> 10) + 0xd7c0) &&& 0xffff
        let trailing := (codePoint &&& 0x03ff) + 0xdc00
        pure (leading ||| (trailing <<< 16), s)

def getLeadingUtf16Char (maybePair : Nat) : Nat := maybePair % 65536

def getTrailingUtf16Char (maybePair : Nat) : Nat := maybePair / 65536

/-- The comparator of `string_ids`, at most `fuel` characters of it. Every round
consumes a byte of the first string. -/
def compareFrom : (fuel : Nat) → (utf8_1 utf8_2 : Memory) → Run Int
  | 0, _, _ => .error .oob
  | fuel + 1, s1, s2 => do
    let (b1, _) ← deref s1
    let (b2, _) ← deref s2
    if b1 = 0 then pure (if b2 = 0 then 0 else -1)
    else if b2 = 0 then pure 1
    else do
      let (c1, s1) ← getUtf16FromUtf8 s1
      let (c2, s2) ← getUtf16FromUtf8 s2
      if c1 = c2 then compareFrom fuel s1 s2
      else if getLeadingUtf16Char c1 ≠ getLeadingUtf16Char c2 then
        pure ((getLeadingUtf16Char c1 : Int) - getLeadingUtf16Char c2)
      else pure ((getTrailingUtf16Char c1 : Int) - getTrailingUtf16Char c2)

def compareModifiedUtf8ToModifiedUtf8AsUtf16CodePointValues (s1 s2 : Memory) : Run Int :=
  compareFrom s1.length s1 s2

/-- `kMemberValidLowAscii`. -/
def kMemberValidLowAscii : List Nat := [0x00000000, 0x03ff2011, 0x87fffffe, 0x07fffffe]

/-- The bit of `kMemberValidLowAscii` for an ASCII byte. -/
def memberValidLowAscii (c : Nat) : Bool :=
  (kMemberValidLowAscii.getD (c >>> 5) 0).testBit (c &&& 0x1f)

/-- `IsValidPartOfMemberNameUtf8Slow`. -/
def isValidPartOfMemberNameUtf8Slow (s : Memory) : Run (Bool × Memory) := do
  let (pair, s) ← getUtf16FromUtf8 s
  let leading := getLeadingUtf16Char pair
  if getTrailingUtf16Char pair ≠ 0 then pure (true, s)
  else
    let page := leading >>> 8
    if page = 0x00 then pure (decide (0x00a0 ≤ leading), s)
    else if 0xd8 ≤ page ∧ page ≤ 0xdb then do
      let (pair2, s) ← getUtf16FromUtf8 s
      let trailing := getLeadingUtf16Char pair2
      pure (decide (getTrailingUtf16Char pair2 = 0 ∧ 0xdc00 ≤ trailing ∧ trailing ≤ 0xdfff), s)
    else if 0xdc ≤ page ∧ page ≤ 0xdf then pure (false, s)
    else if page = 0x20 ∨ page = 0xff then
      let block := leading &&& 0xfff8
      if block = 0x2008 then pure (decide (leading ≤ 0x200a), s)
      else if block = 0x2028 then pure (decide (leading = 0x202f), s)
      else if block = 0xfff0 ∨ block = 0xfff8 then pure (false, s)
      else pure (true, s)
    else pure (true, s)

/-- `IsValidPartOfMemberNameUtf8`. -/
def isValidPartOfMemberNameUtf8 (s : Memory) : Run (Bool × Memory) := do
  let (c, next) ← deref s
  if c ≤ 0x7f then pure (memberValidLowAscii c, next)
  else isValidPartOfMemberNameUtf8Slow s

/-- The loop of `IsValidMemberName`, at most `fuel` characters of it. -/
def isValidMemberNameFrom (angle : Bool) : (fuel : Nat) → Memory → Run Bool
  | 0, _ => .error .oob
  | fuel + 1, s => do
    let (c, next) ← deref s
    if c = 0 then pure (!angle)
    else if c = 0x3e then
      if angle = true then do
        let (c1, _) ← deref next
        pure (decide (c1 = 0))
      else pure false
    else do
      let (ok, s) ← isValidPartOfMemberNameUtf8 s
      if ok = true then isValidMemberNameFrom angle fuel s else pure false

/-- `IsValidMemberName`. -/
def isValidMemberName (s : Memory) : Run Bool := do
  let (c, next) ← deref s
  if c = 0 then pure false
  else if c = 0x3c then isValidMemberNameFrom true next.length next
  else isValidMemberNameFrom false s.length s

/-- The class name loop of `IsValidDescriptor`, at most `fuel` characters. -/
def isValidClassNameFrom : (fuel : Nat) → (sepOrFirst : Bool) → Memory → Run Bool
  | 0, _, _ => .error .oob
  | fuel + 1, sepOrFirst, s => do
    let (c, next) ← deref s
    if c = 0 then pure false
    else if c = 0x3b then
      if sepOrFirst = false then do
        let (c1, _) ← deref next
        pure (decide (c1 = 0))
      else pure false
    else if c = 0x2f then
      if sepOrFirst = true then pure false else isValidClassNameFrom fuel true next
    else if c = 0x2e then pure false
    else do
      let (ok, s) ← isValidPartOfMemberNameUtf8 s
      if ok = true then isValidClassNameFrom fuel false s else pure false

/-- The array dimensions of a descriptor: how many, and what follows them. -/
def skipDimensions : Memory → Nat → Run (Nat × Memory)
  | [], _ => .error .oob
  | c :: s, array => if c.toNat = 0x5b then skipDimensions s (array + 1) else .ok (array, c :: s)

/-- `IsValidDescriptor`. -/
def isValidDescriptor (s : Memory) : Run Bool := do
  let (array, s) ← skipDimensions s 0
  if 255 < array then pure false
  else do
    let (c, s) ← deref s
    if c ∈ [0x42, 0x43, 0x44, 0x46, 0x49, 0x4a, 0x53, 0x5a] then do
      let (c1, _) ← deref s
      pure (decide (c1 = 0))
    else if c = 0x56 then
      if array = 0 then do
        let (c1, _) ← deref s
        pure (decide (c1 = 0))
      else pure false
    else if c = 0x4c then isValidClassNameFrom s.length true s
    else pure false

/-- `while ((*p & 0x80) != 0) ++p; ++p`. -/
def skipUleb : Memory → Run Memory
  | [] => .error .oob
  | c :: s => if c.toNat &&& 0x80 ≠ 0 then skipUleb s else .ok s

namespace Verifier

variable (v : Verifier)

/-- The loop of `VerifyMutf8`: `room` bounds the rounds left, `units` counts the
characters before `p`. Returns the final count. -/
def verifyMutf8From : (room p units : Nat) → Run Nat
  | 0, _, _ => fail "string_data not NUL-terminated within image"
  | room + 1, p, units => do
    failIf (v.endOfFile ≤ p) "string_data not NUL-terminated within image"
    let b ← readU1 v.image p
    if b = 0x00 then pure units
    else if b < 0x80 then verifyMutf8From room (p + 1) ((units + 1) % 2 ^ 32)
    else if b < 0xC0 then fail "string_data invalid MUTF-8 lead byte"
    else if b < 0xE0 then do
      failIf (v.endOfFile ≤ p + 1) "string_data bad MUTF-8 2-byte seq"
      let b2 ← readU1 v.image (p + 1)
      failIf (b2 &&& 0xC0 ≠ 0x80) "string_data bad MUTF-8 2-byte seq"
      failIf (decode2 b b2 ≠ 0 ∧ decode2 b b2 < 0x80) "string_data illegal MUTF-8 representation"
      verifyMutf8From room (p + 2) ((units + 1) % 2 ^ 32)
    else if b < 0xF0 then do
      failIf (v.endOfFile ≤ p + 1) "string_data bad MUTF-8 3-byte seq"
      let b2 ← readU1 v.image (p + 1)
      failIf (b2 &&& 0xC0 ≠ 0x80) "string_data bad MUTF-8 3-byte seq"
      failIf (v.endOfFile ≤ p + 2) "string_data bad MUTF-8 3-byte seq"
      let b3 ← readU1 v.image (p + 2)
      failIf (b3 &&& 0xC0 ≠ 0x80) "string_data bad MUTF-8 3-byte seq"
      failIf (decode3 b b2 b3 < 0x800) "string_data illegal MUTF-8 representation"
      verifyMutf8From room (p + 3) ((units + 1) % 2 ^ 32)
    else fail "string_data invalid MUTF-8 lead byte"

/-- `VerifyMutf8`. -/
def verifyMutf8 (p utf16Len : Nat) : Run Unit := do
  let units ← v.verifyMutf8From (v.endOfFile - p) p 0
  failIf (units ≠ utf16Len) "string_data length mismatch"

/-- `VerifyStringData`. -/
def verifyStringData (off : Nat) : Run Unit := do
  failIf (off = 0 ∨ v.endOfFile ≤ v.offsetToPtr off) "string_data offset out of range"
  let (utf16Len, p) ← v.readUlebOrFail (v.offsetToPtr off) "string_data bad length uleb"
  v.verifyMutf8 p utf16Len

/-- `string_ids[idx].string_data_off`. -/
def stringDataOff (idx : Nat) : Run Nat :=
  readU4 v.image (v.tableAt v.header.stringIdsOff idx 4)

/-- `StringContent`: the string `idx` past its length. -/
def stringContent (idx : Nat) : Run Memory := do
  let off ← v.stringDataOff idx
  skipUleb (v.image.drop (v.offsetToPtr off))

/-- `type_ids[idx].descriptor_idx`. -/
def descriptorIdx (idx : Nat) : Run Nat :=
  readU4 v.image (v.tableAt v.header.typeIdsOff idx 4)

/-- `TypeDesc`. -/
def typeDesc (idx : Nat) : Run Memory := do
  let descriptor ← v.descriptorIdx idx
  v.stringContent descriptor

/-- `VerifyTypeDescriptor`: the descriptor is valid and its first character
satisfies `pred`. -/
def verifyTypeDescriptor (idx : Nat) (err : String) (pred : Nat → Bool) : Run Unit := do
  let d ← v.typeDesc idx
  let valid ← isValidDescriptor d
  if valid = true then do
    let (c, _) ← deref d
    failIf (pred c = false) err
  else fail err

end Verifier

end Dexllm
