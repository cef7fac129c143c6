import Dexllm.Lib.Mutf8

/-!
The Java text of constants, as the utilities and the writer of the decompiler
spell it. Texts are bytes, as the code's `std::string`s are.
-/

namespace Dexllm

open Mutf8

abbrev Text := List UInt8

instance : LawfulBEq Text := inferInstance

/-- A string literal of the source. -/
def ascii (s : String) : Text := s.toList.map fun c => UInt8.ofNat c.toNat

/-- `TYPE_DESCRIPTOR`. -/
def lookupTypeDescriptor (primitive : UInt8) : Option Text :=
  match primitive.toNat with
  | 0x56 => some (ascii "void")
  | 0x5a => some (ascii "boolean")
  | 0x42 => some (ascii "byte")
  | 0x53 => some (ascii "short")
  | 0x43 => some (ascii "char")
  | 0x49 => some (ascii "int")
  | 0x4a => some (ascii "long")
  | 0x46 => some (ascii "float")
  | 0x44 => some (ascii "double")
  | _ => none

/-- The body of a class descriptor: no `java/lang/`, and dots for slashes. -/
def javaClassName (body : Text) : Text :=
  let body := if (ascii "java/lang/").isPrefixOf body then body.drop 10 else body
  body.map fun c => if c = 0x2f then 0x2e else c

/-- `GetType` without an array size. -/
def getType : Text → Text
  | [] => []
  | head :: rest =>
    match if rest = [] then lookupTypeDescriptor head else none with
    | some name => name
    | none =>
      if head = 0x4c then
        if rest.getLast? = some 0x3b then javaClassName rest.dropLast else head :: rest
      else if head = 0x5b then getType rest ++ ascii "[]"
      else head :: rest

/-- `PrimitiveClassLiteral`. -/
def primitiveClassLiteral (desc : UInt8) : Option Text :=
  match desc.toNat with
  | 0x5a => some (ascii "Boolean.TYPE")
  | 0x42 => some (ascii "Byte.TYPE")
  | 0x53 => some (ascii "Short.TYPE")
  | 0x43 => some (ascii "Character.TYPE")
  | 0x49 => some (ascii "Integer.TYPE")
  | 0x4a => some (ascii "Long.TYPE")
  | 0x46 => some (ascii "Float.TYPE")
  | 0x44 => some (ascii "Double.TYPE")
  | 0x56 => some (ascii "Void.TYPE")
  | _ => none

/-- `ClassLiteralText`. -/
def classLiteralText (descriptor : Text) : Text :=
  match descriptor with
  | [c] => (primitiveClassLiteral c).getD (getType [c] ++ ascii ".class")
  | _ => getType descriptor ++ ascii ".class"

/-- The text up to and including the first `;`, and the text after it. -/
def splitSemicolon : Text → Option (Text × Text)
  | [] => none
  | c :: rest =>
    if c = 0x3b then some ([c], rest)
    else (splitSemicolon rest).map fun (name, rest) => (c :: name, rest)

/-- The first descriptor of a parameter list, and the rest of the list. -/
def splitDescriptor : Text → Option (Text × Text)
  | [] => none
  | c :: rest =>
    if c = 0x5b then (splitDescriptor rest).map fun (desc, rest) => (c :: desc, rest)
    else if c = 0x4c then (splitSemicolon rest).map fun (name, rest) => (c :: name, rest)
    else some ([c], rest)

/-- The descriptors of a parameter list, at most `fuel` of them. -/
def splitDescriptors : (fuel : Nat) → Text → List Text
  | 0, _ => []
  | fuel + 1, body =>
    match splitDescriptor body with
    | none => []
    | some (desc, rest) => desc :: splitDescriptors fuel rest

/-- `ParseParamsType`. -/
def parseParamsType (proto : Text) : List Text :=
  if 0x29 ∈ proto then
    let body := (proto.takeWhile (· ≠ 0x29)).drop 1
    splitDescriptors body.length body
  else []

/-- `MethodTypeText`. -/
def methodTypeText (proto : Text) : Text :=
  let ret := if 0x29 ∈ proto then (proto.reverse.takeWhile (· ≠ 0x29)).reverse else ascii "V"
  getType (ascii "Ljava/lang/invoke/MethodType;") ++ ascii ".methodType(" ++
    classLiteralText ret ++
    ((parseParamsType proto).map fun desc => ascii ", " ++ classLiteralText desc).flatten ++
    ascii ")"

/-- `MethodHandleText`. -/
def methodHandleText (classDescriptor member : Text) (handleType : Nat) : Text :=
  getType classDescriptor ++ ascii (if handleType ≤ 0x03 then "." else "::") ++
    if handleType = 0x06 then ascii "new" else member

/-- `MethodRefText`. -/
def methodRefText (classDescriptor member : Text) : Text :=
  getType classDescriptor ++ ascii "::" ++
    if member = ascii "<init>" then ascii "new" else member

/-- The digits of `n` in a base up to 16. -/
def digits (base n : Nat) : Text := (Nat.toDigits base n).map fun c => UInt8.ofNat c.toNat

/-- `std::to_string`. -/
def decimal (n : Int) : Text := (if n < 0 then ascii "-" else []) ++ digits 10 n.natAbs

/-- A signed byte as `hex()` prints it. -/
def hexByte (n : Int) : Text := (if n < 0 then ascii "-0x" else ascii "0x") ++ digits 16 n.natAbs

/-- `FormatLongLiteral`. -/
def formatLongLiteral (value : Int) : Text := decimal value ++ ascii "L"

/-- `GetUtf16FromUtf8` on the bytes from the cursor on: a unit or a surrogate
pair, and the bytes after it. A sequence cut short gives its first byte. -/
def Dad.getUtf16FromUtf8 (one : Nat) (rest : List Nat) : Nat × List Nat :=
  if one &&& 0x80 = 0 then (one, rest)
  else match rest with
    | [] => (one, [])
    | two :: rest1 =>
      if two &&& 0xC0 ≠ 0x80 then (one, rest)
      else if one &&& 0x20 = 0 then (decode2 one two, rest1)
      else match rest1 with
        | [] => (one, [])
        | three :: rest2 =>
          if three &&& 0xC0 ≠ 0x80 then (one, rest1)
          else if one &&& 0x10 = 0 then (decode3 one two three, rest2)
          else match rest2 with
            | [] => (one, [])
            | four :: rest3 =>
              if four &&& 0xC0 ≠ 0x80 then (one, rest2)
              else
                let codePoint := ((one &&& 0x0f) <<< 18) ||| ((two &&& 0x3f) <<< 12) |||
                  ((three &&& 0x3f) <<< 6) ||| (four &&& 0x3f)
                ((((codePoint >>> 10) + 0xd7c0) &&& 0xffff) |||
                  (((codePoint &&& 0x03ff) + 0xdc00) <<< 16), rest3)

/-- `Mutf8ToUtf16`, one sequence a round. -/
def Dad.mutf8ToUtf16 : (rounds : Nat) → List Nat → List Nat
  | 0, _ => []
  | _ + 1, [] => []
  | rounds + 1, one :: rest =>
    let (ch, rest) := Dad.getUtf16FromUtf8 one rest
    let trailing := ch >>> 16
    (ch &&& 0xffff) :: ((if trailing ≠ 0 then [trailing] else []) ++ Dad.mutf8ToUtf16 rounds rest)

/-- `AppendUtf8Bmp`. -/
def utf8Bmp (cp : Nat) : Text :=
  (if cp < 0x80 then [cp]
  else if cp < 0x800 then [0xC0 ||| (cp >>> 6), 0x80 ||| (cp &&& 0x3F)]
  else [0xE0 ||| (cp >>> 12), 0x80 ||| ((cp >>> 6) &&& 0x3F), 0x80 ||| (cp &&& 0x3F)]).map
    UInt8.ofNat

/-- `AppendUtf16Escaped`. -/
def utf16Escaped (unit : Nat) : Text :=
  if unit < 0x20 ∨ (0xD800 ≤ unit ∧ unit ≤ 0xDFFF) then
    let hex := digits 16 unit
    ascii "\\u" ++ List.replicate (4 - hex.length) 0x30 ++ hex
  else utf8Bmp unit

/-- One code unit of a Java string literal. -/
def escapeUnit (unit : Nat) : Text :=
  match unit with
  | 0x5c => ascii "\\\\"
  | 0x22 => ascii "\\\""
  | 0x27 => ascii "\\'"
  | 0x0a => ascii "\\n"
  | 0x0d => ascii "\\r"
  | 0x09 => ascii "\\t"
  | _ => utf16Escaped unit

/-- `EscapeJavaString`, with its quotes. -/
def escapeJavaString (raw : Text) : Text :=
  let units := Dad.mutf8ToUtf16 raw.length (raw.map UInt8.toNat)
  0x22 :: ((units.map escapeUnit).flatten ++ [0x22])

section Nonempty

@[simp] theorem methodTypeText_ne_nil (proto : Text) : methodTypeText proto ≠ [] := by
  simp [methodTypeText, ascii]

@[simp] theorem methodHandleText_ne_nil (cls member : Text) (handleType : Nat) :
    methodHandleText cls member handleType ≠ [] := by
  unfold methodHandleText
  split <;> simp [ascii]

@[simp] theorem methodRefText_ne_nil (cls member : Text) : methodRefText cls member ≠ [] := by
  simp [methodRefText, ascii]

theorem digits_ne_nil (base n : Nat) : digits base n ≠ [] := by
  simp [digits, Nat.toDigits_ne_nil]

@[simp] theorem decimal_ne_nil (n : Int) : decimal n ≠ [] := by
  simp [decimal, digits_ne_nil]

@[simp] theorem hexByte_ne_nil (n : Int) : hexByte n ≠ [] := by
  simp [hexByte, digits_ne_nil]

@[simp] theorem formatLongLiteral_ne_nil (value : Int) : formatLongLiteral value ≠ [] := by
  simp [formatLongLiteral]

@[simp] theorem escapeJavaString_ne_nil (raw : Text) : escapeJavaString raw ≠ [] := by
  simp [escapeJavaString]

end Nonempty

end Dexllm
