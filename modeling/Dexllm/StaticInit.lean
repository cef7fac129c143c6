import Dexllm.Core.CodeSource
import Dexllm.Lib.Cursor
import Mathlib.Logic.Function.Iterate

/-!
The decoder of static initializers: a third walker over the encoded arrays the
verifier accepted, which renders each value and pairs it with a static field.
It reads through an end pointer of its own, at most 2^20 bytes on.
-/

namespace Dexllm

open Guarded Bytes Cursor

/-- How the bits of a `float` and of a `double` are printed. -/
structure FloatTexts where
  float : Nat → { text : Text // text ≠ [] }
  double : Nat → { text : Text // text ≠ [] }

/-- The nesting cap of the decoder. -/
def kEncodedValueMaxDepth : Nat := 16

/-- The length of the window of the two walks. -/
def kClassWindow : Nat := 2 ^ 20

/-- `ReadULEB128`. -/
def readULEB128 (mem : Memory) (stop p : Nat) : Nat × Nat := readUleb 32 5 mem stop p

/-- `ReadIntLE`. -/
def readIntLE (mem : Memory) (stop p nbytes : Nat) : Nat × Nat := readLE mem stop nbytes p

/-- The number between `p` and the cursor `q` has no last byte. -/
def ulebStopped (mem : Memory) (p q : Nat) : Bool := q = p || byteAt mem (q - 1) &&& 0x80 ≠ 0

/-- `EncodedValueText`. -/
structure EncodedValueText where
  text : Text := []
  expression : Bool := true
  deriving DecidableEq, Repr

/-- A decoded value and the cursor after it. `stopped` is not kept by the code:
some read or loop of the value ended early, at the end of the buffer or at the
nesting cap. -/
structure Decoded where
  value : EncodedValueText
  cursor : Nat
  stopped : Bool
  deriving DecidableEq, Repr

/-- The arms that index a table or print a number. `raw` is the payload. -/
def leafText (texts : FloatTexts) (item : DexItem) (type nbytes raw : Nat) :
    Run EncodedValueText :=
  match type with
  | 0x00 => pure { text := hexByte (signExtend raw 1) }
  | 0x02 | 0x04 => pure { text := decimal (signExtend raw nbytes) }
  | 0x06 => pure { text := formatLongLiteral (signExtend raw nbytes) }
  | 0x03 => pure { text := decimal raw }
  | 0x10 => pure { text := texts.float (floatBits raw nbytes) }
  | 0x11 => pure { text := texts.double (doubleBits raw nbytes) }
  | 0x17 =>
    if item.strings.length ≤ raw then pure {}
    else do
      let s ← vectorAt item.strings raw
      pure { text := escapeJavaString s }
  | 0x18 =>
    if item.typeNames.length ≤ raw then pure {}
    else do
      let name ← vectorAt item.typeNames raw
      pure { text := getType name ++ ascii ".class" }
  | 0x19 | 0x1b =>
    if item.reader.header.fieldIdsSize ≤ raw then pure {}
    else do
      let f ← item.reader.fieldId raw
      let cls ← vectorAt item.typeNames f.classIdx
      let name ← vectorAt item.strings f.nameIdx
      pure { text := getType cls ++ 0x2e :: name }
  | 0x15 =>
    if item.reader.header.protoIdsSize ≤ raw then pure {}
    else do
      let pr ← item.reader.protoId raw
      let proto ← item.buildProto pr
      pure { text := methodTypeText proto }
  | 0x16 =>
    if 2 ^ 32 ≤ raw then pure {}
    else do
      let h ← item.resolveMethodHandle raw
      match h with
      | none => pure {}
      | some h => pure ⟨methodHandleText h.triple.cls h.triple.name h.ival, false⟩
  | 0x1a =>
    if item.reader.header.methodIdsSize ≤ raw then pure {}
    else do
      let m ← item.reader.methodId raw
      let cls ← vectorAt item.typeNames m.classIdx
      let name ← vectorAt item.strings m.nameIdx
      pure ⟨methodRefText cls name, false⟩
  | _ => pure {}

/-- The text of an element, `?` for one that renders to nothing. -/
def orUnknown (text : Text) : Text := if text = [] then ascii "?" else text

/-- The separator before element `i`. -/
def separator (i : Nat) : Text := if i = 0 then [] else ascii ", "

/-- One round of an element loop: the element's index, the text so far and the
cursor. -/
abbrev ElementRound := Nat → EncodedValueText → Nat → Run Decoded

/-- `for (i = 0; i < size && p < end; ++i)` from round `i` on. -/
def decodeElements (stop : Nat) (round : ElementRound) :
    (size i : Nat) → EncodedValueText → (p : Nat) → Run Decoded
  | 0, _, out, p => pure ⟨out, p, false⟩
  | size + 1, i, out, p =>
    if p < stop then do
      let d ← round i out p
      let rest ← decodeElements stop round size (i + 1) d.value d.cursor
      pure { rest with stopped := d.stopped || rest.stopped }
    else pure ⟨out, p, true⟩

/-- An element of an array. -/
def arrayElement (value : Nat → Run Decoded) : ElementRound := fun i out p => do
  let d ← value p
  let text := out.text ++ separator i ++ orUnknown d.value.text
  let expression := out.expression && d.value.expression && !d.value.text.isEmpty
  pure { d with value := ⟨text, expression⟩ }

/-- A named element of an annotation. -/
def annotationElement (mem : Memory) (stop : Nat) (item : DexItem) (value : Nat → Run Decoded) :
    ElementRound := fun i out p => do
  let (nameIdx, q) := readULEB128 mem stop p
  let d ← value q
  let text := out.text ++ separator i ++ item.strings.getD nameIdx (ascii "?") ++ ascii " = " ++
    orUnknown d.value.text
  pure ⟨{ out with text := text }, d.cursor, ulebStopped mem p q || d.stopped⟩

/-- The `ARRAY` arm. -/
def decodeArray (mem : Memory) (stop : Nat) (value : Nat → Run Decoded) (p : Nat) :
    Run Decoded := do
  let (size, q) := readULEB128 mem stop p
  let d ← decodeElements stop (arrayElement value) size 0 { text := ascii "\x7b" } q
  pure ⟨{ d.value with text := d.value.text ++ ascii "\x7d" }, d.cursor,
    ulebStopped mem p q || d.stopped⟩

/-- The name of an annotation's type. -/
def annotationTypeText (item : DexItem) (typeIdx : Nat) : Text :=
  match item.typeNames[typeIdx]? with
  | some name => getType name
  | none => ascii "?"

/-- The `ANNOTATION` arm. -/
def decodeAnnotation (mem : Memory) (stop : Nat) (item : DexItem) (value : Nat → Run Decoded)
    (p : Nat) : Run Decoded := do
  let (typeIdx, q) := readULEB128 mem stop p
  let (size, r) := readULEB128 mem stop q
  let head := ascii "@" ++ annotationTypeText item typeIdx ++ if size = 0 then [] else ascii "("
  let d ← decodeElements stop (annotationElement mem stop item value) size 0 ⟨head, false⟩ r
  let text := d.value.text ++ if size = 0 then [] else ascii ")"
  pure ⟨{ d.value with text := text }, d.cursor,
    ulebStopped mem p q || ulebStopped mem q r || d.stopped⟩

/-- A number of bytes, and the text of the arm that reads them. -/
def decodeLeaf (mem : Memory) (stop : Nat) (texts : FloatTexts) (item : DexItem)
    (type nbytes p : Nat) : Run Decoded := do
  let width := if type = 0x00 then 1 else nbytes
  let (raw, q) := readIntLE mem stop p width
  let value ← leafText texts item type nbytes raw
  pure ⟨value, q, q ≠ p + width⟩

/-- The arms of `DecodeEncodedValueText`, on a value whose header byte is before
`p`. -/
def decodePayload (mem : Memory) (stop : Nat) (texts : FloatTexts) (item : DexItem)
    (value : Nat → Run Decoded) (type valueArg p : Nat) : Run Decoded :=
  match type with
  | 0x1c => decodeArray mem stop value p
  | 0x1d => decodeAnnotation mem stop item value p
  | 0x1e => pure ⟨{ text := ascii "null" }, p, false⟩
  | 0x1f => pure ⟨{ text := if valueArg ≠ 0 then ascii "true" else ascii "false" }, p, false⟩
  | _ => decodeLeaf mem stop texts item type (valueArg + 1) p

/-- `DecodeEncodedValueText` with `left` levels below the nesting cap. -/
def decodeEncodedValueText (mem : Memory) (stop : Nat) (texts : FloatTexts) (item : DexItem) :
    (left p : Nat) → Run Decoded
  | 0, p => pure ⟨{}, p, true⟩
  | left + 1, p =>
    if stop ≤ p then pure ⟨{}, p, true⟩
    else
      let header := byteAt mem p
      decodePayload mem stop texts item (decodeEncodedValueText mem stop texts item left)
        (header &&& 0x1f) (header >>> 5) (p + 1)

/-- `OrderedFields`. -/
structure OrderedFields where
  staticIds : List Nat := []
  instanceIds : List Nat := []

/-- What `read_field_list` carries from field to field. -/
structure FieldCursor where
  cursor : Nat
  cur : Nat := 0
  ids : List Nat := []

/-- One round of `read_field_list`. -/
def readField (mem : Memory) (stop : Nat) (s : FieldCursor) : FieldCursor :=
  let (diff, p) := readULEB128 mem stop s.cursor
  let (_, p) := readULEB128 mem stop p
  let cur := if s.ids.length = 0 then diff else (s.cur + diff) % 2 ^ 32
  ⟨p, cur, s.ids ++ [cur]⟩

/-- `read_field_list`. -/
def readFieldList (mem : Memory) (stop n p : Nat) : FieldCursor :=
  (readField mem stop)^[n] { cursor := p }

/-- The end of the window from `p`: 2^20 bytes on, or the end of the image. -/
def windowEnd (r : Reader) (p : Nat) : Nat := min (p + kClassWindow) r.image.length

/-- The field lists of the class_data at `data`, read up to `stop`. -/
def readClassFields (mem : Memory) (stop data : Nat) : OrderedFields :=
  let (staticN, p) := readULEB128 mem stop data
  let (instanceN, p) := readULEB128 mem stop p
  let (_, p) := readULEB128 mem stop p
  let (_, p) := readULEB128 mem stop p
  let statics := readFieldList mem stop staticN p
  ⟨statics.ids, (readFieldList mem stop instanceN statics.cursor).ids⟩

/-- `ParseClassFieldOrder`. -/
def parseClassFieldOrder (r : Reader) (cd : ClassDef) : Run OrderedFields :=
  if cd.classDataOff = 0 then pure {}
  else do
    let data ← r.dataPtr cd.classDataOff 1
    pure (readClassFields r.image (windowEnd r data) data)

/-- `emplace` of a hash map: a key keeps its first value. -/
def emplace {α : Type} (table : List (Nat × α)) (key : Nat) (a : α) : List (Nat × α) :=
  if (table.lookup key).isSome then table else (key, a) :: table

/-- The value of a static field, with its place in the array, which the code
does not keep. -/
structure InitValue where
  index : Nat
  value : EncodedValueText
  deriving DecidableEq, Repr

/-- Where a call of the decoder started and stopped. -/
structure DecodedSpan where
  start : Nat
  stop : Nat
  stopped : Bool
  deriving DecidableEq, Repr

/-- What the loop of `DecodeStaticInitMap` carries: its cursor, the map, and the
spans it decoded, which the code does not keep. -/
structure StaticInit where
  cursor : Nat := 0
  initMap : List (Nat × InitValue) := []
  decoded : List DecodedSpan := []
  deriving DecidableEq, Repr

/-- One round of `DecodeStaticInitMap`. -/
def decodeStaticValue (value : Nat → Run Decoded) (staticFieldIdxs : List Nat) (i : Nat)
    (s : StaticInit) : Run StaticInit := do
  let d ← value s.cursor
  let decoded := s.decoded ++ [⟨s.cursor, d.cursor, d.stopped⟩]
  if d.value.text = [] then pure { s with cursor := d.cursor, decoded := decoded }
  else do
    let field ← vectorAt staticFieldIdxs i
    pure ⟨d.cursor, emplace s.initMap field ⟨i, d.value⟩, decoded⟩

/-- The values of the array at `sv`, read up to `stop`. -/
def decodeStaticValues (mem : Memory) (stop : Nat) (texts : FloatTexts) (item : DexItem)
    (staticFieldIdxs : List Nat) (sv : Nat) : Run StaticInit :=
  let (valueCount, p) := readULEB128 mem stop sv
  loop (min valueCount staticFieldIdxs.length) { cursor := p } <|
    decodeStaticValue
      (decodeEncodedValueText mem stop texts item (kEncodedValueMaxDepth + 1)) staticFieldIdxs

/-- `DecodeStaticInitMap`. -/
def decodeStaticInitMap (texts : FloatTexts) (item : DexItem) (cd : ClassDef)
    (staticFieldIdxs : List Nat) : Run StaticInit :=
  if cd.staticValuesOff = 0 ∨ staticFieldIdxs = [] then pure {}
  else do
    let sv ← item.reader.dataPtr cd.staticValuesOff 1
    decodeStaticValues item.reader.image (windowEnd item.reader sv) texts item staticFieldIdxs sv

/-- The initializers of a class: the two walks of `GetClassInfo`. -/
def staticInit (texts : FloatTexts) (item : DexItem) (cd : ClassDef) : Run StaticInit := do
  let fields ← parseClassFieldOrder item.reader cd
  decodeStaticInitMap texts item cd fields.staticIds

end Dexllm
