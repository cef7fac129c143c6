import Dexllm.Core.MethodCodes
import Dexllm.StringLiterals
import Dexllm.Flow.UnitReads

/-!
The text of one instruction of a listing: its name, the registers and values it
holds, and the descriptors its index leads to.
-/

namespace Dexllm

open Guarded Bytes

/-- `gOpcodeNames`, opcode 0x00 first. -/
def gOpcodeNames : List String := [
  "nop", "move", "move/from16", "move/16", "move-wide", "move-wide/from16", "move-wide/16",
  "move-object", "move-object/from16", "move-object/16", "move-result", "move-result-wide",
  "move-result-object", "move-exception", "return-void", "return", "return-wide", "return-object",
  "const/4", "const/16", "const", "const/high16", "const-wide/16", "const-wide/32", "const-wide",
  "const-wide/high16", "const-string", "const-string/jumbo", "const-class", "monitor-enter",
  "monitor-exit", "check-cast", "instance-of", "array-length", "new-instance", "new-array",
  "filled-new-array", "filled-new-array/range", "fill-array-data", "throw", "goto", "goto/16",
  "goto/32", "packed-switch", "sparse-switch", "cmpl-float", "cmpg-float", "cmpl-double",
  "cmpg-double", "cmp-long", "if-eq", "if-ne", "if-lt", "if-ge", "if-gt", "if-le", "if-eqz",
  "if-nez", "if-ltz", "if-gez", "if-gtz", "if-lez", "unused-3e", "unused-3f", "unused-40",
  "unused-41", "unused-42", "unused-43", "aget", "aget-wide", "aget-object", "aget-boolean",
  "aget-byte", "aget-char", "aget-short", "aput", "aput-wide", "aput-object", "aput-boolean",
  "aput-byte", "aput-char", "aput-short", "iget", "iget-wide", "iget-object", "iget-boolean",
  "iget-byte", "iget-char", "iget-short", "iput", "iput-wide", "iput-object", "iput-boolean",
  "iput-byte", "iput-char", "iput-short", "sget", "sget-wide", "sget-object", "sget-boolean",
  "sget-byte", "sget-char", "sget-short", "sput", "sput-wide", "sput-object", "sput-boolean",
  "sput-byte", "sput-char", "sput-short", "invoke-virtual", "invoke-super", "invoke-direct",
  "invoke-static", "invoke-interface", "return-void-no-barrier", "invoke-virtual/range",
  "invoke-super/range", "invoke-direct/range", "invoke-static/range", "invoke-interface/range",
  "unused-79", "unused-7a", "neg-int", "not-int", "neg-long", "not-long", "neg-float",
  "neg-double", "int-to-long", "int-to-float", "int-to-double", "long-to-int", "long-to-float",
  "long-to-double", "float-to-int", "float-to-long", "float-to-double", "double-to-int",
  "double-to-long", "double-to-float", "int-to-byte", "int-to-char", "int-to-short", "add-int",
  "sub-int", "mul-int", "div-int", "rem-int", "and-int", "or-int", "xor-int", "shl-int", "shr-int",
  "ushr-int", "add-long", "sub-long", "mul-long", "div-long", "rem-long", "and-long", "or-long",
  "xor-long", "shl-long", "shr-long", "ushr-long", "add-float", "sub-float", "mul-float",
  "div-float", "rem-float", "add-double", "sub-double", "mul-double", "div-double", "rem-double",
  "add-int/2addr", "sub-int/2addr", "mul-int/2addr", "div-int/2addr", "rem-int/2addr",
  "and-int/2addr", "or-int/2addr", "xor-int/2addr", "shl-int/2addr", "shr-int/2addr",
  "ushr-int/2addr", "add-long/2addr", "sub-long/2addr", "mul-long/2addr", "div-long/2addr",
  "rem-long/2addr", "and-long/2addr", "or-long/2addr", "xor-long/2addr", "shl-long/2addr",
  "shr-long/2addr", "ushr-long/2addr", "add-float/2addr", "sub-float/2addr", "mul-float/2addr",
  "div-float/2addr", "rem-float/2addr", "add-double/2addr", "sub-double/2addr", "mul-double/2addr",
  "div-double/2addr", "rem-double/2addr", "add-int/lit16", "rsub-int", "mul-int/lit16",
  "div-int/lit16", "rem-int/lit16", "and-int/lit16", "or-int/lit16", "xor-int/lit16",
  "add-int/lit8", "rsub-int/lit8", "mul-int/lit8", "div-int/lit8", "rem-int/lit8", "and-int/lit8",
  "or-int/lit8", "xor-int/lit8", "shl-int/lit8", "shr-int/lit8", "ushr-int/lit8", "iget-quick",
  "iget-wide-quick", "iget-object-quick", "iput-quick", "iput-wide-quick", "iput-object-quick",
  "invoke-virtual-quick", "invoke-virtual/range-quick", "iput-boolean-quick", "iput-byte-quick",
  "iput-char-quick", "iput-short-quick", "iget-boolean-quick", "iget-byte-quick",
  "iget-char-quick", "iget-short-quick", "unused-f3", "unused-f4", "unused-f5", "unused-f6",
  "unused-f7", "unused-f8", "unused-f9", "invoke-polymorphic", "invoke-polymorphic/range",
  "invoke-custom", "invoke-custom/range", "const-method-handle", "const-method-type"]

/-- `GetOpcodeName`. -/
def getOpcodeName (opcode : Nat) : String := gOpcodeNames.getD opcode ""

/-- The formats in the order of their enumeration. -/
def instructionFormats : List InstructionFormat := [
  .k10x, .k12x, .k11n, .k11x, .k10t, .k20t, .k20bc, .k22x, .k21t, .k21s, .k21h, .k21c, .k23x,
  .k22b, .k22t, .k22s, .k22c, .k22cs, .k30t, .k32x, .k31i, .k31t, .k31c, .k35c, .k35ms, .k3rc,
  .k3rms, .k35mi, .k3rmi, .k45cc, .k4rcc, .k51l]

/-- `SmaliIdent`. -/
def smaliIdent (raw : Text) : Text := Dad.mutf8ToUtf8Lossy raw

/-- A register operand. -/
def registerText (r : Nat) : Text := ascii "v" ++ digits 10 r

/-- `EmitRegisterRange`. The last register is computed in 32 bits. -/
def registerRange (first count : Nat) : Text :=
  if count = 0 then [0x7b, 0x7d]
  else 0x7b :: (registerText first ++ ascii " .. " ++
    registerText ((first + count + (2 ^ 32 - 1)) % 2 ^ 32) ++ [0x7d])

/-- Registers in braces. -/
def registerList (regs : List Nat) : Text :=
  0x7b :: (((regs.map registerText).intersperse (ascii ", ")).flatten ++ [0x7d])

/-- The value of a high16 constant. Where it is no small number its bits follow, with
the number they are as a float or a double. -/
def high16Text (javaFpString : (bits : Nat) → (isFloat : Bool) → Text) (opcode vB : Nat) : Text :=
  let wide := opcode = 0x19
  let bits := if wide then (vB <<< 48) % 2 ^ 64 else (vB <<< 16) % 2 ^ 64
  let v := if wide then toS8 bits else Verifier.toS4 (bits % 2 ^ 32)
  ascii ", #" ++ decimal v ++
    if 100 < v ∨ v < -100 then
      ascii "(0x" ++ digits 16 bits ++ ascii ", " ++
        (if wide then ascii "double:" ++ javaFpString bits false
        else ascii "float:" ++ javaFpString (bits % 2 ^ 32) true) ++ ascii ")"
    else []

namespace DexItem

variable (item : DexItem)

/-- The parameters of `FormatProto`. -/
def formatParams (parametersOff : Nat) : Run Text :=
  if parametersOff ≠ 0 then do
    let p ← item.reader.dataPtr parametersOff 4
    let size ← readU4 item.reader.image p
    let names ← collect size fun i => do
      let typeIdx ← readU2 item.reader.image (p + 4 + i * 2)
      let name ← vectorAt item.typeNames typeIdx
      pure (smaliIdent name)
    pure names.flatten
  else pure []

/-- `FormatProto`. -/
def formatProto (protoIdx : Nat) : Run Text :=
  if item.reader.header.protoIdsSize ≤ protoIdx then pure (ascii "<bad-proto-idx>")
  else do
    let pr ← item.reader.protoId protoIdx
    let params ← item.formatParams pr.parametersOff
    let ret ← vectorAt item.typeNames pr.returnTypeIdx
    pure (ascii "(" ++ params ++ ascii ")" ++ smaliIdent ret)

/-- `FormatMethodRef`. -/
def formatMethodRef (methodIdx : Nat) : Run Text :=
  if item.reader.header.methodIdsSize ≤ methodIdx then pure (ascii "<bad-method-idx>")
  else do
    let m ← item.reader.methodId methodIdx
    let cls ← vectorAt item.typeNames m.classIdx
    let name ← vectorAt item.strings m.nameIdx
    let proto ← item.formatProto m.protoIdx
    pure (smaliIdent cls ++ ascii "->" ++ smaliIdent name ++ proto)

/-- `FormatFieldRef`. -/
def formatFieldRef (fieldIdx : Nat) : Run Text :=
  if item.reader.header.fieldIdsSize ≤ fieldIdx then pure (ascii "<bad-field-idx>")
  else do
    let f ← item.reader.fieldId fieldIdx
    let cls ← vectorAt item.typeNames f.classIdx
    let name ← vectorAt item.strings f.nameIdx
    let type ← vectorAt item.typeNames f.typeIdx
    pure (smaliIdent cls ++ ascii "->" ++ smaliIdent name ++ ascii ":" ++ smaliIdent type)

/-- The `emit_index` lambda of `FormatOperands`. -/
def emitIndex (kind : InstructionIndexType) (v : Nat) : Run Text :=
  match kind with
  | .kIndexStringRef =>
    if v < item.strings.length then do
      let s ← vectorAt item.strings v
      pure (ascii "\"" ++ Dad.escapeSmaliString s ++ ascii "\"")
    else pure (ascii "string@" ++ digits 10 v)
  | .kIndexTypeRef =>
    if v < item.typeNames.length then do
      let name ← vectorAt item.typeNames v
      pure (smaliIdent name)
    else pure (ascii "type@" ++ digits 10 v)
  | .kIndexFieldRef => item.formatFieldRef v
  | .kIndexMethodRef | .kIndexMethodAndProtoRef => item.formatMethodRef v
  | .kIndexProtoRef => item.formatProto v
  | .kIndexMethodHandleRef => pure (ascii "method_handle@" ++ digits 10 v)
  | .kIndexCallSiteRef => pure (ascii "call_site@" ++ digits 10 v)
  | .kIndexFieldOffset => pure (ascii "field_off@" ++ digits 10 v)
  | .kIndexVtableOffset => pure (ascii "vtable@" ++ digits 10 v)
  | _ => pure (ascii "@" ++ digits 10 v)

variable (javaFpString : (bits : Nat) → (isFloat : Bool) → Text)

/-- `FormatOperands`. -/
def formatOperands (opcode : Nat) (insn : Instruction) : Run Text :=
  let format := getFormatFromOpcode opcode
  let index := item.emitIndex (getIndexTypeFromOpcode opcode)
  let vA := registerText insn.vA
  let vAB := vA ++ ascii ", " ++ registerText insn.vB
  let signed (v : Nat) : Text := decimal (Verifier.toS4 v)
  match format with
  | .k10x => pure []
  | .k11n | .k21s | .k31i => pure (vA ++ ascii ", #" ++ signed insn.vB)
  | .k11x => pure vA
  | .k12x | .k22x | .k32x => pure vAB
  | .k10t | .k20t | .k30t => pure (ascii "+" ++ signed insn.vA)
  | .k21h => pure (vA ++ high16Text javaFpString opcode insn.vB)
  | .k21t | .k31t => pure (vA ++ ascii ", +" ++ signed insn.vB)
  | .k21c | .k31c => do
    let ref ← index insn.vB
    pure (vA ++ ascii ", " ++ ref)
  | .k22b | .k22s => pure (vAB ++ ascii ", #" ++ signed insn.vC)
  | .k22t => pure (vAB ++ ascii ", +" ++ signed insn.vC)
  | .k22c => do
    let ref ← index insn.vC
    pure (vAB ++ ascii ", " ++ ref)
  | .k23x => pure (vAB ++ ascii ", " ++ registerText insn.vC)
  | .k35c => do
    let ref ← index insn.vB
    pure (registerList (insn.arg.take insn.vA) ++ ascii ", " ++ ref)
  | .k3rc => do
    let ref ← index insn.vB
    pure (registerRange insn.vC insn.vA ++ ascii ", " ++ ref)
  -- C is in `vC` here, D to G are the first four entries of `arg`
  | .k45cc => do
    let ref ← index insn.vB
    let proto ← item.formatProto (insn.arg.getD 4 0)
    pure (registerList (((insn.vC :: insn.arg).take 5).take insn.vA) ++ ascii ", " ++ ref ++
      ascii ", " ++ proto)
  | .k4rcc => do
    let ref ← index insn.vB
    let proto ← item.formatProto (insn.arg.getD 4 0)
    pure (registerRange insn.vC insn.vA ++ ascii ", " ++ ref ++ ascii ", " ++ proto)
  | .k51l => pure (vA ++ ascii ", #" ++ decimal (toS8 insn.vBWide) ++ ascii "L")
  | format =>
    pure (ascii "<unhandled-fmt-" ++ digits 10 (instructionFormats.idxOf format) ++ ascii ">")

end DexItem

end Dexllm

/-!
`RenderMethodSmali` and `RenderClassSmali`, over what the core has cached of the
types, the fields and the methods of a dex.
-/

namespace Dexllm

open Guarded Bytes Leb128

/-- The flags `FormatAccessFlags` knows, in the order it prints them. -/
def accessFlagNames : List (Nat × String) := [
  (0x0001, "public "), (0x0002, "private "), (0x0004, "protected "), (0x0008, "static "),
  (0x0010, "final "), (0x0020, "synchronized "), (0x0040, "volatile "), (0x0040, "bridge "),
  (0x0080, "transient "), (0x0080, "varargs "), (0x0100, "native "), (0x0200, "interface "),
  (0x0400, "abstract "), (0x0800, "strict "), (0x1000, "synthetic "), (0x2000, "annotation "),
  (0x4000, "enum "), (0x10000, "constructor "), (0x20000, "declared_synchronized ")]

/-- `FormatAccessFlags`. -/
def formatAccessFlags (flags : Nat) : Text :=
  ((accessFlagNames.filter fun f => flags &&& f.1 ≠ 0).map fun f => ascii f.2).flatten

/-- `n` encoded fields of `InitBaseCache`: the cursor after them, and the flags of
the fields they declare set. -/
def readDeclaredFields (r : Reader) (n p : Nat) (declared : List Bool) :
    Run (Nat × List Bool) := do
  let (p, _, declared) ← loop n (p, 0, declared) fun _ (p, idx, declared) => do
    let (diff, p) ← readULeb128 r.image p
    let (_, p) ← readULeb128 r.image p
    let idx := (idx + diff) % 2 ^ 32
    let _ ← vectorAt declared idx
    pure (p, idx, declared.set idx true)
  pure (p, declared)

/-- The caches a listing is made from: the code items of the methods, the
class_def of each type that has one, the fields under each type, and the fields a
class_data declares. -/
structure ListingCaches where
  codes : List (Option Nat)
  typeDefs : List (Option Nat)
  classFieldIds : List (List Nat)
  declared : List Bool

namespace DexItem

variable (item : DexItem)

/-- `type_def_idx`, where `type_def_flag` is set. -/
def typeDefs : Run (List (Option Nat)) :=
  loop item.reader.header.classDefsSize (List.replicate item.reader.header.typeIdsSize none)
    fun c defs => do
      let cd ← item.reader.classDef c
      let _ ← vectorAt defs cd.classIdx
      pure (defs.set cd.classIdx (some c))

/-- `class_field_ids`. The fields of a type without a class_def go to
`pending_cross_ref_field_ids`. -/
def classFieldIds (typeDefs : List (Option Nat)) : Run (List (List Nat)) := do
  let ids ← loop item.reader.header.fieldIdsSize
    (List.replicate item.reader.header.typeIdsSize []) fun i ids => do
      let f ← item.reader.fieldId i
      let fields ← vectorAt ids f.classIdx
      pure (ids.set f.classIdx (fields ++ [i]))
  pure (List.zipWith (fun fields found => if found.isSome then fields else []) ids typeDefs)

/-- `field_access_flags_declared`. -/
def fieldAccessFlagsDeclared : Run (List Bool) :=
  loop item.reader.header.classDefsSize (List.replicate item.reader.header.fieldIdsSize false)
    fun c declared => do
      let cd ← item.reader.classDef c
      if cd.classDataOff = 0 then pure declared
      else do
        let p ← item.reader.dataPtr cd.classDataOff 1
        let (staticFields, p) ← readULeb128 item.reader.image p
        let (instanceFields, p) ← readULeb128 item.reader.image p
        let (_, p) ← readULeb128 item.reader.image p
        let (_, p) ← readULeb128 item.reader.image p
        let (p, declared) ← readDeclaredFields item.reader staticFields p declared
        let (_, declared) ← readDeclaredFields item.reader instanceFields p declared
        pure declared

def listingCaches : Run ListingCaches := do
  let codes ← item.methodCodes
  let typeDefs ← item.typeDefs
  let classFieldIds ← item.classFieldIds typeDefs
  let declared ← item.fieldAccessFlagsDeclared
  pure ⟨codes, typeDefs, classFieldIds, declared⟩

variable (javaFpString : (bits : Nat) → (isFloat : Bool) → Text)

/-- The line of the instruction at unit `k`. `DecodeInstruction` reads every unit of
the format. -/
def renderInsn (indent : Text) (c : CodeItem) (k : Nat) : Run Text := do
  c.touch (CodeItem.unitsFrom k (getWidthFromFormat (getFormatFromOpcode (c.opcode k))))
  let insn ← decodeInstruction c.mem (c.insns + 2 * k)
  let ops ← item.formatOperands javaFpString (c.opcode k) insn
  pure (indent ++ ascii "0x" ++ digits 16 (2 * k % 2 ^ 32) ++ ascii ": " ++
    ascii (getOpcodeName (c.opcode k)) ++ (if ops = [] then [] else ascii " " ++ ops) ++
    ascii "\n")

/-- The body of a method, which both listings print alike. -/
def renderCode (indent : Text) : Option CodeItem → Run Text
  | none => pure (indent ++ ascii "# (no code item)\n")
  | some c => do
    let lines ← c.guardedWalk (item.renderInsn javaFpString indent c)
    pure (indent ++ ascii ".registers " ++ digits 10 c.header.registersSize ++ ascii "\n" ++
      lines)

variable (caches : ListingCaches)

/-- `RenderMethodSmali`. -/
def renderMethodSmali (methodIdx : Nat) (indent : Text) : Run Text :=
  if item.reader.header.methodIdsSize ≤ methodIdx then pure []
  else do
    let ref ← item.formatMethodRef methodIdx
    let body ← item.renderCode javaFpString indent (item.getMethodCode caches.codes methodIdx)
    pure (ref ++ ascii "\n" ++ body)

/-- The `.source` line. -/
def renderSource (sourceFileIdx : Nat) : Run Text :=
  if sourceFileIdx ≠ kNoIndex then do
    let source ← vectorAt item.strings sourceFileIdx
    pure (ascii ".source \"" ++ Dad.escapeSmaliString source ++ ascii "\"\n")
  else pure []

/-- The `.implements` lines. -/
def renderInterfaces (interfacesOff : Nat) : Run Text :=
  if interfacesOff ≠ 0 then do
    let p ← item.reader.dataPtr interfacesOff 4
    let size ← readU4 item.reader.image p
    let names ← collect size fun i => do
      let typeIdx ← readU2 item.reader.image (p + 4 + i * 2)
      let name ← vectorAt item.typeNames typeIdx
      pure (ascii ".implements " ++ smaliIdent name ++ ascii "\n")
    pure names.flatten
  else pure []

/-- The `.field` line of a field the class_data declares. -/
def renderField (fieldIdx : Nat) : Run Text :=
  if caches.declared.getD fieldIdx false then do
    let f ← item.reader.fieldId fieldIdx
    let name ← vectorAt item.strings f.nameIdx
    let type ← vectorAt item.typeNames f.typeIdx
    pure (ascii ".field " ++ smaliIdent name ++ ascii ":" ++ smaliIdent type ++ ascii "\n")
  else pure []

/-- The `.field` lines. -/
def renderFields : List Nat → Run Text
  | [] => pure []
  | fieldIdx :: fieldIds => do
    let line ← item.renderField caches fieldIdx
    let rest ← renderFields fieldIds
    pure (line ++ rest)

/-- The `.method` blocks. -/
def renderMethods : List Nat → Run Text
  | [] => pure []
  | methodIdx :: methodIds => do
    let ref ← item.formatMethodRef methodIdx
    let body ← item.renderCode javaFpString (ascii "    ")
      (item.getMethodCode caches.codes methodIdx)
    let rest ← renderMethods methodIds
    pure (ascii ".method " ++ ref ++ ascii "\n" ++ body ++ ascii ".end method\n\n" ++ rest)

/-- `RenderClassSmali`. -/
def renderClassSmali (typeIdx : Nat) : Run Text :=
  if item.typeNames.length ≤ typeIdx then pure []
  else do
    let found ← vectorAt caches.typeDefs typeIdx
    match found with
    | none => pure []
    | some defIdx => do
      let cd ← item.reader.classDef defIdx
      let name ← vectorAt item.typeNames typeIdx
      let superclass ← vectorAt item.typeNames cd.superclassIdx
      let source ← item.renderSource cd.sourceFileIdx
      let interfaces ← item.renderInterfaces cd.interfacesOff
      let fieldIds ← vectorAt caches.classFieldIds typeIdx
      let fields ← item.renderFields caches fieldIds
      let methodIds ← vectorAt item.classMethodIds typeIdx
      let methods ← item.renderMethods javaFpString caches methodIds
      pure (ascii ".class " ++ formatAccessFlags cd.accessFlags ++ smaliIdent name ++
        ascii "\n.super " ++ smaliIdent superclass ++ ascii "\n" ++ source ++ interfaces ++
        ascii "\n" ++ fields ++ (if fields = [] then [] else ascii "\n") ++ methods)

end DexItem

end Dexllm
