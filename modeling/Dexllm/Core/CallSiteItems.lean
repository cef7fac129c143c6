import Dexllm.Core.CodeSource
import Dexllm.Lib.Cursor

/-!
`GetCallSite`: one entry of `call_site_ids`. The verifier bounds the section and
not what the entries lead to, so every offset and index is bounded here. An
argument that fails makes the whole entry the empty one.
-/

namespace Dexllm

open Guarded Bytes Cursor Leb128

/-- `CallSiteArg::Kind`. -/
inductive CallSiteArgKind where
  | int | long | float | double | bool | string | cls | proto | handle
  deriving DecidableEq, Repr

/-- `CallSiteArg`. `bits` are those of the float or the double. -/
structure CallSiteArg where
  kind : CallSiteArgKind := .int
  ival : Int := 0
  bits : Nat := 0
  text : Text := []
  member : Text := []
  sig : Text := []
  deriving DecidableEq, Repr

/-- `CallSiteInfo`. -/
structure CallSiteInfo where
  ok : Bool := false
  bootstrap : RefTriple := {}
  name : Text := []
  proto : Text := []
  args : List CallSiteArg := []
  deriving DecidableEq, Repr

/-- `ImageSpan`. -/
structure ImageSpan where
  base : Nat
  avail : Nat

/-- The length of the payload `ParseCallSiteArg` reads after a header byte. -/
def payloadWidth (header : Nat) : Nat :=
  if header &&& 0x1f = 0x1e ∨ header &&& 0x1f = 0x1f then 0 else (header >>> 5) + 1

namespace DexItem

variable (item : DexItem)

/-- `SpanOf`: the bytes from the slicer's `image_` on. -/
def spanOf : Option ImageSpan :=
  let base := item.reader.base
  let imgEnd := item.reader.image.length
  if imgEnd ≤ base then none else some ⟨base, imgEnd - base⟩

/-- `FindMapSection`. -/
def findMapSection (wantType : Nat) : Run (Option (Nat × Nat)) :=
  match item.spanOf with
  | none => pure none
  | some span =>
    let mapOff := item.reader.header.mapOff
    if span.avail ≤ mapOff ∨ span.avail - mapOff < 4 then pure none
    else do
      let mp := span.base + mapOff
      let nitems ← readU4 item.reader.image mp
      let room := span.avail - mapOff - 4
      if room / MapItem.bytes < nitems then pure none
      else do
        let found ← item.reader.findMapItem wantType mp nitems 0
        pure (found.map fun mi => (mi.offset, mi.size))

/-- The argument of a payload that is a method handle. -/
def handleArg (h : HandleArg) : CallSiteArg :=
  { kind := .handle, ival := h.ival, text := h.triple.cls, member := h.triple.name,
    sig := h.triple.sig }

/-- The arms of `ParseCallSiteArg` that have a payload, which is `raw`. -/
def callSiteArg (type nbytes raw : Nat) : Run (Option CallSiteArg) :=
  match type with
  | 0x03 => pure (some { kind := .int, ival := (raw &&& 0xffff : Nat) })
  | 0x00 | 0x02 | 0x04 => pure (some { kind := .int, ival := signExtend raw nbytes })
  | 0x06 => pure (some { kind := .long, ival := signExtend raw nbytes })
  | 0x10 => pure (some { kind := .float, bits := floatBits raw nbytes })
  | 0x11 => pure (some { kind := .double, bits := doubleBits raw nbytes })
  | 0x17 =>
    if item.strings.length ≤ raw then pure none
    else pure (some { kind := .string, text := item.strings.getD raw [] })
  | 0x18 =>
    if 2 ^ 32 ≤ raw then pure none
    else
      let text := item.typeNameOrEmpty raw
      pure (if text = [] then none else some { kind := .cls, text := text })
  | 0x15 =>
    if 2 ^ 32 ≤ raw then pure none
    else do
      let text ← item.getProto raw
      pure (if text = [] then none else some { kind := .proto, text := text })
  | 0x16 =>
    if 2 ^ 32 ≤ raw then pure none
    else do
      let h ← item.resolveMethodHandle raw
      pure (h.map handleArg)
  | _ => pure none

/-- `ParseCallSiteArg`: the argument, if it has a faithful literal, and the
cursor after its payload. -/
def parseCallSiteArg (stop p : Nat) : Run (Option CallSiteArg × Nat) :=
  if stop ≤ p then pure (none, p)
  else do
    let header ← readU1 item.reader.image p
    let type := header &&& 0x1f
    let p := p + 1
    if type = 0x1e then pure (none, p)
    else if type = 0x1f then
      pure (some { kind := .bool, ival := ((header >>> 5) &&& 1 : Nat) }, p)
    else do
      let nbytes := (header >>> 5) + 1
      let (raw, p) ← loadLE item.reader.image stop nbytes p
      let arg ← item.callSiteArg type nbytes raw
      pure (arg, p)

/-- An argument of one of the three fixed places, which has a kind. -/
def parseFixedArg (stop : Nat) (kind : CallSiteArgKind) (p : Nat) :
    Run (Option (CallSiteArg × Nat)) := do
  let (arg, p) ← item.parseCallSiteArg stop p
  match arg with
  | none => pure none
  | some arg => pure (if arg.kind = kind then some (arg, p) else none)

/-- The loop over the extra arguments, `rounds` of them from `p` on. -/
def parseExtraArgs (stop : Nat) :
    (rounds p : Nat) → List CallSiteArg → Run (Option (List CallSiteArg))
  | 0, _, args => pure (some args)
  | rounds + 1, p, args => do
    let (arg, p) ← item.parseCallSiteArg stop p
    match arg with
    | none => pure none
    | some arg => parseExtraArgs stop rounds p (args ++ [arg])

/-- The elements of a call site's array, `count` of them from `p` on. -/
def parseCallSite (stop count p : Nat) : Run CallSiteInfo :=
  if count < 3 then pure {}
  else do
    let e0 ← item.parseFixedArg stop .handle p
    match e0 with
    | none => pure {}
    | some (e0, p) => do
      let e1 ← item.parseFixedArg stop .string p
      match e1 with
      | none => pure {}
      | some (e1, p) => do
        let e2 ← item.parseFixedArg stop .proto p
        match e2 with
        | none => pure {}
        | some (e2, p) => do
          let args ← item.parseExtraArgs stop (count - 3) p []
          match args with
          | none => pure {}
          | some args =>
            pure ⟨true, ⟨e0.text, e0.member, e0.sig⟩, e1.text, e2.text, args⟩

/-- The `data_off` of entry `idx` of the section, once both are bounded. -/
def callSiteDataOff (span : ImageSpan) (idx : Nat) : Run (Option Nat) := do
  let found ← item.findMapSection kCallSiteIdItem
  match found with
  | none => pure none
  | some (csOff, csSize) =>
    if csSize ≤ idx then pure none
    else if span.avail ≤ csOff ∨ (span.avail - csOff) / 4 < csSize then pure none
    else do
      let dataOff ← readU4 item.reader.image (span.base + csOff + idx * 4)
      pure (if dataOff = 0 ∨ span.avail ≤ dataOff then none else some dataOff)

/-- `GetCallSite`. -/
def getCallSite (idx : Nat) : Run CallSiteInfo :=
  match item.spanOf with
  | none => pure {}
  | some span => do
    let dataOff ← item.callSiteDataOff span idx
    match dataOff with
    | none => pure {}
    | some dataOff => do
      let stop := span.base + span.avail
      let (count, p) ← loadUleb 32 5 item.reader.image stop (span.base + dataOff)
      item.parseCallSite stop count p

end DexItem

end Dexllm
