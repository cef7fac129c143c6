import Dexllm.Flow.BuildCfg

/-!
The argument analysis: the call sites of one body, each with what is known of
the registers it passes.
-/

namespace Dexllm

open Bytes Leaders LinearSweep

/-- The `int64_t` with these 64 bits. -/
def toS8 (bits : Nat) : Int := if bits < 2 ^ 63 then bits else (bits : Int) - 2 ^ 64

/-- `ArgKind`. -/
inductive ArgKind where
  | unknown | constString | constInt | constWide | constClass | constNull
  | fieldRead | methodReturn | parameter | newInstance | newArray
  deriving DecidableEq, Repr

/-- `InvokeArg`. -/
structure InvokeArg where
  kind : ArgKind := .unknown
  regNum : Nat := 0
  stringIdx : Nat := 0
  intValue : Int := 0
  typeIdx : Nat := 0
  fieldIdx : Nat := 0
  methodIdx : Nat := 0
  parameterIndex : Int := -1
  crossedBranch : Bool := false
  wide : Bool := false
  deriving DecidableEq, Repr

/-- `InvokeSite`. -/
structure InvokeSite where
  methodIdx : Nat
  bytecodeOffset : Nat
  opcode : Nat
  deriving DecidableEq, Repr

/-- `InvokeSiteWithArgs`. -/
structure InvokeSiteWithArgs extends InvokeSite where
  args : List InvokeArg
  deriving DecidableEq, Repr

/-- `SameOrigin`. -/
def sameOrigin (a b : InvokeArg) : Bool :=
  a.kind == b.kind &&
    match a.kind with
    | .constString => a.stringIdx == b.stringIdx
    | .constInt | .constWide => a.intValue == b.intValue
    | .constClass | .newInstance | .newArray => a.typeIdx == b.typeIdx
    | .fieldRead => a.fieldIdx == b.fieldIdx
    | .methodReturn => a.methodIdx == b.methodIdx
    | .parameter => a.parameterIndex == b.parameterIndex
    | .constNull => true
    | .unknown => a.crossedBranch == b.crossedBranch

/-- `State`: the origins of the registers that have one, each register once. -/
abbrev RegFile := List (Nat × InvokeArg)

namespace RegFile

/-- `st.erase(r)`. -/
def drop (st : RegFile) (r : Nat) : RegFile := st.filter fun kv => kv.1 ≠ r

/-- `st[r] = a`. -/
def put (st : RegFile) (r : Nat) (a : InvokeArg) : RegFile := (r, a) :: st.drop r

/-- A definition that a merge discarded. -/
def tombstone (r : Nat) : InvokeArg := { regNum := r, crossedBranch := true }

/-- `meet_into`. -/
def meetInto (dst src : RegFile) : RegFile :=
  (dst.map fun kv =>
    if (src.lookup kv.1).any (sameOrigin kv.2) then kv else (kv.1, tombstone kv.1)) ++
  (src.filter fun kv => (dst.lookup kv.1).isNone).map fun kv => (kv.1, tombstone kv.1)

/-- `is_wide_dest`. -/
def isWideDest (opcode : Nat) : Bool :=
  getVerifyFlagsFromOpcode opcode &&& kVerifyRegAWide ≠ 0

/-- `kill_wide_alias`. -/
def killWideAlias (st : RegFile) (r : Nat) : RegFile :=
  if r = 0 then st
  else if (st.lookup (r - 1)).any (·.wide) then st.drop (r - 1)
  else st

/-- `set_reg_op`. -/
def setRegOp (st : RegFile) (r : Nat) (a : InvokeArg) (opcode : Nat) : RegFile :=
  let wide := isWideDest opcode
  let st := st.put r { a with regNum := r, wide := wide }
  let st := if wide then st.drop ((r + 1) % 2 ^ 16) else st
  st.killWideAlias r

/-- `erase_reg_op`. -/
def eraseRegOp (st : RegFile) (r opcode : Nat) : RegFile :=
  let st := st.drop r
  let st := if isWideDest opcode then st.drop ((r + 1) % 2 ^ 16) else st
  st.killWideAlias r

/-- A register as a call reports it. -/
def argAt (st : RegFile) (r : Nat) : InvokeArg := { (st.lookup r).getD {} with regNum := r }

end RegFile

/-- What `run_block` keeps from one instruction to the next: the registers, and
the callee of a call no other instruction has followed yet. -/
structure BlockState where
  regs : RegFile := []
  lastInvoke : Option Nat := none

/-- The opcodes of a call that lists its registers. -/
def isInvoke (op : Nat) : Bool := (0x6E ≤ op && op ≤ 0x72) || op == 0xFA

/-- The opcodes of a call on a range of registers. -/
def isInvokeRange (op : Nat) : Bool := (0x74 ≤ op && op ≤ 0x78) || op == 0xFB

namespace CodeItem

variable (c : CodeItem)

/-- The header of the code item. -/
def header : Code := codeAt c.mem (c.insns - Code.bytes)

/-- The call site at unit `k`, if its opcode is one of a call. -/
def siteAt (k : Nat) : Option InvokeSite :=
  if isInvoke (c.opcode k) || isInvokeRange (c.opcode k) then
    some ⟨c.unit (k + 1), 2 * k % 2 ^ 32, c.opcode k⟩
  else none

/-- The loop of `EnumerateInvokeSites` from unit `k`. -/
def enumerateFrom : (fuel k : Nat) → List InvokeSite
  | 0, _ => []
  | fuel + 1, k =>
    if k < c.insnsSize then
      if c.getBytecodeWidth k = 0 then []
      else (c.siteAt k).toList ++ enumerateFrom fuel (k + c.getBytecodeWidth k)
    else []

/-- `EnumerateInvokeSites`. -/
def enumerateInvokeSites : List InvokeSite := c.enumerateFrom c.insnsSize 0

/-- The registers the call at unit `k` passes. -/
def invokeRegs (k : Nat) : List Nat :=
  if isInvoke (c.opcode k) then
    let pack := c.unit (k + 2)
    [pack &&& 0xF, (pack >>> 4) &&& 0xF, (pack >>> 8) &&& 0xF, (pack >>> 12) &&& 0xF,
      (c.unit k >>> 8) &&& 0xF].take ((c.unit k >>> 12) &&& 0xF)
  else (List.range ((c.unit k >>> 8) &&& 0xFF)).map fun i => (c.unit (k + 2) + i) % 2 ^ 16

/-- The register and the origin an instruction that `run_block` tracks gives it,
moves and results of calls apart. -/
def definedAt (k : Nat) : Option (Nat × InvokeArg) :=
  let op := c.opcode k
  let regAA := (c.unit k >>> 8) &&& 0xFF
  let regA := (c.unit k >>> 8) &&& 0xF
  let narrow (v : Int) : InvokeArg :=
    { kind := if v = 0 then .constNull else .constInt, intValue := v }
  let long := u4At c.mem (c.insns + 2 * (k + 1)) + 2 ^ 32 * u4At c.mem (c.insns + 2 * (k + 3))
  match op with
  | 0x12 =>
    let v := (c.unit k >>> 12) &&& 0xF
    some (regA, narrow (if 8 ≤ v then (v : Int) - 16 else v))
  | 0x13 => some (regAA, narrow (toS2 (c.unit (k + 1))))
  | 0x14 => some (regAA, { kind := .constInt, intValue := c.readInt (k + 1) })
  | 0x15 =>
    some (regAA, { kind := .constInt, intValue := Verifier.toS4 (c.unit (k + 1) * 2 ^ 16) })
  | 0x16 => some (regAA, { kind := .constWide, intValue := toS2 (c.unit (k + 1)) })
  | 0x17 => some (regAA, { kind := .constWide, intValue := c.readInt (k + 1) })
  | 0x18 => some (regAA, { kind := .constWide, intValue := toS8 long })
  | 0x19 => some (regAA, { kind := .constWide, intValue := toS8 (c.unit (k + 1) * 2 ^ 48) })
  | 0x1A => some (regAA, { kind := .constString, stringIdx := c.unit (k + 1) })
  | 0x1B =>
    some (regAA, { kind := .constString, stringIdx := u4At c.mem (c.insns + 2 * (k + 1)) })
  | 0x1C => some (regAA, { kind := .constClass, typeIdx := c.unit (k + 1) })
  | 0x22 => some (regAA, { kind := .newInstance, typeIdx := c.unit (k + 1) })
  | 0x23 => some (regA, { kind := .newArray, typeIdx := c.unit (k + 1) })
  | _ =>
    if 0x52 ≤ op ∧ op ≤ 0x58 then
      some (regA, { kind := .fieldRead, fieldIdx := c.unit (k + 1) })
    else if 0x60 ≤ op ∧ op ≤ 0x66 then
      some (regAA, { kind := .fieldRead, fieldIdx := c.unit (k + 1) })
    else none

/-- The destination and the source of a move. -/
def moveAt (k : Nat) : Option (Nat × Nat) :=
  let regAA := (c.unit k >>> 8) &&& 0xFF
  match c.opcode k with
  | 0x01 | 0x04 | 0x07 => some ((c.unit k >>> 8) &&& 0xF, (c.unit k >>> 12) &&& 0xF)
  | 0x02 | 0x05 | 0x08 => some (regAA, c.unit (k + 1))
  | 0x03 | 0x06 | 0x09 => some (c.unit (k + 1), c.unit (k + 2))
  | _ => none

/-- The register an instruction without an origin writes. -/
def untrackedAt (k : Nat) : Option Nat :=
  let op := c.opcode k
  if op = 0x0D ∨ (0x2D ≤ op ∧ op ≤ 0x31) ∨ (0x44 ≤ op ∧ op ≤ 0x4A) ∨ (0x90 ≤ op ∧ op ≤ 0xAF) ∨
      (0xD8 ≤ op ∧ op ≤ 0xE2) ∨ 0xFE ≤ op then
    some ((c.unit k >>> 8) &&& 0xFF)
  else if op = 0x20 ∨ op = 0x21 ∨ (0x7B ≤ op ∧ op ≤ 0x8F) ∨ (0xB0 ≤ op ∧ op ≤ 0xD7) ∨
      (0xE3 ≤ op ∧ op ≤ 0xE5) ∨ (0xEF ≤ op ∧ op ≤ 0xF2) then
    some ((c.unit k >>> 8) &&& 0xF)
  else none

/-- The switch of `run_block` on the instruction at unit `k`. -/
def transfer (k : Nat) (s : BlockState) : BlockState :=
  let op := c.opcode k
  if isInvoke op || isInvokeRange op then { s with lastInvoke := some (c.unit (k + 1)) }
  else if 0x0A ≤ op ∧ op ≤ 0x0C then
    let regAA := (c.unit k >>> 8) &&& 0xFF
    match s.lastInvoke with
    -- the callee stays, until an instruction that is no move-result
    | some callee =>
      { s with regs := s.regs.setRegOp regAA { kind := .methodReturn, methodIdx := callee } op }
    | none => { s with regs := s.regs.eraseRegOp regAA op }
  else match c.moveAt k with
    | some (dst, src) =>
      match s.regs.lookup src with
      | some a => ⟨s.regs.setRegOp dst a op, none⟩
      | none => ⟨s.regs.eraseRegOp dst op, none⟩
    | none =>
      match c.definedAt k with
      | some (r, a) => ⟨s.regs.setRegOp r a op, none⟩
      | none =>
        match c.untrackedAt k with
        | some r => ⟨s.regs.eraseRegOp r op, none⟩
        | none => ⟨s.regs, none⟩

/-- The site `run_block` emits for the instruction at unit `k`. -/
def emitAt (k : Nat) (s : BlockState) : List InvokeSiteWithArgs :=
  (c.siteAt k).toList.map fun site => { site with args := (c.invokeRegs k).map s.regs.argAt }

/-- What a run over a block leaves: the registers, the number of simulated
instructions, and the sites. -/
structure BlockRun where
  regs : RegFile
  simulated : Nat
  sites : List InvokeSiteWithArgs

/-- The loop of `run_block` from unit `k` to unit `stop`. -/
def runFrom (stop : Nat) : (fuel k : Nat) → BlockState → BlockRun
  | 0, _, s => ⟨s.regs, 0, []⟩
  | fuel + 1, k, s =>
    if k < stop then
      if c.getBytecodeWidth k = 0 then ⟨s.regs, 0, []⟩
      else
        let rest := runFrom stop fuel (k + c.getBytecodeWidth k) (c.transfer k s)
        ⟨rest.regs, rest.simulated + 1, c.emitAt k s ++ rest.sites⟩
    else ⟨s.regs, 0, []⟩

/-- `run_block`. -/
def runBlock (g : Cfg) (b : Nat) (regs : RegFile) : BlockRun :=
  c.runFrom (g.endOf b c.codeBytes / 2) c.insnsSize (g.starts.getD b 0 / 2) { regs := regs }

/-- `param_state`. -/
def paramState : RegFile :=
  let first := c.header.registersSize - c.header.insSize
  (List.range c.header.insSize).map fun i =>
    ((first + i) % 2 ^ 16,
      { kind := .parameter, regNum := (first + i) % 2 ^ 16, parameterIndex := toS2 i })

def kMaxWork : Nat := 2 ^ 22

def kMaxWindowEntries : Nat := 2 ^ 16

end CodeItem

namespace Cfg

variable (g : Cfg)

/-- The blocks one level above a frontier that the walk has not met: each with
its distance. -/
def levelAbove (d : Nat) (frontier : List Nat) (dist : List (Nat × Nat)) : List (Nat × Nat) :=
  let above := frontier.flatMap fun f =>
    if g.isHandler.getD f false then [] else g.preds.getD f []
  (above.filter fun p => (dist.lookup p).isNone).reverse.dedup.reverse.map fun p => (p, d + 1)

/-- The backward walk of `rounds` levels. -/
def windowFrom : (rounds d : Nat) → (frontier : List Nat) → List (Nat × Nat) → List (Nat × Nat)
  | 0, _, _, dist => dist
  | rounds + 1, d, frontier, dist =>
    let next := g.levelAbove d frontier dist
    if next = [] then dist else windowFrom rounds (d + 1) (next.map (·.1)) (dist ++ next)

/-- The window of a block, farthest first. -/
def window (depth b : Nat) : List Nat :=
  ((g.windowFrom depth 0 [b] [(b, 0)]).insertionSort fun x y =>
    if x.2 ≠ y.2 then y.2 < x.2 else x.1 ≤ y.1).map (·.1)

end Cfg

namespace CodeItem

variable (c : CodeItem)

/-- The state a block of the window starts from, given the states behind the
blocks before it. -/
def incoming (g : Cfg) (w : Nat) (outs : List (Nat × RegFile)) : RegFile :=
  if g.isHandler.getD w false then []
  else
    let entry : Option RegFile := if w = 0 then some c.paramState else none
    let met := (g.preds.getD w []).foldl (fun (acc : Option RegFile) p =>
      let contrib := (outs.lookup p).getD []
      match acc with
      | none => some contrib
      | some st => some (st.meetInto contrib)) entry
    met.getD []

/-- The loop over the window of block `b`: the state `b` starts from, and the
work done. -/
def resolve (g : Cfg) (b : Nat) : (window : List Nat) → (work stored : Nat) →
    List (Nat × RegFile) → RegFile × Nat
  | [], work, _, _ => ([], work)
  | w :: window, work, stored, outs =>
    let st := c.incoming g w outs
    if w = b then (st, work)
    else if kMaxWork < work ∨ kMaxWindowEntries < stored + st.length then ([], work)
    else
      let run := c.runBlock g w st
      resolve g b window (work + run.simulated) (stored + run.regs.length) ((w, run.regs) :: outs)

/-- The sites of block `b`, and the work done. -/
def analyzeBlock (g : Cfg) (depth b work : Nat) : List InvokeSiteWithArgs × Nat :=
  if g.hasInvoke.getD b false then
    let (regs, work) :=
      if work ≤ kMaxWork then c.resolve g b (g.window depth b) work 0 [] else ([], work)
    ((c.runBlock g b regs).sites, work)
  else ([], work)

/-- The block loop of `AnalyzeInvokes`. -/
def analyzeBlocks (g : Cfg) (depth : Nat) : (blocks : List Nat) → (work : Nat) →
    List InvokeSiteWithArgs
  | [], _ => []
  | b :: blocks, work =>
    let (sites, work) := c.analyzeBlock g depth b work
    sites ++ analyzeBlocks g depth blocks work

/-- `AnalyzeInvokes`. -/
def analyzeInvokes (depth : Nat) : List InvokeSiteWithArgs :=
  let g := c.buildCfg
  c.analyzeBlocks g depth (List.range g.starts.length) 0

end CodeItem

end Dexllm
