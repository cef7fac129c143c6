import Dexllm.FieldSites
import Dexllm.Flow.InvokeArgs

/-!
The walks over the code of a loaded method with the units they read: a walk that
reads a unit outside the code faults. `EnumerateInvokeSites`,
`EnumerateFieldAccessSites` and `AnalyzeInvokes` have no bounds beyond the test of
their loops.
-/

namespace Dexllm

open Guarded Bytes LinearSweep

/-- The units behind its first that `run_block` reads of an instruction. -/
def operandUnits (op : Nat) : Nat :=
  if isInvoke op || isInvokeRange op then 2
  else match op with
    | 0x02 | 0x05 | 0x08 => 1
    | 0x03 | 0x06 | 0x09 => 2
    | 0x13 | 0x15 | 0x16 | 0x19 | 0x1A | 0x1C | 0x22 | 0x23 => 1
    | 0x14 | 0x17 | 0x1B => 2
    | 0x18 => 4
    | _ => if (0x52 ≤ op ∧ op ≤ 0x58) ∨ (0x60 ≤ op ∧ op ≤ 0x66) then 1 else 0

namespace CodeItem

variable (c : CodeItem)

/-- The reads of these units of `insns`. -/
def touch (units : List Nat) : Run Unit :=
  if ∀ u ∈ units, u < c.insnsSize then .ok () else .error .oob

/-- `n` units from unit `k` on. -/
def unitsFrom (k n : Nat) : List Nat := (List.range n).map (k + ·)

/-- `GetBytecodeWidth` at unit `k`, and what it reads there. -/
def guardedWidth (k : Nat) : Run Nat := do
  c.touch (unitsFrom k (headerUnits (c.unit k)))
  pure (c.getBytecodeWidth k)

/-- The loop all the walks share, from unit `k`. -/
def guardedWalkFrom {α : Type} (visit : Nat → Run (List α)) : (fuel k : Nat) → Run (List α)
  | 0, _ => pure []
  | fuel + 1, k =>
    if k < c.insnsSize then do
      let width ← c.guardedWidth k
      if width = 0 then pure []
      else do
        let out ← visit k
        let rest ← guardedWalkFrom visit fuel (k + width)
        pure (out ++ rest)
    else pure []

def guardedWalk {α : Type} (visit : Nat → Run (List α)) : Run (List α) :=
  c.guardedWalkFrom visit c.insnsSize 0

/-- `EnumerateInvokeSites`. -/
def guardedInvokeSites : Run (List InvokeSite) := c.guardedWalk fun k => do
  c.touch (if isInvoke (c.opcode k) || isInvokeRange (c.opcode k) then [k + 1] else [])
  pure (c.siteAt k).toList

/-- `EnumerateFieldAccessSites`. -/
def guardedFieldSites : Run (List FieldSite) := c.guardedWalk fun k => do
  c.touch (if isFieldAccessOpcode (c.opcode k) then [k + 1] else [])
  pure (c.fieldSiteAt k).toList

/-- The units of the payload the switch at unit `k` leads to. -/
def payloadReads (k : Nat) : List Nat :=
  let pay : Int := 2 * k + 2 * c.readInt (k + 1)
  if pay < 0 ∨ (c.codeBytes : Int) < pay + 4 then []
  else
    let t := pay.toNat / 2
    let size := c.unit (t + 1)
    let tbl : Option Nat :=
      if c.opcode k = 0x2B ∧ c.unit t = 0x0100 then some (t + 4)
      else if c.opcode k = 0x2C ∧ c.unit t = 0x0200 then some (t + 2 + size * 2)
      else none
    unitsFrom t 2 ++
      match tbl with
      | none => []
      | some tbl => if c.insnsSize < tbl + size * 2 then [] else unitsFrom tbl (size * 2)

/-- The units behind its first that `BuildCfg` reads of the instruction at unit
`k`. -/
def flowReads (k : Nat) : Run Unit :=
  let op := c.opcode k
  if op = 0x29 then c.touch [k + 1]
  else if op = 0x2A then c.touch (unitsFrom (k + 1) 2)
  else if 0x32 ≤ op ∧ op ≤ 0x3D then c.touch [k + c.getBytecodeWidth k - 1]
  else if op = 0x2B ∨ op = 0x2C then do
    c.touch (unitsFrom (k + 1) 2)
    c.touch (c.payloadReads k)
  else pure ()

/-- `BuildCfg`, which reads the code in its decode loop. -/
def guardedCfg : Run Cfg := do
  let _ ← c.guardedWalk fun k => do
    c.flowReads k
    pure [c.insnAt k]
  pure c.buildCfg

/-- The loop of `run_block` from unit `k` to unit `stop`. -/
def guardedRunFrom (stop : Nat) : (fuel k : Nat) → BlockState → Run BlockRun
  | 0, _, s => pure ⟨s.regs, 0, []⟩
  | fuel + 1, k, s =>
    if k < stop then do
      let width ← c.guardedWidth k
      if width = 0 then pure ⟨s.regs, 0, []⟩
      else do
        c.touch (unitsFrom (k + 1) (operandUnits (c.opcode k)))
        let rest ← guardedRunFrom stop fuel (k + width) (c.transfer k s)
        pure ⟨rest.regs, rest.simulated + 1, c.emitAt k s ++ rest.sites⟩
    else pure ⟨s.regs, 0, []⟩

/-- `run_block`. -/
def guardedRun (g : Cfg) (b : Nat) (regs : RegFile) : Run BlockRun :=
  c.guardedRunFrom (g.endOf b c.codeBytes / 2) c.insnsSize (g.starts.getD b 0 / 2) { regs := regs }

/-- The loop over the window of block `b`. -/
def guardedResolve (g : Cfg) (b : Nat) : (window : List Nat) → (work stored : Nat) →
    List (Nat × RegFile) → Run (RegFile × Nat)
  | [], work, _, _ => pure ([], work)
  | w :: window, work, stored, outs =>
    let st := c.incoming g w outs
    if w = b then pure (st, work)
    else if kMaxWork < work ∨ kMaxWindowEntries < stored + st.length then pure ([], work)
    else do
      let run ← c.guardedRun g w st
      guardedResolve g b window (work + run.simulated) (stored + run.regs.length)
        ((w, run.regs) :: outs)

/-- The sites of block `b`, and the work done. -/
def guardedBlock (g : Cfg) (depth b work : Nat) : Run (List InvokeSiteWithArgs × Nat) :=
  if g.hasInvoke.getD b false then do
    let (regs, work) ←
      if work ≤ kMaxWork then c.guardedResolve g b (g.window depth b) work 0 []
      else pure ([], work)
    let run ← c.guardedRun g b regs
    pure (run.sites, work)
  else pure ([], work)

/-- The block loop of `AnalyzeInvokes`. -/
def guardedBlocks (g : Cfg) (depth : Nat) : (blocks : List Nat) → (work : Nat) →
    Run (List InvokeSiteWithArgs)
  | [], _ => pure []
  | b :: blocks, work => do
    let (sites, work) ← c.guardedBlock g depth b work
    let rest ← guardedBlocks g depth blocks work
    pure (sites ++ rest)

/-- `AnalyzeInvokes`. -/
def guardedAnalyze (depth : Nat) : Run (List InvokeSiteWithArgs) := do
  let g ← c.guardedCfg
  c.guardedBlocks g depth (List.range g.starts.length) 0

/-- The units the widest reader of the instruction at unit `k` reads: of a payload
its size fields, of an instruction all of it. -/
def unitsAt (k : Nat) : Nat :=
  if isPayload (c.unit k) then headerUnits (c.unit k)
  else getWidthFromFormat (getFormatFromOpcode (c.opcode k))

/-- What the linear decode meets ends inside the code. -/
def Fits : Prop := ∀ k ∈ c.boundaries, k + c.unitsAt k ≤ c.insnsSize

instance : Decidable c.Fits := inferInstanceAs (Decidable (∀ k ∈ c.boundaries, _))

end CodeItem

end Dexllm
