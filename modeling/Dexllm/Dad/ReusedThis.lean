import Dexllm.Dad.Execution
import Dexllm.Dad.FloatMoves
import Dexllm.Dad.CatchBlocks
import Dexllm.Lib.Visits

/-!
`MaterializeReusedThis`: a receiver register that the method assigns becomes a local. The
local starts as a copy of `this`, unless every assignment is a `new` of one class and the
scans find no read of the value on entry.
-/

namespace Dexllm

open Guarded Dad

/-- The right-hand sides the pass tells apart. -/
inductive ReceiverRhs where
  | newInstance
  | newArray
  | constant (value : Int)
  | invoke (args : List Vid) (ptype : List Text)
  | other
  deriving DecidableEq, Repr

/-- An instruction: whether it is a return, and its right-hand side with the type it has
when the pass begins. -/
structure ReceiverForm extends IRForm Vid where
  isReturn : Bool := false
  rhs : Option (ReceiverRhs × Text) := none

/-- A method as the pass finds it and leaves it. `lvars` has the kind and the type of a
variable. -/
structure ReceiverMethod where
  built : BuiltGraph
  ins : Nat → List ReceiverForm
  lvars : List (Int × VarKind × Text)

/-- What the scan over the instructions has seen. -/
structure ReceiverScan where
  anchor : Text := []
  sinkConflict : Bool := false
  sinkBlocks : List Nat := []
  reassignBlocks : List Nat := []
  reused : Bool := false
  returned : Bool := false
  reassign : List Text := []
  allAlloc : Bool := true
  allocType : Text := []

/-- The key of a register. -/
def vidOf (reg : Int) : Vid := ascii "v" ++ decimal reg

namespace ReceiverForm

variable (ins : ReceiverForm)

def rhsType : Text :=
  match ins.rhs with
  | none => []
  | some (_, type) => type

/-- A `new-instance` or a `new-array`. -/
def isAlloc : Bool :=
  match ins.rhs with
  | some (.newInstance, _) | some (.newArray, _) => true
  | _ => false

/-- A zero of a type that null can have. -/
def isNull : Bool :=
  match ins.rhs with
  | some (.constant value, type) =>
    value = 0 && type.length = 1 && type.all fun c => c ∈ ascii "IZBSC"
  | _ => false

/-- What an assignment gives the receiver: a reference type, the empty text for null, or
`!`. -/
def reassigned : Text :=
  if isRef ins.rhsType then ins.rhsType else if ins.isNull then [] else ascii "!"

/-- The types of the parameters a variable is an argument for. -/
def argSinks (vid : Vid) : List Text :=
  match ins.rhs with
  | some (.invoke args ptype, _) =>
    if args.length = ptype.length then
      (args.zip ptype).filterMap fun (a, type) => if a = vid then some type else none
    else []
  | _ => []

/-- `replace_lhs` and `replace_var`. -/
def rename (vid fresh : Vid) : ReceiverForm :=
  let ins := if ins.lhs = some vid then { ins with lhs := some fresh } else ins
  if vid ∈ ins.usedVars then
    let swap (u : Vid) : Vid := if u = vid then fresh else u
    { ins with
      usedVars := (ins.usedVars.map swap).dedup
      distinct := List.nodup_dedup _
      rhs := ins.rhs.map fun (rhs, type) =>
        match rhs with
        | .invoke args ptype => (.invoke (args.map swap) ptype, type)
        | rhs => (rhs, type) }
  else ins

end ReceiverForm

namespace ReceiverScan

/-- `note_sink`. -/
def noteSink (blk : Nat) (s : ReceiverScan) (type : Text) : ReceiverScan :=
  if isRef type then
    let s := { s with sinkBlocks := blk :: s.sinkBlocks }
    if s.anchor = [] then { s with anchor := type }
    else if s.anchor ≠ type then { s with sinkConflict := true }
    else s
  else s

def noteReturn (vid : Vid) (retType : Text) (blk : Nat) (ins : ReceiverForm)
    (s : ReceiverScan) : ReceiverScan :=
  if ins.isReturn ∧ vid ∈ ins.usedVars then { s.noteSink blk retType with returned := true } else s

def noteReassign (vid : Vid) (blk : Nat) (ins : ReceiverForm) (s : ReceiverScan) : ReceiverScan :=
  if ins.lhs = some vid then
    let s := { s with
      reused := true
      reassignBlocks := blk :: s.reassignBlocks
      reassign := s.reassign ++ [ins.reassigned] }
    if ins.isAlloc ∧ isRef ins.rhsType then
      if s.allocType = [] then { s with allocType := ins.rhsType }
      else if s.allocType ≠ ins.rhsType then { s with allAlloc := false }
      else s
    else { s with allAlloc := false }
  else s

/-- One instruction of a block. -/
def note (vid : Vid) (retType : Text) (s : ReceiverScan) (p : Nat × ReceiverForm) : ReceiverScan :=
  ((p.2.argSinks vid).foldl (noteSink p.1) (s.noteReturn vid retType p.1 p.2)).noteReassign vid p.1
    p.2

end ReceiverScan

namespace ReceiverMethod

variable (m : ReceiverMethod)

/-- The instructions in the order of `rpo`, each with its block. -/
def sites : List (Nat × ReceiverForm) := m.built.graph.rpo.flatMap fun n => (m.ins n).map (n, ·)

def scan (vid : Vid) (retType : Text) : ReceiverScan := m.sites.foldl (.note vid retType) {}

/-- The blocks that normal edges lead to from the entry without leaving a reassigning block. -/
def normalBlocks (reassignBlocks : List Nat) (entry : Nat) : List Nat :=
  Worklist.visitAll (fun b => if b ∈ reassignBlocks then [] else m.built.graph.sucs b)
    m.built.graph.nodes [entry]

/-- The blocks that all edges lead to from the ones marked `in_catch`. -/
def exceptBlocks : List Nat :=
  Worklist.visitAll m.built.graph.allSucs m.built.graph.nodes
    (m.built.graph.rpo.filter (· ∈ m.built.inCatch)).reverse

/-- A read before the reassignment of a reassigning block. -/
def readsEntry (vid : Vid) (isReassign : Bool) : List ReceiverForm → Bool
  | [] => false
  | ins :: rest =>
    if vid ∈ ins.usedVars then true
    else if isReassign ∧ ins.lhs = some vid then false
    else readsEntry vid isReassign rest

/-- `entry_this_read`. -/
def entryThisRead (vid : Vid) (reassignBlocks : List Nat) (entry : Nat) : Bool :=
  let excpt := m.exceptBlocks
  ((m.normalBlocks reassignBlocks entry).any fun b =>
    b ∉ excpt && readsEntry vid (b ∈ reassignBlocks) (m.ins b)) ||
  excpt.any fun b => (m.ins b).any fun ins => vid ∈ ins.usedVars

/-- A register no variable has. -/
def freshReg (thisReg : Int) : Int :=
  m.lvars.foldl (fun fresh (reg, _) => if fresh < reg then reg else fresh) thisReg + 1

end ReceiverMethod

/-- The arguments of the pass. Without an oracle only equal types are assignable. -/
structure MaterializeReusedThis where
  thisReg : Int
  clsName : Text
  retType : Text
  isCtor : Bool
  isAssignable : Option (Text → Text → Run Bool)

namespace MaterializeReusedThis

variable (p : MaterializeReusedThis)

def thisVid : Vid := vidOf p.thisReg

def assignable (sub super : Text) : Run Bool :=
  match p.isAssignable with
  | none => .ok (sub = super)
  | some oracle => oracle sub super

def reassignOk (anchor : Text) : List Text → Run Bool
  | [] => .ok true
  | type :: types => do
    if type = ascii "!" then pure false
    else
      let ok ← if type = [] then pure true else p.assignable type anchor
      if ok then reassignOk anchor types else pure false

/-- The copy `vX = this` is an up-cast. -/
def clsOk (m : ReceiverMethod) (s : ReceiverScan) (entry : Nat) (anchor : Text) : Run Bool := do
  if s.returned && isRef p.retType && decide (anchor = p.retType) then pure true
  else
    let ok ← p.assignable p.clsName anchor
    let reached := m.normalBlocks s.reassignBlocks entry
    pure (ok || s.sinkBlocks.any fun b => b ∈ reached && b ∉ s.reassignBlocks)

/-- The fresh local in place of the receiver. -/
def renamed (m : ReceiverMethod) (anchor : Text) : ReceiverMethod :=
  let fresh := m.freshReg p.thisReg
  { m with
    ins := fun n =>
      if n ∈ m.built.graph.rpo then (m.ins n).map (·.rename p.thisVid (vidOf fresh)) else m.ins n
    lvars := (fresh, .local, anchor) :: m.lvars }

/-- The copy at the head of the entry block, from a receiver of the type of the class. -/
def seeded (m : ReceiverMethod) (entry : Nat) (anchor : Text) : ReceiverMethod :=
  let fresh := m.freshReg p.thisReg
  let copy : ReceiverForm :=
    { lhs := some (vidOf fresh), usedVars := [p.thisVid], distinct := List.nodup_singleton _
      rhs := some (.other, p.clsName) }
  let m := p.renamed m anchor
  { m with
    ins := Function.update m.ins entry (copy :: m.ins entry)
    lvars := m.lvars.map fun (reg, kind, type) =>
      if reg = p.thisReg then (reg, kind, p.clsName) else (reg, kind, type) }

/-- `MaterializeReusedThis`. -/
def run (m : ReceiverMethod) : Run (Bool × ReceiverMethod) :=
  if p.isCtor then .ok (false, m)
  else
    match m.lvars.lookup p.thisReg, m.built.graph.entry with
    | some (.this, _), some entry =>
      let s := m.scan p.thisVid p.retType
      if ¬s.reused ∨ s.sinkConflict then .ok (false, m)
      else
        let defAnchor := s.allAlloc && decide (s.allocType ≠ []) &&
          !m.entryThisRead p.thisVid s.reassignBlocks entry
        let anchor := if defAnchor then s.allocType else s.anchor
        if anchor = [] then .ok (false, m)
        else do
          let ok ← p.reassignOk anchor s.reassign
          if ok then
            if defAnchor then pure (true, p.renamed m anchor)
            else
              let ok ← p.clsOk m s entry anchor
              if ok then pure (true, p.seeded m entry anchor) else pure (false, m)
          else pure (false, m)
    | _, _ => .ok (false, m)

end MaterializeReusedThis

end Dexllm
