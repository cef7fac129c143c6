import Dexllm.Dad.NarrowOrder
import Dexllm.Lib.Settling

/-!
The narrow-integral pass over the instructions of a method: `forward`, the versions
that are only constants and take the type of where they are moved to, the closure that
raises a version to what its untyped sources are, `forward` again, and the types the
versions end with.
-/

namespace Dexllm

namespace Dad

/-- The variable of a version; the type is empty unless it is a narrow integral. -/
structure NarrowVar where
  param : Bool
  type : Narrow

/-- An instruction: the versions it uses, and the version it defines with its input to
that, or none for a foreign one. -/
structure NarrowIns where
  used : List NarrowSrc
  target : Option (Vid × Option NarrowIn)

/-- A method as the pass finds it, its versions in order. -/
structure NarrowBody where
  versions : List Vid
  nodup : versions.Nodup
  instrs : List NarrowIns
  varOf : Vid → Option NarrowVar
  zForbidden : Vid → Bool
  defined : ∀ i ∈ instrs, ∀ v d, i.target = some (v, some d) → ∀ s ∈ d.srcs, s.vid ∈ versions
  srcs_used : ∀ i ∈ instrs, ∀ v d, i.target = some (v, some d) → d.srcs ⊆ i.used
  move_srcs : ∀ i ∈ instrs, ∀ v d, i.target = some (v, some d) → d.bitwise = false →
    d.srcs.length ≤ 1

/-- The range of the values of a version. -/
structure NarrowRange where
  lo : Int
  hi : Int

/-- `add`: the range takes in the values from `lo` to `hi`. -/
def NarrowRange.add (r : Option NarrowRange) (lo hi : Int) : Option NarrowRange :=
  match r with
  | none => some ⟨lo, hi⟩
  | some r => some ⟨min r.lo lo, max r.hi hi⟩

/-- `range_fits`. -/
def Narrow.rangeFits (t : Narrow) (r : NarrowRange) : Bool := t.fits r.lo && t.fits r.hi

/-- The values that a definition adds, or `none` if it is not constant-like. -/
def NarrowIn.range (cvals : Vid → Option NarrowRange) (d : NarrowIn) (r : Option NarrowRange) :
    Option (Option NarrowRange) :=
  if d.type ≠ .empty ∨ d.bitwise then none
  else d.srcs.foldlM (fun r s => (cvals s.vid).map fun c => NarrowRange.add r c.lo c.hi)
    (d.consts.foldl (fun r c => NarrowRange.add r c c) r)

def NarrowNode.range (cvals : Vid → Option NarrowRange) (nd : NarrowNode) :
    Option (Option NarrowRange) :=
  nd.ins.foldlM (fun r d => d.range cvals r) none

/-- The loop over the definitions of a version, up to a foreign one. -/
def NarrowNode.collect : List (Option NarrowIn) → NarrowNode
  | [] => ⟨[], false⟩
  | none :: _ => ⟨[], true⟩
  | some d :: defs => ⟨d :: (collect defs).ins, (collect defs).foreign⟩

/-- `typed_from[d].push_back(v)`. -/
def NarrowPass.Lifts.push (v : Vid) (lifts : Lifts) (d : Vid) : Lifts :=
  (d, lifts.of d ++ [v]) :: lifts.filter fun e => e.1 ≠ d

/-- What the assignment step writes. -/
structure NarrowAssigned where
  ty : Vid → Narrow
  typedFrom : NarrowPass.Lifts

namespace NarrowBody

variable (b : NarrowBody)

/-- What an instruction gives to a version it defines. -/
def inputTo (v : Vid) (i : NarrowIns) : Option (Option NarrowIn) :=
  match i.target with
  | some (w, d) => if w = v then some d else none
  | none => none

/-- The definitions of a version, of which `none` is a foreign one. -/
def defsOf (v : Vid) : List (Option NarrowIn) := b.instrs.filterMap (inputTo v)

/-- `get_type` of the version, if that is a narrow integral. -/
def declared (v : Vid) : Narrow := (b.varOf v).elim .empty NarrowVar.type

def eligible (v : Vid) : Bool :=
  (b.varOf v).any fun x => !x.param && x.type ≠ .empty

def pass : NarrowPass where
  nodes := b.versions.map fun v => (v, .collect (b.defsOf v))
  nodup := by simpa [Function.comp_def] using b.nodup
  eligible := b.eligible
  zForbidden := b.zForbidden

/-- The types after the first call of `forward`. -/
def first : NarrowState := b.pass.forward [] b.pass.start

/-- `uses`: the instructions that use the version and are not reached by one constant. -/
def uses (v : Vid) : Nat :=
  b.instrs.countP fun i => i.used.any fun s => s.vid = v && s.lone.isNone

/-- The sources of the moves among the definitions of `v`, lone constants apart. -/
def fromOf (v : Vid) : List Vid :=
  (b.pass.node v).ins.flatMap fun d =>
    if d.bitwise then [] else (d.srcs.filter fun s => s.lone.isNone).map NarrowSrc.vid

/-- The versions that `v` is moved into, lone constants apart. -/
def intoOf (v : Vid) : List Vid :=
  b.versions.flatMap fun w => ((b.fromOf w).filter fun s => s = v).map fun _ => w

/-- One round of the loop over the constant-like versions. -/
def settleRange (cvals : Vid → Option NarrowRange) (v : Vid) :
    Option (Vid → Option NarrowRange) :=
  if b.first.bad v || b.first.ty v ≠ .empty || (b.pass.node v).ins.isEmpty ||
      (cvals v).isSome then none
  else match (b.pass.node v).range cvals with
    | some (some r) => some (Function.update cvals v (some r))
    | _ => none

/-- The loop over the constant-like versions. -/
def rangeLoop : (Vid → Option NarrowRange) × List Vid :=
  Settling.run b.settleRange b.pass.users
    ((b.versions.map fun v => (b.pass.users v).length).sum + b.versions.length)
    (fun _ => none) b.versions

/-- `cvals`: the ranges of the constant-like versions. -/
def cvals : Vid → Option NarrowRange := b.rangeLoop.1

/-- The type that the versions `ds` agree on, `t` if there are none. -/
def agreed (ty : Vid → Narrow) : (ds : List Vid) → (t : Narrow) → Option Narrow
  | [], t => some t
  | d :: ds, t =>
    if b.first.bad d || ty d = .empty || (t ≠ .empty && ty d ≠ t) then none
    else agreed ty ds (ty d)

/-- The type that the assignment step gives to a version. -/
def takes (ty : Vid → Narrow) (v : Vid) : Option Narrow :=
  if ty v ≠ .empty then none
  else match b.agreed ty (b.intoOf v) .empty with
    | none => none
    | some t =>
      if t = .empty then none
      else if (b.intoOf v).length < b.uses v && (t ≠ .z || b.zForbidden v) then none
      else if !t.rangeFits ((b.cvals v).getD ⟨0, 0⟩) then none
      else some t

/-- One round of the loop that assigns the constant-like versions. -/
def settleAssign (σ : NarrowAssigned) (v : Vid) : Option NarrowAssigned :=
  (b.takes σ.ty v).map fun t =>
    ⟨Function.update σ.ty v t, (b.intoOf v).foldl (.push v) σ.typedFrom⟩

/-- The constant-like versions that are moved into `v`. -/
def readyFrom (v : Vid) : List Vid := (b.fromOf v).filter fun s => (b.cvals s).isSome

/-- The loop that assigns the constant-like versions. -/
def assignLoop : NarrowAssigned × List Vid :=
  Settling.run b.settleAssign b.readyFrom
    ((b.versions.map fun v => (b.readyFrom v).length).sum + b.versions.length)
    ⟨b.first.ty, []⟩ (b.versions.filter fun v => (b.cvals v).isSome)

/-- The types after the assignment step. -/
def assigned : NarrowAssigned := b.assignLoop.1

/-- Whether the closure makes nothing of the source `s` of a definition of `v`. -/
def exempt (v : Vid) (d : NarrowIn) (s : NarrowSrc) : Bool :=
  b.first.bad s.vid || b.assigned.ty s.vid ≠ .empty || (!d.bitwise && s.lone.isSome) ||
    (b.cvals s.vid).any fun r => b.uses s.vid ≤ 1 && (b.assigned.ty v).rangeFits r

/-- The type that an untyped source keeps, as the definition reads it. -/
def keeps (d : NarrowIn) (s : NarrowSrc) : Narrow :=
  if b.declared s.vid = .empty ∨ d.bitwise ∧ b.declared s.vid ≠ .z then .i
  else b.declared s.vid

/-- The join of what the untyped sources of `v` keep. -/
def floor (v : Vid) : Narrow :=
  Narrow.joinAll ((b.pass.node v).ins.flatMap fun d =>
    (d.srcs.filter fun s => !b.exempt v d s).map (b.keeps d))

/-- Whether the closure raises `v`. -/
def raised (v : Vid) : Bool :=
  !b.first.bad v && b.assigned.ty v ≠ .empty && b.floor v ≠ .empty &&
    b.assigned.ty v ⊔ b.floor v ≠ b.assigned.ty v

/-- What the second call of `forward` starts from. -/
def again : NarrowState where
  ty := b.assigned.ty
  bad := b.first.bad
  floorTy v := if b.raised v then b.floor v else b.first.floorTy v
  work := b.versions.filter b.raised

/-- The state at the end of the pass. -/
def last : NarrowState :=
  if b.again.work = [] then b.again else b.pass.forward b.assigned.typedFrom b.again

/-- Whether the pass types the version. -/
def typed (v : Vid) : Bool := b.last.ty v ≠ .empty && !b.last.bad v

/-- The type of a version after the pass. -/
def typeOf (v : Vid) : Narrow := if b.typed v then b.last.ty v else b.declared v

end NarrowBody

end Dad

end Dexllm
