import Dexllm.Lib.Spread
import Dexllm.Dad.GroundTypes

/-!
The move rule of the float and double re-types: the versions that hold a float are
candidates; a move out of one adopts its destination where that can be a float too,
and then candidates are dropped until both sides of every move have one width.
-/

namespace Dexllm

namespace Dad

inductive FloatWidth where
  | f | d
deriving DecidableEq

/-- The width a type has, if it is one of the two. -/
def FloatWidth.ofType (type : Text) : Option FloatWidth :=
  if type = ascii "F" then some .f else if type = ascii "D" then some .d else none

def FloatWidth.type : FloatWidth → Text
  | f => ascii "F"
  | d => ascii "D"

inductive MoveKind where
  | unknown | plain | wide | object
deriving DecidableEq

/-- The right-hand side of a definition: a version, a constant, a comparison
(`BinaryCompExpression`), or another with the type of its result. -/
inductive FloatRhs where
  | ident (vid : Vid) (type : Text)
  | const (type : Text) (value : Int)
  | comp
  | other (type : Text)

/-- A definition: its right-hand side, if it has one, and its kind if it is a move. -/
structure FloatDef where
  rhs : Option FloatRhs
  move : Option MoveKind

inductive VarKind where
  | local | param | this
deriving DecidableEq

/-- The definitions of a version that has some, with its Variable. -/
def definedIn {α : Type} (defsOf : List (Vid × List α)) (var : Vid → Option (VarKind × Text))
    (vid : Vid) : Option (List α × (VarKind × Text)) :=
  match defsOf.lookup vid with
  | none | some [] => none
  | some (d :: ds) => (var vid).map fun v => (d :: ds, v)

/-- A definition by the constant zero. -/
def FloatDef.isZero (d : FloatDef) : Bool :=
  match d.rhs with
  | some (.const type value) => !isRef type && value = 0
  | _ => false

/-- A definition that is a `move-object`, or no move. -/
def FloatDef.isRefArm (d : FloatDef) : Bool := d.move.all (· = .object)

/-- What the pass knows of a method before its adopt and drop loops. -/
structure FloatPass where
  defsOf : List (Vid × List FloatDef)
  nodup : (defsOf.map Prod.fst).Nodup
  /-- The Variable of a version, with its type. -/
  var : Vid → Option (VarKind × Text)
  declaredParams : List (Vid × Text)
  fpUse : Vid → Option FloatWidth
  fpConflict : Vid → Bool
  nonfpUse : Vid → Bool
  nonfpPrim : Vid → Bool
  objectVids : Vid → Bool
  /-- The moves, as (destination, source). -/
  fpMoves : List (Vid × Vid)
  /-- The float operations, as (operand, result). -/
  fpArith : List (Vid × Vid)
  /-- The versions the array branch has re-typed. -/
  arrayTyped : Vid → Bool
  /-- The re-types of the other branches. -/
  retypes : List (Vid × Text)

/-- `fp_retypes`. -/
abbrev Candidates := List (Vid × FloatWidth)

def Candidates.width (c : Candidates) (vid : Vid) : Option FloatWidth := c.lookup vid

/-- `is_narrow_int`. -/
def isNarrowInt (type : Text) : Bool := type.length = 1 && type.all fun c => c ∈ ascii "ZBSCI"

/-- The loop over the definitions of one version, each from the budget the ones before
have left. -/
def allFpValued (valued : FloatRhs → Bool → Nat → Bool × Bool × Nat) :
    List FloatDef → Bool → Nat → Bool × Bool × Nat
  | [], ground, budget => (true, ground, budget)
  | d :: ds, ground, budget =>
    match d.rhs with
    | none => (false, ground, budget)
    | some r =>
      match valued r ground budget with
      | (true, ground, budget) => allFpValued valued ds ground budget
      | (false, ground, budget) => (false, ground, budget)

namespace FloatPass

variable (p : FloatPass)

/-- `is_fp_valued`, for `fuel` calls inside each other: the verdict, whether a producer was
reached, and the budget left. -/
def isFpValued (w : FloatWidth) : (fuel : Nat) → List Vid → FloatRhs → Bool → Nat →
    Bool × Bool × Nat
  | 0, _, _, ground, budget => (false, ground, budget)
  | fuel + 1, seen, rhs, ground, budget =>
    if budget = 0 then (false, ground, budget)
    else
      let budget := budget - 1
      match rhs with
      | .ident sid type =>
        if sid ∈ seen then (true, ground, budget)
        else match p.defsOf.lookup sid with
          | none =>
            if (p.declaredParams.lookup sid).getD type = w.type then (true, true, budget)
            else (false, ground, budget)
          | some ds => allFpValued (isFpValued w fuel (sid :: seen)) ds ground budget
      | .const type _ =>
        if match w with
            | .f => isNarrowInt type && type ≠ ascii "Z"
            | .d => type = ascii "J" then (true, true, budget)
        else (false, ground, budget)
      | .comp => (false, ground, budget)
      | .other type =>
        if type = w.type then (true, true, budget) else (false, ground, budget)

/-- `all_defs_fp_valued`. -/
def allDefsFpValued (vid : Vid) (ds : List FloatDef) (w : FloatWidth) (budget : Nat) :
    Bool × Nat :=
  let (ok, ground, budget) := allFpValued (p.isFpValued w budget [vid]) ds false budget
  (ok && ground, budget)

/-- `fp_retypable`, with the budget it leaves. -/
def fpRetypable (vid : Vid) (var : VarKind × Text) (ds : List FloatDef) (w : FloatWidth)
    (budget : Nat) : Bool × Nat :=
  if var.2 = w.type || (!isPrimDesc var.2 && !isRef var.2) then (false, budget)
  else if p.nonfpUse vid || p.fpConflict vid || p.objectVids vid then (false, budget)
  else if (p.fpUse vid).any (· ≠ w) then (false, budget)
  else if var.1 = .this then (false, budget)
  else if var.1 = .param ∧ p.declaredParams.lookup vid ≠ some w.type then (false, budget)
  else p.allDefsFpValued vid ds w budget

/-- `dsts_of`. -/
def dstsOf (src : Vid) : List Vid := (p.fpMoves.filter fun e => e.2 = src).map Prod.fst

/-- `srcs_into`. -/
def srcsInto (dst : Vid) : List Vid := (p.fpMoves.filter fun e => e.1 = dst).map Prod.snd

/-- `ops_of`. -/
def opsOf (res : Vid) : List Vid := (p.fpArith.filter fun e => e.2 = res).map Prod.fst

/-- The versions that a constant zero defines, each once. -/
def zeroDefined : List Vid :=
  ((p.defsOf.filter fun e => e.2.any FloatDef.isZero).map Prod.fst).dedup

/-- `can_be_zero`: the versions that moves carry a zero to. -/
def canBeZero : List Vid :=
  Spread.spread false p.dstsOf (p.zeroDefined.length + p.fpMoves.length) p.zeroDefined
    p.zeroDefined

abbrev defined (vid : Vid) : Option (List FloatDef × (VarKind × Text)) :=
  definedIn p.defsOf p.var vid

/-- `type_of`: the type a version will have by the re-types of `retypes`, the last one
for its Variable, or else by its Variable. -/
def typeOfIn (retypes : List (Vid × Text)) (vid : Vid) : Text :=
  if (p.defsOf.lookup vid).getD [] = [] then (p.declaredParams.lookup vid).getD []
  else
    match p.var vid with
    | none => []
    | some var => (retypes.reverse.lookup vid).getD var.2

def typeOf (vid : Vid) : Text := p.typeOfIn p.retypes vid

/-- `keeps`: the source, of width `w`, stays a float although the destination does not
become one. -/
def keeps (c : Candidates) (w : FloatWidth) (src dst : Vid) : Bool :=
  match c.width dst with
  | some wd => wd = w
  | none =>
    if p.typeOf dst = w.type then true
    else if p.nonfpPrim dst || !p.nonfpUse dst || src ∈ p.canBeZero then false
    else ((p.defsOf.lookup dst).getD []).any FloatDef.isRefArm

/-- `width_of`. -/
def widthOf (c : Candidates) (vid : Vid) : Option FloatWidth :=
  (c.width vid).or (FloatWidth.ofType (p.typeOf vid))

end FloatPass

/-- An edge that is checked: a move or an operation. -/
inductive FloatEdge where
  | move (src dst : Vid)
  | arith (op res : Vid)

/-- The candidates, the versions still to be looked at with their widths, and the budget of
`is_fp_valued`. -/
structure FeedState where
  cands : Candidates
  work : List (Vid × FloatWidth)
  budget : Nat

/-- The candidates, the queue of the adopt loop and the budget. -/
structure AdoptState where
  cands : Candidates
  queue : List Vid
  budget : Nat

namespace FloatPass

variable (p : FloatPass)

/-- The float branch for one version: it is a candidate, and a seed. -/
def seed (st : FeedState) (e : Vid × List FloatDef) : FeedState :=
  match p.defined e.1 with
  | none => st
  | some (ds, var) =>
    if p.arrayTyped e.1 || (!isRef var.2 && !isPrimDesc var.2) then st
    else match p.fpUse e.1 with
      | none => st
      | some w =>
        let (ok, budget) := p.fpRetypable e.1 var ds w st.budget
        let st := if ok then ⟨st.cands ++ [(e.1, w)], st.work ++ [(e.1, w)], budget⟩
          else { st with budget := budget }
        if var.2 = w.type && !p.nonfpUse e.1 && !p.fpConflict e.1 then
          { st with work := st.work ++ [(e.1, w)] }
        else st

def seeds : FeedState := p.defsOf.foldl p.seed ⟨[], [], 2000000⟩

/-- A source of a version of width `w`, in the backwards propagation. -/
def feedFrom (w : FloatWidth) (fed : List Vid × FeedState) (d : FloatDef) :
    List Vid × FeedState :=
  match d.rhs with
  | some (.ident sid _) =>
    if sid = [] || sid ∈ fed.1 then fed
    else match p.defined sid with
      | none => fed
      | some (ds, var) =>
        let (ok, budget) := p.fpRetypable sid var ds w fed.2.budget
        if ok then (sid :: fed.1, ⟨(fed.2.cands.filter fun e => e.1 ≠ sid) ++ [(sid, w)],
          fed.2.work ++ [(sid, w)], budget⟩)
        else (fed.1, { fed.2 with budget := budget })
  | _ => fed

/-- The backwards propagation, for at most `fuel` rounds. -/
def feedFor : (fuel : Nat) → List Vid → FeedState → FeedState
  | 0, _, st => st
  | fuel + 1, fed, st =>
    match st.work.getLast? with
    | none => st
    | some (vid, w) =>
      let (fed, st) := ((p.defsOf.lookup vid).getD []).foldl (p.feedFrom w)
        (fed, { st with work := st.work.dropLast })
      feedFor fuel fed st

/-- The candidates before the adopt loop. Every version is fed at most once. -/
def fed : FeedState :=
  p.feedFor (p.seeds.work.length + p.defsOf.length) (p.seeds.work.map Prod.fst) p.seeds

/-- A destination of a candidate of width `w`, in the adopt loop. -/
def adopt (w : FloatWidth) (st : AdoptState) (dst : Vid) : AdoptState :=
  if (st.cands.width dst).isSome || p.typeOf dst = w.type then st
  else match p.defined dst with
    | none => st
    | some (ds, var) =>
      let (ok, budget) := p.fpRetypable dst var ds w st.budget
      if ok then ⟨st.cands ++ [(dst, w)], st.queue ++ [dst], budget⟩
      else { st with budget := budget }

/-- A round of the adopt loop for the version `src`, whose destinations come as `dsts`. -/
def adoptAll (st : AdoptState) (src : Vid) (dsts : List Vid) : AdoptState :=
  match st.cands.width src with
  | none => st
  | some w => dsts.foldl (p.adopt w) st

/-- The adopt loop, for at most `fuel` rounds. -/
def adoptFor : (fuel : Nat) → AdoptState → AdoptState
  | 0, st => st
  | fuel + 1, st =>
    match st.queue.getLast? with
    | none => st
    | some src =>
      adoptFor fuel (p.adoptAll { st with queue := st.queue.dropLast } src (p.dstsOf src))

/-- The candidates after the adopt loop, whose queue starts with all candidates. -/
def adopted (queue : List Vid) : Candidates :=
  (p.adoptFor (queue.length + p.defsOf.length) ⟨p.fed.cands, queue, p.fed.budget⟩).cands

end FloatPass

/-- The candidates and the versions that were dropped and not looked at since. -/
structure DropState where
  cands : Candidates
  dropped : List Vid

/-- `drop`. -/
def DropState.drop (st : DropState) (vid : Vid) : DropState :=
  if (st.cands.width vid).isSome then
    ⟨st.cands.filter fun e => e.1 ≠ vid, st.dropped ++ [vid]⟩
  else st

namespace FloatPass

variable (p : FloatPass)

/-- `check`, of one move. -/
def check (st : DropState) (src dst : Vid) : DropState :=
  match p.widthOf st.cands src, p.widthOf st.cands dst with
  | none, none => st
  | some ws, none =>
    if (st.cands.width src).isSome && !p.keeps st.cands ws src dst then st.drop src else st
  | none, some _ => st.drop dst
  | some ws, some wd => if ws = wd then st else (st.drop src).drop dst

/-- `check_arith`, of one operation. -/
def checkArith (st : DropState) (op res : Vid) : DropState :=
  if (p.widthOf st.cands op).isSome && (p.widthOf st.cands res).isNone then st.drop op else st

def checkEdge (st : DropState) : FloatEdge → DropState
  | .move src dst => p.check st src dst
  | .arith op res => p.checkArith st op res

/-- All edges, in the order of the first sweep. -/
def edges : List FloatEdge :=
  p.fpMoves.map (fun e => .move e.2 e.1) ++ p.fpArith.map fun e => .arith e.1 e.2

/-- The edges that are checked again when `x` was dropped. -/
def edgesAt (x : Vid) : List FloatEdge :=
  (p.srcsInto x).map (.move · x) ++ (p.dstsOf x).map (.move x ·) ++ (p.opsOf x).map (.arith · x)

/-- The drop loop, for at most `fuel` rounds. -/
def dropFor : (fuel : Nat) → DropState → DropState
  | 0, st => st
  | fuel + 1, st =>
    match st.dropped.getLast? with
    | none => st
    | some x => dropFor fuel ((p.edgesAt x).foldl p.checkEdge ⟨st.cands, st.dropped.dropLast⟩)

/-- The candidates that survive the drop loop. A round drops a candidate of its own. -/
def survivors (c : Candidates) : Candidates :=
  (p.dropFor c.length (p.edges.foldl p.checkEdge ⟨c, []⟩)).cands

/-- The final re-type list: the surviving candidates replace what the other branches
decided for the same Variable. -/
def finalRetypes (c : Candidates) : List (Vid × Text) :=
  (p.retypes.filter fun r => (c.width r.1).isNone) ++ c.map fun e => (e.1, e.2.type)

end FloatPass

theorem definedIn_eq_some {α : Type} {defsOf : List (Vid × List α)}
    {var : Vid → Option (VarKind × Text)} {vid : Vid} {ds : List α} {v : VarKind × Text} :
    definedIn defsOf var vid = some (ds, v) ↔
      defsOf.lookup vid = some ds ∧ ds ≠ [] ∧ var vid = some v := by
  unfold definedIn
  cases defsOf.lookup vid with
  | none => simp
  | some ds' =>
    cases ds' with
    | nil =>
      simp only [Option.some.injEq, reduceCtorEq, false_iff, not_and]
      rintro rfl hne
      exact absurd rfl hne
    | cons d ds' =>
      simp only [Option.map_eq_some_iff, Prod.mk.injEq, Option.some.injEq]
      constructor
      · rintro ⟨v', hvar, rfl, rfl⟩
        exact ⟨rfl, by simp, hvar⟩
      · rintro ⟨rfl, -, hvar⟩
        exact ⟨v, hvar, rfl, rfl⟩

end Dad

end Dexllm
