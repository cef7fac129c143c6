import Dexllm.Dad.PlaceDeclarations
import Dexllm.Lib.GenKill

/-!
The def-use chains: `number_ins` gives every instruction a location,
`BasicReachDef` finds the definitions that reach each block, and `BuildDefUse`
links the uses of a variable to the definitions they may read.
-/

namespace Dexllm.Dad

/-- What the passes over the chains read of an instruction. The ids of variables
are compared only; `get_used_vars` drops duplicates, and `remove_defined_var`
resets the left-hand side of an assignment alone. -/
structure IRForm (V : Type) where
  lhs : Option V
  usedVars : List V
  distinct : usedVars.Nodup
  isCall : Bool := false
  hasSideEffect : Bool := false
  isAssign : Bool := true

def IRForm.removeDefinedVar {V : Type} (ins : IRForm V) : IRForm V :=
  if ins.isAssign then { ins with lhs := none } else ins

/-- A graph with the instruction list of each of its nodes. -/
structure MethodCode (α V : Type) where
  graph : Graph α
  ins : α → List (IRForm V)

variable {α V : Type} [DecidableEq α] [DecidableEq V]

/-- The locations of the nodes from `num` on. A node without instructions gets an
empty range. -/
def numberIns (ins : α → List (IRForm V)) : Int → List α → List (LocRange α)
  | _, [] => []
  | num, node :: nodes =>
    let lastInsNum := num + (ins node).length
    ⟨num, lastInsNum - 1, node⟩ :: numberIns ins lastInsNum nodes

namespace MethodCode

def locToNode (m : MethodCode α V) : List (LocRange α) := numberIns m.ins 0 m.graph.rpo

def getLocWithIns (m : MethodCode α V) (node : α) : List (Int × IRForm V) :=
  match m.locToNode.find? fun r => r.node = node with
  | none => []
  | some r => (m.ins node).zipIdx.map fun (ins, k) => (r.start + k, ins)

/-- The graph of the analysis: a dummy entry before the entry and, where the
method has one exit, a dummy exit after it. The dummies are new nodes. -/
def reachDefGraph (m : MethodCode α V) (dummyEntry dummyExit : α) : Graph α :=
  let g := m.graph.addNode dummyEntry
  let g := match m.graph.entry with
    | none => g
    | some entry => g.addEdge dummyEntry entry
  let g := { g with entry := some dummyEntry }
  match m.graph.exit with
  | none => g
  | some exit =>
    let g := (g.addNode dummyExit).addEdge exit dummyExit
    { g with rpo := g.rpo ++ [dummyExit] }

end MethodCode

/-- What `BasicReachDef` is made from. Its sets of locations are lists in
ascending order. -/
structure BasicReachDef (α V : Type) where
  g : Graph α
  locWithIns : α → List (Int × IRForm V)
  params : List V

def defsIn (reg : V) (block : List (Int × IRForm V)) : List Int :=
  block.filterMap fun (i, ins) => if ins.lhs = some reg then some i else none

/-- The locations `-1`, `-2`, … of the parameters. -/
def paramLocs (params : List V) : List Int :=
  (params.zipIdx.map fun (_, i) => -((i : Int) + 1)).reverse

def paramDefs (reg : V) (params : List V) : List Int :=
  (params.zipIdx.filterMap fun (param, i) =>
    if param = reg then some (-((i : Int) + 1)) else none).reverse

namespace BasicReachDef

def defs (b : BasicReachDef α V) (node : α) (reg : V) : List Int :=
  (if b.g.entry = some node then paramDefs reg b.params else []) ++
    (if node ∈ b.g.rpo then defsIn reg (b.locWithIns node) else [])

/-- The keys of `defs[node]`. -/
def defined (b : BasicReachDef α V) (node : α) : List V :=
  (if b.g.entry = some node then b.params else []) ++
    (if node ∈ b.g.rpo then (b.locWithIns node).filterMap fun (_, ins) => ins.lhs else [])

def defToLoc (b : BasicReachDef α V) (reg : V) : List Int :=
  paramDefs reg b.params ++ b.g.rpo.flatMap fun node => defsIn reg (b.locWithIns node)

/-- The last definition of each register of the block. -/
def DB (b : BasicReachDef α V) (node : α) : Finset Int :=
  if node ∈ b.g.rpo then
    ((b.defined node).flatMap fun reg =>
      (b.defs node reg).filter fun loc => ∀ other ∈ b.defs node reg, other ≤ loc).toFinset
  else ∅

def killedLocs (b : BasicReachDef α V) (node : α) : Finset Int :=
  ((b.defined node).flatMap b.defToLoc).toFinset

def startA (b : BasicReachDef α V) (node : α) : Finset Int :=
  if b.g.entry = some node then (paramLocs b.params).toFinset else ∅

/-- The iteration of `run`. A node outside `rpo` is not visited and keeps the set
it starts with. -/
def problem (b : BasicReachDef α V) : GenKill.Problem α Int where
  preds := b.g.allPreds
  sucs := b.g.allSucs
  mirrored := fun _ _ => Graph.mem_allPreds.symm
  gen := fun node => if node ∈ b.g.rpo then b.DB node else b.startA node
  kill := b.killedLocs

/-- The sets `R` and `A` of all nodes. Without a result the rounds have run out. -/
def run (b : BasicReachDef α V) (fuel : Nat) : Option (GenKill.Sets α Int) :=
  b.problem.run fuel b.g.rpo { before := fun _ => ∅, after := b.startA }

end BasicReachDef

/-- The chains, keyed by a variable and a location. -/
abbrev ChainMap (V : Type) := V × Int → Option (List Int)

def ChainMap.locs (chains : ChainMap V) (var : V) (loc : Int) : List Int :=
  (chains (var, loc)).getD []

structure DefUseChains (V : Type) where
  ud : ChainMap V
  du : ChainMap V

/-- The last definition before `i`, or `-1`. -/
def priorDef (ldefs : List Int) (i : Int) : Int :=
  ldefs.foldl (fun prior v => if prior < v ∧ v < i then v else prior) (-1)

namespace BasicReachDef

/-- What the use of a variable at a location of a node reads from. -/
def useDefs (b : BasicReachDef α V) (R : α → Finset Int) (node : α) (i : Int) (var : V) :
    Option (List Int) :=
  if b.defToLoc var = [] then none
  else
    let prior := priorDef (b.defs node var) i
    if 0 ≤ prior then some [prior]
    else some ((b.defToLoc var).filter fun v => v ∈ R node)

/-- The entries of `ud`, in program order. -/
def udRows (b : BasicReachDef α V) (R : α → Finset Int) (rpo : List α) :
    List ((V × Int) × List Int) :=
  rpo.flatMap fun node =>
    (b.locWithIns node).flatMap fun (i, ins) =>
      ins.usedVars.filterMap fun var =>
        (b.useDefs R node i var).map fun locs => ((var, i), locs)

end BasicReachDef

def collect (l : List Int) : Option (List Int) := if l = [] then none else some l

/-- The maps the entries of `ud` fill. The order of the unordered map is that of
the lists in `du` only, which are asked for a location and for being empty. -/
def chainsOf (rows : List ((V × Int) × List Int)) : DefUseChains V where
  ud := fun key =>
    if rows.any fun row => row.1 = key then
      some ((rows.filter fun row => row.1 = key).flatMap fun row => row.2)
    else none
  du := fun key => collect <|
    rows.flatMap fun row =>
      if row.1.1 = key.1 then (row.2.filter (· = key.2)).map fun _ => row.1.2 else []

/-- The analysis of a method with the dummy nodes `ReachDefResult` adds. -/
def MethodCode.reachDef (m : MethodCode α V) (dummyEntry dummyExit : α) (params : List V) :
    BasicReachDef α V where
  g := m.reachDefGraph dummyEntry dummyExit
  locWithIns := m.getLocWithIns
  params := params

def buildDefUse (fuel : Nat) (m : MethodCode α V) (dummyEntry dummyExit : α)
    (lparams : List V) : Option (DefUseChains V) :=
  let b := m.reachDef dummyEntry dummyExit lparams
  (b.run fuel).map fun sets => chainsOf (b.udRows sets.before m.graph.rpo)

end Dexllm.Dad
