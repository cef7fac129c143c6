import Dexllm.Dad.DefUse

/-!
`DeadCodeElimination` removes the definitions without uses. `UpdateChain` takes
the uses of a removed instruction out of the chains and removes the definitions
that lose their last use by it.
-/

namespace Dexllm.Dad

variable {α V : Type} [DecidableEq α] [DecidableEq V]

namespace ChainMap

/-- Takes the first `x` out of the list of a key, which may be empty then. -/
def dropLoc (chains : ChainMap V) (key : V × Int) (x : Int) : ChainMap V :=
  Function.update chains key (some (((chains key).getD []).erase x))

def eraseKey (chains : ChainMap V) (key : V × Int) : ChainMap V :=
  Function.update chains key none

def eraseEmpty (chains : ChainMap V) (key : V × Int) : ChainMap V :=
  if chains key = some [] then chains.eraseKey key else chains

end ChainMap

/-- The instruction tables of the graph with the chains. A pointer to an
instruction is the location the instruction has. -/
structure Elim (α V : Type) where
  heap : Int → Option (IRForm V)
  locToIns : List Int
  locIns : α → List Int
  locToNode : List (LocRange α)
  ud : ChainMap V
  du : ChainMap V

namespace Elim

def getInsFromLoc (st : Elim α V) (loc : Int) : Option (IRForm V) :=
  if loc ∈ st.locToIns then st.heap loc else none

def removeIns (st : Elim α V) (loc : Int) : Elim α V :=
  { st with
    locIns := match getNodeFromLoc st.locToNode loc with
      | none => st.locIns
      | some node => Function.update st.locIns node ((st.locIns node).erase loc)
    locToIns := st.locToIns.filter fun key => key ≠ loc }

def removeDefinedVar (st : Elim α V) (loc : Int) : Elim α V :=
  { st with heap := Function.update st.heap loc ((st.heap loc).map IRForm.removeDefinedVar) }

/-- The body of the inner loop of `UpdateChain`, which enters the definitions
without a use left. -/
def dropUse (enter : Int → Elim α V → Option (Elim α V)) (var : V) (loc : Int)
    (st : Elim α V) (defLoc : Int) : Option (Elim α V) :=
  let st := { st with
    du := st.du.dropLoc (var, defLoc) loc
    ud := (st.ud.dropLoc (var, loc) defLoc).eraseEmpty (var, loc) }
  if 0 ≤ defLoc ∧ st.du.locs var defLoc = [] then
    let st := { st with du := st.du.eraseKey (var, defLoc) }
    match st.getInsFromLoc defLoc with
    | none => some st
    | some defIns =>
      if defIns.isCall then some (st.removeDefinedVar defLoc)
      else if defIns.hasSideEffect then some st
      else (enter defLoc st).map fun st => st.removeIns defLoc
  else some st

end Elim

/-- The elements of a `std::set<int>` made from the list. -/
def uniq (locs : List Int) : List Int := locs.dedup.insertionSort (· ≤ ·)

/-- Without a result the recursion has run out of depth. -/
def updateChain : Nat → Int → Elim α V → Option (Elim α V)
  | 0, _, _ => none
  | fuel + 1, loc, st =>
    match st.getInsFromLoc loc with
    | none => some st
    | some ins =>
      ins.usedVars.foldlM (fun st var =>
        (uniq (st.ud.locs var loc)).foldlM (fun st defLoc =>
          st.dropUse (updateChain fuel) var loc defLoc) st) st

/-- The body of the loop of `DeadCodeElimination`. -/
def Elim.visit (fuel : Nat) (st : Elim α V) (i : Int) : Option (Elim α V) :=
  match st.heap i with
  | none => some st
  | some ins =>
    match ins.lhs with
    | none => some st
    | some reg =>
      if (st.du (reg, i)).isSome then some st
      else if ins.isCall then some (st.removeDefinedVar i)
      else if ins.hasSideEffect then some st
      else (updateChain fuel i st).map fun st => st.removeIns i

namespace MethodCode

/-- The entries of `loc_to_ins`. -/
def located (m : MethodCode α V) : List (Int × IRForm V) :=
  m.graph.rpo.flatMap m.getLocWithIns

def insAt (m : MethodCode α V) (loc : Int) : Option (IRForm V) :=
  (m.located.find? fun row => row.1 = loc).map Prod.snd

def elim (m : MethodCode α V) (chains : DefUseChains V) : Elim α V where
  heap := m.insAt
  locToIns := m.located.map Prod.fst
  locIns := fun node => (m.getLocWithIns node).map Prod.fst
  locToNode := m.locToNode
  ud := chains.ud
  du := chains.du

end MethodCode

/-- An instruction is entered once at most, so the recursion is no deeper than
there are instructions. -/
def deadCodeElimination (m : MethodCode α V) (chains : DefUseChains V) :
    Option (Elim α V) :=
  m.graph.rpo.foldlM (fun st node =>
    (st.locIns node).foldlM (Elim.visit (m.located.length + 1)) st) (m.elim chains)

end Dexllm.Dad
