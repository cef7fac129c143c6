import Dexllm.Dad.SplitOperands
import Dexllm.Lib.Components

/-!
`SplitVariables` gives each class of definitions and uses of a register a variable
of its own. A class with definitions of a reference and of a nonzero integer
literal is split once more when no use is reached by both.
-/

namespace Dexllm.Dad.VarSplit

abbrev ChainTable := AList fun _ : Vid × Int => List Int

namespace ChainTable

def locs (t : ChainTable) (var : Vid) (loc : Int) : List Int := (t.lookup (var, loc)).getD []

/-- Moves the value of a key, if there is one, to another key. -/
def rekey (t : ChainTable) (old new : Vid × Int) : ChainTable :=
  match t.lookup old with
  | none => t
  | some val => (t.erase old).insert new val

end ChainTable

/-- The instructions with their chains, and the variables they name. A register of
`lvars` stands for the object of its variable. -/
structure VarCode where
  objs : Nat → VarObj
  nextObj : Nat
  locToIns : Int → Option Ins
  lvars : AList fun _ : Nat => Nat
  du : ChainTable
  ud : ChainTable

/-- The definitions and the uses that go under one name. -/
structure Version where
  defs : List Int
  uses : List Int
  deriving DecidableEq

abbrev VariableGroups := List (Vid × List Version)

section GroupVariables

/-- An id that is no register is none of the table. -/
def inLvars (lvars : AList fun _ : Nat => Nat) : Vid → Bool
  | .reg n => (lvars.lookup n).isSome
  | .named _ => false

/-- The order of the keys: by the variable, then by the text of the location. -/
def keyLe (a b : Vid × Int) : Bool :=
  if a.1.text = b.1.text then decide (toString a.2 ≤ toString b.2)
  else decide (a.1.text < b.1.text)

def chainLinks (du ud : ChainTable) (var : Vid) : Components.Links Int Int where
  uses := du.locs var
  defs := ud.locs var

/-- Enough rounds for every location of the chains to be added by its own. -/
def chainFuel (du ud : ChainTable) : Nat :=
  (du.entries.flatMap Sigma.snd).length + (ud.entries.flatMap Sigma.snd).length + 1

def appendVersion (var : Vid) (version : Version) : VariableGroups → VariableGroups
  | [] => [(var, [version])]
  | (v, versions) :: rest =>
    if v = var then (v, versions ++ [version]) :: rest
    else (v, versions) :: appendVersion var version rest

/-- The loop body of `GroupVariables` over the groups so far. What is treated of a
variable is in the versions it has. -/
def groupKey (lvars : AList fun _ : Nat => Nat) (du ud : ChainTable)
    (groups : VariableGroups) (key : Vid × Int) : Option VariableGroups :=
  if inLvars lvars key.1 = false then some groups
  else if groups.any fun (v, versions) =>
      v = key.1 && versions.any fun version => key.2 ∈ version.defs then some groups
  else ((chainLinks du ud key.1).component (chainFuel du ud) key.2).map fun (defs, uses) =>
    appendVersion key.1 ⟨defs, uses⟩ groups

def groupVariables (lvars : AList fun _ : Nat => Nat) (du ud : ChainTable) :
    Option VariableGroups :=
  (du.keys.insertionSort fun a b => keyLe a b).foldlM (groupKey lvars du ud) []

end GroupVariables

section SplitConflatedVersion

def isRef (t : String) : Bool :=
  match t.toList with
  | c :: _ => c = 'L' || c = '['
  | [] => false

def isPrim (t : String) : Bool :=
  match t.toList with
  | [c] => c ∈ "IJZBSCFD".toList
  | _ => false

/-- The region of a definition: a reference, a nonzero integer literal, the null
constant, or anything else. -/
inductive Region where
  | r
  | p
  | n
  | u
  deriving DecidableEq

def rhsRegion (objs : Nat → VarObj) : Rhs → Region
  | .operand (.constant _ type intValue) =>
    if isRef type then .r else if intValue = 0 then .n else if isPrim type then .p else .u
  | rhs => if isRef (rhs.getType objs) then .r else .u

def regionOf (m : VarCode) (loc : Int) : Region :=
  if loc < 0 then .u
  else
    match (m.locToIns loc).bind Ins.getRhs with
    | none => .u
    | some rhs => rhsRegion m.objs rhs

/-- A use a definition of the region reaches. -/
def reachedBy (m : VarCode) (var : Vid) (defs : List Int) (region : Region) (use : Int) : Bool :=
  (m.ud.locs var use).any fun d => d ∈ defs && regionOf m d = region

/-- Real references and nonzero literals, and nothing that is unclear. -/
def conflated (m : VarCode) (version : Version) : Bool :=
  version.defs.all (fun d => regionOf m d ≠ .u) &&
    version.defs.any (fun d => regionOf m d = .r) && version.defs.any fun d => regionOf m d = .p

/-- The use has the side of the one region that reaches it. -/
def useClear (m : VarCode) (var : Vid) (defs : List Int) (use : Int) : Bool :=
  (m.ud.lookup (var, use)).isSome &&
    (reachedBy m var defs .r use != reachedBy m var defs .p use)

/-- The two parts of a version, or none. The null constants go with the
references. -/
def splitConflatedVersion (m : VarCode) (var : Vid) (version : Version) : List Version :=
  if conflated m version = false then []
  else if version.uses.all (useClear m var version.defs) = false then []
  else
    let isSide (region : Region) (use : Int) := reachedBy m var version.defs region use
    let defsR := version.defs.filter fun d => regionOf m d = .r || regionOf m d = .n
    let defsP := version.defs.filter fun d => !(regionOf m d = .r || regionOf m d = .n)
    [⟨defsR, version.uses.filter (isSide .r)⟩, ⟨defsP, version.uses.filter (isSide .p)⟩]

end SplitConflatedVersion

def objectType : String := "Ljava/lang/Object;"

namespace VarCode

def setType (m : VarCode) (obj : Nat) (type : String) : VarCode :=
  { m with objs := Function.update m.objs obj { m.objs obj with type := type } }

def setIns (m : VarCode) (loc : Int) (ins : Ins) : VarCode :=
  { m with locToIns := Function.update m.locToIns loc (some ins) }

/-- A new object for a variable. -/
def newObj (m : VarCode) (obj : VarObj) : VarCode :=
  { m with objs := Function.update m.objs m.nextObj obj, nextObj := m.nextObj + 1 }

end VarCode

section Expand

/-- The versions of a variable with the conflated ones split. -/
def resplit (m : VarCode) (var : Vid) (versions : List Version) : List Version :=
  versions.flatMap fun version =>
    let parts := splitConflatedVersion m var version
    if parts.isEmpty then [version] else parts

/-- A variable with one version that stays conflated is an `Object`, if it is no
parameter. -/
def typeConflated (m : VarCode) (var : Vid) (versions : List Version) : VarCode :=
  let unsplit := versions.any fun version =>
    conflated m version && (splitConflatedVersion m var version).isEmpty
  if unsplit ∧ (resplit m var versions).length = 1 then
    match var with
    | .named _ => m
    | .reg n =>
      match m.lvars.lookup n with
      | none => m
      | some obj => if (m.objs obj).kind = .variable then m.setType obj objectType else m
  else m

/-- The first loop of `SplitVariables`. -/
def expandVersions (m : VarCode) : VariableGroups → VarCode × VariableGroups
  | [] => (m, [])
  | (var, versions) :: rest =>
    let (m', rest') := expandVersions (typeConflated m var versions) rest
    (m', (var, resplit m var versions) :: rest')

end Expand

section Rename

/-- The type of a definition is believed if it is no stale variable's. -/
def trustedType (m : VarCode) (ins : Ins) (defType : String) : String :=
  match ins.getRhs with
  | none => defType
  | some rhs =>
    let t := rhs.getType m.objs
    let trust := t ≠ "" ∧ (rhs.isIdent = false ∨ isRef t ∨ rhs.invokeResult m.objs)
    if trust ∧ (defType = "" ∨ (isRef t ∧ isRef defType = false)) then t else defType

/-- Renames the variable a location defines. -/
def renameDef (var : Vid) (obj : Nat) (st : VarCode × String) (loc : Int) :
    Option (VarCode × String) :=
  let (m, defType) := st
  if loc < 0 then some (m, defType)
  else
    match m.locToIns loc with
    | none => some (m, defType)
    | some ins =>
      (ins.replaceLhs (m.objs obj).vid obj).map fun ins =>
        let m := m.setIns loc ins
        let du := m.du.rekey (var, loc) ((m.objs obj).vid, loc)
        ({ m with du := du }, trustedType m ins defType)

/-- Renames the variable a location reads. -/
def renameUse (var : Vid) (obj : Nat) (m : VarCode) (loc : Int) : Option VarCode :=
  match m.locToIns loc with
  | none => some m
  | some ins =>
    (ins.replaceVar var (m.objs obj).vid obj).map fun ins =>
      let m := m.setIns loc ins
      { m with ud := m.ud.rekey (var, loc) ((m.objs obj).vid, loc) }

/-- The variable of a version: the parameter for the version that holds its
incoming value, and otherwise the next register number. -/
def newVersion (m : VarCode) (nbVars : Nat) (n : Nat) (orig : VarObj) (version : Version) :
    VarCode × Nat :=
  if version.defs.any (· < 0) then
    let kind := if orig.kind = .thisParam then .thisParam else .param
    let m' := m.newObj { vid := .reg n, kind := kind, type := orig.type }
    ({ m' with lvars := m'.lvars.insert n m.nextObj }, nbVars)
  else
    let m' := m.newObj { vid := .reg nbVars, type := orig.type }
    ({ m' with lvars := m'.lvars.insert nbVars m.nextObj }, nbVars + 1)

/-- The type of a version that is no parameter is that of its definitions. -/
def typeVersion (m : VarCode) (obj : Nat) (version : Version) (defType : String) : VarCode :=
  if version.defs.any (· < 0) = false ∧ defType ≠ "" then
    m.setType obj (if conflated m version then objectType else defType)
  else m

def renameVersion (n : Nat) (orig : VarObj) (st : VarCode × Nat) (version : Version) :
    Option (VarCode × Nat) := do
  let (m, nbVars) := st
  let obj := m.nextObj
  let (m, nbVars) := newVersion m nbVars n orig version
  let (m, defType) ← version.defs.foldlM (renameDef (.reg n) obj) (m, "")
  let m := typeVersion m obj version defType
  let m ← version.uses.foldlM (renameUse (.reg n) obj) m
  return (m, nbVars)

/-- The body of the second loop of `SplitVariables`. -/
def renameVariable (st : VarCode × Nat) (entry : Vid × List Version) : Option (VarCode × Nat) :=
  let (m, nbVars) := st
  match entry.1 with
  | .named _ => some (m, nbVars)
  | .reg n =>
    if entry.2.length = 1 then some (m, nbVars)
    else
      match m.lvars.lookup n with
      | none => some (m, nbVars)
      | some obj =>
        entry.2.foldlM (renameVersion n (m.objs obj))
          ({ m with lvars := m.lvars.erase n }, nbVars)

end Rename

/-- The number of the first register after those of the table. -/
def firstFree (lvars : AList fun _ : Nat => Nat) : Nat :=
  lvars.keys.foldl (fun nb k => max nb (k + 1)) 0

/-- Without a result a replacement has thrown. -/
def splitVariables (m : VarCode) : Option VarCode := do
  let groups ← groupVariables m.lvars m.du m.ud
  let (m', groups) := expandVersions m groups
  let (m', _) ← groups.foldlM renameVariable (m', firstFree m.lvars)
  return m'

end Dexllm.Dad.VarSplit
