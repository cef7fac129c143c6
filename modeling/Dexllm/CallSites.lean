import Dexllm.Core.MethodCodes
import Dexllm.Flow.InvokeArgs
import Dexllm.MethodLookup

/-!
The three call-graph queries: the calls a method makes, the calls to an API, and
the latter with the origins of their arguments. The first walks one body; the
others start from the caller index the core keeps for every dex.
-/

namespace Dexllm

open Guarded Bytes

/-- `ParseApiDescriptor`: the class, the name and the proto. -/
def parseApiDescriptor (api : List UInt8) : Option (List UInt8 × List UInt8 × List UInt8) :=
  match splitArrow api with
  | none => none
  | some (cls, rest) =>
    match splitParen rest with
    | none => none
    | some (name, proto) =>
      if cls ≠ [] ∧ name ≠ [] ∧ proto ≠ [] then some (cls, name, proto) else none

namespace DexItem

variable (item : DexItem)

/-- `class_methods` of the resolve index: the methods of a class, ascending. -/
def classMethods (classIdx : Nat) : Run (List Nat) :=
  loop item.reader.header.methodIdsSize [] fun i methods => do
    let m ← item.reader.methodId i
    pure (if m.classIdx = classIdx then methods ++ [i] else methods)

/-- The loop of `FindMethodIdxIndexed`. -/
def findNamed (name proto : List UInt8) : List Nat → Run (Option Nat)
  | [] => pure none
  | mi :: methods => do
    let m ← item.reader.methodId mi
    let methodName ← vectorAt item.strings m.nameIdx
    if methodName ≠ name then findNamed name proto methods
    else do
      let pr ← item.reader.protoId m.protoIdx
      let methodProto ← item.buildProtoDescriptor pr
      if methodProto ≠ proto then findNamed name proto methods else pure (some mi)

/-- `FindTypeIdxIndexed`, which keeps the first type of a name, and
`FindMethodIdxIndexed` on its methods. -/
def resolveApi (cls name proto : List UInt8) : Run (Option Nat) :=
  match item.typeNames.findIdx? (· == cls) with
  | none => pure none
  | some typeIdx => do
    let methods ← item.classMethods typeIdx
    item.findNamed name proto methods

end DexItem

/-- `CallSite`. -/
structure CallSite where
  callerDexId : Nat
  callerMethodIdx : Nat
  callerDescriptor : List UInt8
  calleeDescriptor : List UInt8
  bytecodeOffset : Int
  invokeOpcode : Nat
  shadowed : Bool := false
  deriving DecidableEq, Repr

/-- `ResolvedCallSite`, with the arguments as the analysis reports them. -/
structure ResolvedCallSite extends CallSite where
  args : List InvokeArg
  deriving DecidableEq, Repr

/-- `CallerRef`: the dex a caller lives in, its method there, and the target's
method there. -/
structure CallerRef where
  dexId : Nat
  callerIdx : Nat
  localTarget : Nat
  deriving DecidableEq, Repr

/-- The order of `(origin_dex, caller_idx)`. -/
def pairLe (a b : Nat × Nat) : Bool := a.1 < b.1 || (a.1 == b.1 && a.2 ≤ b.2)

/-- `method_caller_ids` of every dex: for each of its methods, the callers with
the dexes they live in. -/
abbrev CallerIds := Nat → List (List (Nat × Nat))

/-- `method_codes` of every dex. -/
abbrev MethodCodes := Nat → List (Option Nat)

namespace DexKit

variable (kit : DexKit) (codes : MethodCodes) (callers : CallerIds)

/-- `IsShadowedMethod`. -/
def isShadowedMethod (dexId : Nat) (item : DexItem) (methodIdx : Nat) : Run Bool :=
  if item.reader.header.methodIdsSize ≤ methodIdx then pure false
  else do
    let m ← item.reader.methodId methodIdx
    match item.typeNames[m.classIdx]? with
    | none => pure false
    | some cls =>
      match kit.getClassDeclaredPair cls with
      | none => pure false
      | some (owner, _) => pure (owner ≠ dexId)

/-- The callers `CollectApiCallers` walks for a target of dex `i`: each once, in
order. -/
def sortedCallers (i target : Nat) : List (Nat × Nat) :=
  ((callers i).getD target []).dedup.insertionSort fun a b => pairLe a b = true

/-- One caller, walked in the dex it lives in. -/
def callerRef (cls name proto : List UInt8) (i target : Nat) (caller : Nat × Nat) :
    Run (Option CallerRef) :=
  if caller.1 = i then pure (some ⟨i, caller.2, target⟩)
  else
    match kit.dexItems[caller.1]? with
    | none => pure none
    | some origin => do
      let found ← origin.resolveApi cls name proto
      pure (found.map fun target => ⟨caller.1, caller.2, target⟩)

/-- The callers that the index of dex `i` lists. -/
def callersIn (cls name proto : List UInt8) (i : Nat) : Run (List CallerRef) := do
  let item ← vectorAt kit.dexItems i
  let target ← item.resolveApi cls name proto
  match target with
  | none => pure []
  | some target => do
    let refs ← (sortedCallers callers i target).mapM (kit.callerRef cls name proto i target)
    pure (refs.filterMap id)

/-- `CollectApiCallers`. -/
def collectApiCallers (cls name proto : List UInt8) : Run (List CallerRef) := do
  let refs ← (List.range kit.dexItems.length).mapM (kit.callersIn callers cls name proto)
  pure (refs.flatten.insertionSort fun a b =>
    pairLe (a.dexId, a.callerIdx) (b.dexId, b.callerIdx) = true)

/-- The sites of a body, none without code. -/
def sitesOf {σ : Type} (walk : CodeItem → List σ) (item : DexItem) (dexId methodIdx : Nat) :
    List σ :=
  match item.getMethodCode (codes dexId) methodIdx with
  | none => []
  | some code => walk code

/-- The rows of one caller, each with the site it is about. -/
def rowsOf {σ : Type} (walk : CodeItem → List σ) (site : σ → InvokeSite) (api : List UInt8)
    (ref : CallerRef) : Run (List (CallSite × σ)) := do
  let item ← vectorAt kit.dexItems ref.dexId
  let callerDesc ← item.buildMethodDescriptor ref.callerIdx
  let shadowed ← kit.isShadowedMethod ref.dexId item ref.callerIdx
  pure (((sitesOf codes walk item ref.dexId ref.callerIdx).filter fun s =>
      (site s).methodIdx = ref.localTarget).map fun s =>
    (⟨ref.dexId, ref.callerIdx, callerDesc, api, Verifier.toS4 (site s).bytecodeOffset,
      (site s).opcode, shadowed⟩, s))

/-- The loop `FindCallSitesToApi` and `ResolveCallArgs` share. -/
def callRows {σ : Type} (walk : CodeItem → List σ) (site : σ → InvokeSite) (api : List UInt8) :
    Run (List (CallSite × σ)) :=
  match parseApiDescriptor api with
  | none => pure []
  | some (cls, name, proto) => do
    let refs ← kit.collectApiCallers callers cls name proto
    let rows ← refs.mapM (kit.rowsOf codes walk site api)
    pure rows.flatten

/-- `FindCallSitesToApi`. -/
def findCallSitesToApi (api : List UInt8) : Run (List CallSite) := do
  let rows ← kit.callRows codes callers CodeItem.enumerateInvokeSites id api
  pure (rows.map (·.1))

/-- `ResolveCallArgs`. -/
def resolveCallArgs (api : List UInt8) (depth : Nat) : Run (List ResolvedCallSite) := do
  let rows ← kit.callRows codes callers (·.analyzeInvokes depth)
    InvokeSiteWithArgs.toInvokeSite api
  pure (rows.map fun row => { row.1 with args := row.2.args })

/-- The dex and the method `FindCallSitesFromMethod` resolves a descriptor to:
in the dex that declares the class. -/
def resolveMethod (descriptor : List UInt8) : Run (Option (Nat × Nat)) :=
  match parseApiDescriptor descriptor with
  | none => pure none
  | some (cls, name, proto) =>
    match kit.getClassDeclaredPair cls with
    | none => pure none
    | some (dexId, _) => do
      let item ← vectorAt kit.dexItems dexId
      let found ← item.resolveApi cls name proto
      pure (found.map fun m => (dexId, m))

/-- `FindCallSitesFromMethod`. -/
def findCallSitesFromMethod (descriptor : List UInt8) : Run (List CallSite) := do
  let found ← kit.resolveMethod descriptor
  match found with
  | none => pure []
  | some (dexId, m) => do
    let item ← vectorAt kit.dexItems dexId
    let callerDesc ← item.buildMethodDescriptor m
    (sitesOf codes (·.analyzeInvokes 0) item dexId m).mapM fun s => do
      let callee ← item.buildMethodDescriptor s.methodIdx
      pure { callerDexId := dexId, callerMethodIdx := m, callerDescriptor := callerDesc
             calleeDescriptor := callee, bytecodeOffset := Verifier.toS4 s.bytecodeOffset
             invokeOpcode := s.opcode }

end DexKit

/-- Where a row is in its body, and with which opcode. -/
def CallSite.place (row : CallSite) : Int × Nat := (row.bytecodeOffset, row.invokeOpcode)

/-- The instruction a row is about. -/
def CallSite.instruction (row : CallSite) : Nat × Nat × Int :=
  (row.callerDexId, row.callerMethodIdx, row.bytecodeOffset)

/-- The method `t` of an item prints as `text`. -/
def DexItem.Describes (item : DexItem) (t : Nat) (text : List UInt8) : Prop :=
  t < item.reader.header.methodIdsSize ∧ item.buildMethodDescriptor t = .ok text

/-- A session of strictly verified dexes, with the code pointers their
constructors kept. -/
structure CodeSession (kit : DexKit) (codes : MethodCodes) : Prop extends Session kit where
  strict : ∀ (dexId : Nat) item, kit.dexItems[dexId]? = some item → ∃ image headerOff st,
    (verifyDex image true headerOff st).1.ok = true ∧ loadDexItem image headerOff = .ok item ∧
      item.methodCodes = .ok (codes dexId)

/-- The body of method `m` of dex `o` calls method `t` of that dex. -/
def DexKit.Invokes (kit : DexKit) (codes : MethodCodes) (o m t : Nat) : Prop :=
  ∃ item, kit.dexItems[o]? = some item ∧
    ∃ site ∈ DexKit.sitesOf codes CodeItem.enumerateInvokeSites item o m, site.methodIdx = t

/-- What the core is trusted with: its caller index lists every call of every
body, and its aggregation moves the caller list of a method as a whole, to a dex
with a method of the same descriptor. -/
structure CallerIndex (kit : DexKit) (codes : MethodCodes) (callers : CallerIds) : Prop where
  moved : ∃ home : Nat → Nat → Nat × Nat,
    (∀ (o t : Nat) item text, kit.dexItems[o]? = some item → item.Describes t text →
      ∃ item', kit.dexItems[(home o t).1]? = some item' ∧ item'.Describes (home o t).2 text) ∧
    ∀ i target o m, (o, m) ∈ (callers i).getD target [] ↔
      ∃ t, home o t = (i, target) ∧ kit.Invokes codes o m t

end Dexllm
