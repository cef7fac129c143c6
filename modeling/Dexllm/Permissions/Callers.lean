import Dexllm.JavaText
import Dexllm.Lib.Utf8
import Dexllm.Lib.SortedSet
import Dexllm.Permissions.NameBytes

/-!
The callers of the permission-guarded methods, joined in Python over strings of code
points and in C++ over the bytes of the string pool and a table generated from the same
entries.
-/

namespace Dexllm.Permissions

open SortedSet

/-! The answers of a session. -/

/-- `ExternalMethodRef`, its strings in either representation. -/
structure ExternalMethodRef (σ : Type) where
  classDescriptor : σ
  name : σ
  proto : σ

/-- What the join reads of a `CallSite`. -/
structure CallerSite (σ : Type) where
  callerDescriptor : σ
  shadowed : Bool

inductive BaseType where
  | prim (code : Char)
  | cls (path : Text)

/-- A type descriptor: array dimensions over a primitive or a class. -/
structure TypeDescriptor where
  dims : Nat
  base : BaseType

/-- What the name grammar of the file leaves of a base type. -/
def BaseType.Valid : BaseType → Prop
  | prim code => code ∈ "VZBSCIJFD".toList
  | cls path => ∀ c ∈ path, c ∉ [';', '(', ')']

def BaseType.text : BaseType → Text
  | prim code => [code]
  | cls path => 'L' :: path ++ [';']

def TypeDescriptor.text (d : TypeDescriptor) : Text := List.replicate d.dims '[' ++ d.base.text

/-- A method of a verified file: its class is a reference type. -/
structure MethodId where
  owner : TypeDescriptor
  name : Text
  params : List TypeDescriptor
  ret : Text
  owner_valid : owner.base.Valid
  owner_reference : owner.dims = 0 → ∃ path, owner.base = .cls path
  params_valid : ∀ p ∈ params, p.base.Valid

def MethodId.proto (m : MethodId) : Text :=
  '(' :: m.params.flatMap TypeDescriptor.text ++ ')' :: m.ret

/-- The references of a session in the order it lists them, and the sites of a target,
which is asked for by its bytes. -/
structure JoinSession where
  external : List MethodId
  sitesTo : List UInt8 → List (CallerSite Text)

/-- `dk.list_external_method_refs(False)`. -/
def JoinSession.listExternalMethodRefs (s : JoinSession) : List (ExternalMethodRef Text) :=
  s.external.map fun m => ⟨m.owner.text, m.name, m.proto⟩

/-- `dk.find_call_sites_to`: the binding encodes the descriptor. -/
def JoinSession.findCallSitesTo (s : JoinSession) (descriptor : Text) : List (CallerSite Text) :=
  s.sitesTo (mutf8 descriptor)

/-! The results. -/

structure PermCallerRow (σ : Type) where
  api : σ
  descriptors : List σ
  callers : List σ
deriving DecidableEq

structure PermCallerGroup (σ : Type) where
  perm : σ
  protectionLevel : σ
  rows : List (PermCallerRow σ)
deriving DecidableEq

/-- `_FRAMEWORK_CALLER_PREFIXES`. -/
def frameworkCallerPrefixes : List String :=
  ["Landroidx/", "Landroid/support/", "Landroid/arch/", "Lkotlin/", "Lkotlinx/", "Ljava/",
    "Ljavax/", "Ldalvik/", "Lcom/google/android/", "Lcom/google/common/", "Lcom/google/gson/"]

/-! The table. -/

def Plain (t : Text) : Prop := ∀ c ∈ t, 0 < c.toNat ∧ c.toNat < 0x80

/-- `perm_api.json` and `perm_levels.json`; the methods they name are ASCII and no class
of theirs is an array. -/
structure PermTable (tables : CharTables) where
  entries : List (Text × List Text)
  levels : List (Text × Text)
  perms_nodup : (entries.map Prod.fst).Nodup
  plain : ∀ e ∈ entries, ∀ sig ∈ e.2, ∀ types, (parseApi tables sig).types = some types →
    Plain (parseApi tables sig).cls ∧ Plain (parseApi tables sig).method ∧ ∀ t ∈ types, Plain t
  no_array : ∀ e ∈ entries, ∀ sig ∈ e.2, '[' ∉ (parseApi tables sig).cls

variable {tables : CharTables}

/-- `level_map.get(perm, "other")`. -/
def PermTable.level (table : PermTable tables) (perm : Text) : Text :=
  (table.levels.lookup perm).getD "other".toList

/-- `_build_overload_index`: each signature text counts once. -/
def PermTable.overloadIndex (table : PermTable tables) :
    List ((Text × Text) × List (Nat × Nat)) :=
  let sigs := (table.entries.flatMap Prod.snd).dedup
  let parsed := sigs.filterMap fun sig =>
    let api := parseApi tables sig
    api.types.map fun types => ((api.cls, api.method), types.length)
  (parsed.map Prod.fst).dedup.map fun key =>
    let arities := (parsed.filter (·.1 = key)).map Prod.snd
    (key, arities.dedup.map fun n => (n, arities.count n))

/-! The Python join. -/

/-- `descriptor_to_java`. -/
def descriptorToJava (descriptor : Text) : Text :=
  let nArr := (descriptor.takeWhile (· = '[')).length
  let base :=
    match descriptor.dropWhile (· = '[') with
    | [c] => dalvikPrim c
    | 'L' :: rest =>
      if rest.getLast? = some ';' then rest.dropLast.map fun c => if c = '/' then '.' else c
      else 'L' :: rest
    | t => t
  base ++ brackets nArr

/-- What `_external_method_index` files one reference under: a constructor also under the
simple name of its class. -/
def indexEntries (ref : ExternalMethodRef Text) :
    List ((Text × Text) × ExternalMethodRef Text) :=
  let cls := (descriptorToJava ref.classDescriptor).map fun c => if c = '$' then '.' else c
  ((cls, ref.name), ref) ::
    if ref.name = "<init>".toList then [((cls, afterLast '.' cls), ref)] else []

/-- `_external_method_index`, every reference with its key in the order of appending. -/
def externalMethodIndex (refs : List (ExternalMethodRef Text)) :
    List ((Text × Text) × ExternalMethodRef Text) := refs.flatMap indexEntries

/-- What a dictionary of lists holds under a key. -/
def indexed {κ ρ : Type} [DecidableEq κ] (index : List (κ × ρ)) (key : κ) : List ρ :=
  (index.filter (·.1 = key)).map Prod.snd

/-- `_is_framework_caller`. -/
def isFrameworkCaller (descriptor : Text) : Bool :=
  frameworkCallerPrefixes.any fun p => p.toList.isPrefixOf descriptor

def ExternalMethodRef.descriptor (ref : ExternalMethodRef Text) : Text :=
  ref.classDescriptor ++ "->".toList ++ ref.name ++ ref.proto

/-- The callers one reference adds to a row. -/
def keptCallers (s : JoinSession) (appOnly : Bool) (ref : ExternalMethodRef Text) : List Text :=
  (s.findCallSitesTo ref.descriptor).filterMap fun site =>
    if site.shadowed then none
    else if appOnly && isFrameworkCaller site.callerDescriptor then none
    else some site.callerDescriptor

/-- The references of a session that realise a table entry. -/
def matchedRefs (table : PermTable tables) (s : JoinSession) (sig : Text) (types : List Text) :
    List (ExternalMethodRef Text) :=
  let api := parseApi tables sig
  (indexed (externalMethodIndex s.listExternalMethodRefs) (api.cls, api.method)).filter fun ref =>
    refMatches ref.proto types ((table.overloadIndex.lookup (api.cls, api.method)).getD [])

/-- One round of `_rows_for_perm`. -/
def rowOf (table : PermTable tables) (s : JoinSession) (appOnly : Bool) (sig : Text) :
    Option (PermCallerRow Text) :=
  match (parseApi tables sig).types with
  | none => none
  | some types =>
    let matched := matchedRefs table s sig types
    let callers := matched.flatMap (keptCallers s appOnly)
    if callers = [] then none
    else some ⟨sig, sortedSet codePoints (matched.map (·.descriptor)),
      sortedSet codePoints callers⟩

/-- `_rows_for_perm`. -/
def rowsForPerm (table : PermTable tables) (s : JoinSession) (appOnly : Bool)
    (sigs : List Text) : List (PermCallerRow Text) :=
  sigs.filterMap (rowOf table s appOnly)

/-- `permission_api_callers` for all levels. -/
def permissionApiCallers (table : PermTable tables) (s : JoinSession) (appOnly : Bool) :
    List (PermCallerGroup Text) :=
  table.entries.filterMap fun (perm, sigs) =>
    let rows := rowsForPerm table s appOnly sigs
    if rows = [] then none else some ⟨perm, table.level perm, rows⟩

/-! The generated table and the C++ join. -/

namespace Cpp

structure PermApiEntry where
  perm : List UInt8
  level : List UInt8
  cls : List UInt8
  method : List UInt8
  sig : List UInt8
  paramTypes : List (List UInt8)

/-- `PermApiEntries` and `OverloadCounts`. -/
structure PermApiData where
  entries : List PermApiEntry
  overloads : List ((List UInt8 × List UInt8) × List (Nat × Nat))

/-- The entry generated for a signature, unless it names a field. -/
def entryFor (table : PermTable tables) (perm sig : Text) : Option PermApiEntry :=
  let api := parseApi tables sig
  api.types.map fun types =>
    ⟨Utf8.encode perm, Utf8.encode (table.level perm), Utf8.encode api.cls,
      Utf8.encode api.method, Utf8.encode sig, types.map Utf8.encode⟩

/-- `gen_perm_api_data.py`. -/
def permApiData (table : PermTable tables) : PermApiData :=
  ⟨table.entries.flatMap fun (perm, sigs) => sigs.filterMap (entryFor table perm),
    table.overloadIndex.map (Prod.map (Prod.map Utf8.encode Utf8.encode) id)⟩

/-- `ClassToDotted`. -/
def classToDotted (d : List UInt8) : List UInt8 :=
  let d :=
    if 2 ≤ d.length ∧ d.head? = some 0x4c ∧ d.getLast? = some 0x3b then d.tail.dropLast else d
  d.map fun c => if c = 0x2f ∨ c = 0x24 then 0x2e else c

/-- `SimpleName`. -/
def simpleName (s : List UInt8) : List UInt8 := s.rtakeWhile (· ∉ [0x2f, 0x2e, 0x24])

/-- `kPrim`. -/
def prim : List (UInt8 × List UInt8) :=
  [(0x49, ascii "int"), (0x4a, ascii "long"), (0x5a, ascii "boolean"), (0x44, ascii "double"),
    (0x46, ascii "float"), (0x42, ascii "byte"), (0x53, ascii "short"), (0x43, ascii "char"),
    (0x56, ascii "void")]

/-- `PrimName`. -/
def primName (c : UInt8) : List UInt8 := (prim.lookup c).getD [c]

def arraySuffix (dims : Nat) : List UInt8 := (List.replicate dims (ascii "[]")).flatten

/-- The loop of `DalvikParamTypes`; a round takes at least one byte. -/
def paramTypesFrom : (rounds : Nat) → List UInt8 → List (List UInt8)
  | 0, _ => []
  | rounds + 1, inner =>
    let dims := (inner.takeWhile (· = 0x5b)).length
    match inner.dropWhile (· = 0x5b) with
    | [] => []
    | c :: rest =>
      if c = 0x4c then
        if 0x3b ∈ rest then
          (simpleName (rest.takeWhile (· ≠ 0x3b)) ++ arraySuffix dims) ::
            paramTypesFrom rounds (rest.dropWhile (· ≠ 0x3b)).tail
        else []
      else (primName c ++ arraySuffix dims) :: paramTypesFrom rounds rest

/-- `DalvikParamTypes`. -/
def dalvikParamTypes (proto : List UInt8) : List (List UInt8) :=
  match proto.findIdx? (· = 0x28), proto.findIdx? (· = 0x29) with
  | some openP, some closeP =>
    if closeP < openP then []
    else
      let inner := (proto.take closeP).drop (openP + 1)
      paramTypesFrom inner.length inner
  | _, _ => []

/-- `IsFrameworkCaller`. -/
def isFrameworkCaller (desc : List UInt8) : Bool :=
  frameworkCallerPrefixes.any fun p => (ascii p).isPrefixOf desc

/-- `RefMatches`. -/
def refMatches (ref : ExternalMethodRef (List UInt8)) (types : List (List UInt8))
    (arityMap : List (Nat × Nat)) : Bool :=
  let total := (arityMap.map Prod.snd).sum
  if total ≤ 1 then true
  else
    let refTypes := dalvikParamTypes ref.proto
    if refTypes.length ≠ types.length then false
    else if (arityMap.lookup types.length).getD 0 ≤ 1 then true
    else refTypes = types

/-- `ListExternalMethodRefs`. -/
def listExternalMethodRefs (s : JoinSession) : List (ExternalMethodRef (List UInt8)) :=
  s.external.map fun m => ⟨mutf8 m.owner.text, mutf8 m.name, mutf8 m.proto⟩

/-- `FindCallSitesToApi`. -/
def findCallSitesToApi (s : JoinSession) (desc : List UInt8) : List (CallerSite (List UInt8)) :=
  (s.sitesTo desc).map fun site => ⟨mutf8 site.callerDescriptor, site.shadowed⟩

def indexEntries (ref : ExternalMethodRef (List UInt8)) :
    List ((List UInt8 × List UInt8) × ExternalMethodRef (List UInt8)) :=
  let cls := classToDotted ref.classDescriptor
  ((cls, ref.name), ref) ::
    if ref.name = ascii "<init>" then [((cls, simpleName cls), ref)] else []

/-- The index of `PermissionCallers`. -/
def methodIndex (refs : List (ExternalMethodRef (List UInt8))) :
    List ((List UInt8 × List UInt8) × ExternalMethodRef (List UInt8)) := refs.flatMap indexEntries

/-- The target that is asked for. -/
def descriptor (ref : ExternalMethodRef (List UInt8)) : List UInt8 :=
  ref.classDescriptor ++ ascii "->" ++ ref.name ++ ref.proto

def keptCallers (s : JoinSession) (appOnly : Bool) (ref : ExternalMethodRef (List UInt8)) :
    List (List UInt8) :=
  (findCallSitesToApi s (descriptor ref)).filterMap fun site =>
    if site.shadowed then none
    else if appOnly && isFrameworkCaller site.callerDescriptor then none
    else some site.callerDescriptor

/-- The row of an entry, when a caller is kept. -/
def rowOf (data : PermApiData) (s : JoinSession) (appOnly : Bool) (e : PermApiEntry) :
    Option (PermCallerRow (List UInt8)) :=
  let refs := indexed (methodIndex (listExternalMethodRefs s)) (e.cls, e.method)
  let arityMap := (data.overloads.lookup (e.cls, e.method)).getD []
  let matched := refs.filter fun ref => refMatches ref e.paramTypes arityMap
  let callers := matched.flatMap (keptCallers s appOnly)
  if callers = [] then none
  else some ⟨e.sig, sortedSet byteValues (matched.map descriptor), sortedSet byteValues callers⟩

/-- The loop of `PermissionCallers`: `group` is the last of the results once it is
opened. -/
structure Walk where
  result : List (PermCallerGroup (List UInt8))
  curPerm : List UInt8
  opened : Bool

def pushRow (row : PermCallerRow (List UInt8)) (g : PermCallerGroup (List UInt8)) :
    PermCallerGroup (List UInt8) := { g with rows := g.rows ++ [row] }

def walkEntry (row : PermApiEntry → Option (PermCallerRow (List UInt8))) (w : Walk)
    (e : PermApiEntry) : Walk :=
  let w := if e.perm ≠ w.curPerm then { w with curPerm := e.perm, opened := false } else w
  match row e with
  | none => w
  | some r =>
    let result := if w.opened then w.result else w.result ++ [⟨e.perm, e.level, []⟩]
    { w with result := result.modifyLast (pushRow r), opened := true }

/-- `PermissionCallers`. -/
def permissionCallers (data : PermApiData) (s : JoinSession) (appOnly : Bool) :
    List (PermCallerGroup (List UInt8)) :=
  (data.entries.foldl (walkEntry (rowOf data s appOnly)) ⟨[], [], false⟩).result

end Cpp

end Dexllm.Permissions
