import Mathlib.Data.List.Chain
import Mathlib.Data.List.Dedup
import Mathlib.Data.List.Sort
import Dexllm.Lib.LevelSearch

/-!
The paths from the declared types to the interface roots: a search by levels from
the roots over the reversed `implements` edges.
-/

namespace Dexllm.Components

open LevelSearch

/-- The declared `implements` map: the interfaces of each declared type. -/
structure Implements (α : Type) where
  entries : List (α × List α)
  nodup : (entries.map Prod.fst).Nodup

variable {α : Type} [LinearOrder α]

namespace Implements

variable (m : Implements α)

/-- `rev.get(i, ())`. -/
def rev (i : α) : List α :=
  m.entries.flatMap fun (desc, ifaces) => (ifaces.filter (· = i)).map fun _ => desc

/-- The paths of the types of `parent`, built from the pointers. -/
def pathsOf (parent : Parents α) : List α → Option (List (α × List α))
  | [] => some []
  | desc :: rest => do
    let path ← chase parent parent.length desc
    let out ← pathsOf parent rest
    pure ((desc, path) :: out)

/-- `interface_root_paths`, in the order of its result. Every round but the last
meets a declared type, so one more round than there are of them suffices. -/
def interfaceRootPaths (ifaceRoots : List α) : Option (List (α × List α)) := do
  let frontier := (ifaceRoots.dedup.filter fun r => m.rev r ≠ []).insertionSort (· ≤ ·)
  let parent ← search m.rev ifaceRoots (m.entries.length + 1) [] frontier
  pathsOf parent (parent.reverse.map Prod.fst)

/-- `x` is declared to implement `y`. -/
def Edge (x y : α) : Prop := ∃ ifaces, (x, ifaces) ∈ m.entries ∧ y ∈ ifaces

/-- Declared edges lead from `x` along `path`, which ends in a root. -/
def PathToRoot (ifaceRoots : List α) (x : α) (path : List α) : Prop :=
  List.IsChain m.Edge (x :: path) ∧ ∃ r ∈ ifaceRoots, path.getLast? = some r

/-- A result lists the types a root is reached from, each once, with a shortest
path that passes no other root. -/
structure ExactRootPaths (ifaceRoots : List α) (out : List (α × List α)) : Prop where
  distinct : (out.map Prod.fst).Nodup
  keys : ∀ x, x ∈ out.map Prod.fst ↔
    x ∈ m.entries.map Prod.fst ∧ x ∉ ifaceRoots ∧ ∃ path, m.PathToRoot ifaceRoots x path
  path : ∀ x path, (x, path) ∈ out → m.PathToRoot ifaceRoots x path ∧
    (∀ y ∈ path.dropLast, y ∉ ifaceRoots) ∧
    ∀ other, m.PathToRoot ifaceRoots x other → path.length ≤ other.length

variable {m} {ifaceRoots : List α} {x y : α}

theorem mem_rev : x ∈ m.rev y ↔ m.Edge x y := by
  unfold rev Edge
  simp only [List.mem_flatMap, List.mem_map, List.mem_filter, decide_eq_true_eq]
  constructor
  · rintro ⟨⟨desc, ifaces⟩, he, i, ⟨hi, rfl⟩, rfl⟩
    exact ⟨ifaces, he, hi⟩
  · rintro ⟨ifaces, he, hy⟩
    exact ⟨(x, ifaces), he, y, ⟨hy, rfl⟩, rfl⟩

omit [LinearOrder α] in
theorem declared_of_edge (h : m.Edge x y) : x ∈ m.entries.map Prod.fst := by
  obtain ⟨ifaces, he, -⟩ := h
  exact List.mem_map_of_mem he

/-- The walks of the search are the declared paths. -/
theorem walk_iff {path : List α} :
    Walk m.rev ifaceRoots x path ↔ m.PathToRoot ifaceRoots x path := by
  constructor
  · intro h
    induction h with
    | @last x r hedge hr =>
      exact ⟨List.isChain_pair.mpr (mem_rev.mp hedge), r, hr, rfl⟩
    | @step x y path hedge hrest ih =>
      obtain ⟨hchain, r, hr, hlast⟩ := ih
      refine ⟨List.isChain_cons_cons.mpr ⟨mem_rev.mp hedge, hchain⟩, r, hr, ?_⟩
      rw [List.getLast?_cons, hlast]
      rfl
  · rintro ⟨hchain, r, hr, hlast⟩
    induction path generalizing x with
    | nil => cases hlast
    | cons y path ih =>
      obtain ⟨hedge, hrest⟩ := List.isChain_cons_cons.mp hchain
      cases path with
      | nil =>
        obtain rfl : y = r := Option.some.inj hlast
        exact .last (mem_rev.mpr hedge) hr
      | cons z path =>
        refine .step (mem_rev.mpr hedge) (ih hrest ?_)
        rwa [List.getLast?_cons_cons] at hlast

omit [LinearOrder α] in
theorem declared_of_path {path : List α} (h : m.PathToRoot ifaceRoots x path) :
    x ∈ m.entries.map Prod.fst := by
  obtain ⟨hchain, r, -, hlast⟩ := h
  cases path with
  | nil => cases hlast
  | cons y path => exact declared_of_edge (List.isChain_cons_cons.mp hchain).1

/-- The roots that some type implements stand at the start of the search. -/
theorem levelled_start : Levelled m.rev ifaceRoots 0 []
    ((ifaceRoots.dedup.filter fun r => m.rev r ≠ []).insertionSort (· ≤ ·)) where
  grown := .nil
  shallow x hx := nomatch hx
  atFrontier x hx := by
    rw [List.mem_insertionSort, List.mem_filter, List.mem_dedup] at hx
    exact ⟨Or.inl hx.1, rfl⟩
  complete x hx _ hne := by
    rw [List.mem_insertionSort, List.mem_filter, List.mem_dedup]
    exact ⟨hx.resolve_right Bool.false_ne_true, decide_eq_true hne⟩
  covered p _ hlt := nomatch hlt

/-- Each path is the trail of parents. -/
theorem pathsOf_eq {parent : Parents α} (h : Grown m.rev ifaceRoots parent) (descs : List α) :
    pathsOf parent descs = some (descs.map fun desc => (desc, trail parent desc)) := by
  induction descs with
  | nil => rfl
  | cons desc rest ih =>
    rw [pathsOf, h.chase_eq (h.depth_le_length desc), ih]
    rfl

theorem interfaceRootPaths_spec (m : Implements α) (ifaceRoots : List α) :
    ∃ out, m.interfaceRootPaths ifaceRoots = some out ∧ m.ExactRootPaths ifaceRoots out := by
  have hspace : ∀ p, ∀ x ∈ m.rev p, x ∈ m.entries.map Prod.fst :=
    fun p x hx => declared_of_edge (mem_rev.mp hx)
  have hstart : Levelled m.rev ifaceRoots 0 [] _ := levelled_start
  obtain ⟨parent, n, hsearch, hlevel⟩ : ∃ parent n,
      search m.rev ifaceRoots (m.entries.length + 1) [] _ = some parent ∧
        Levelled m.rev ifaceRoots n parent [] :=
    hstart.search_ends hspace (by simp)
  have hgrown := hlevel.grown
  refine ⟨(parent.reverse.map Prod.fst).map fun desc => (desc, trail parent desc), ?_, ?_⟩
  · unfold interfaceRootPaths
    dsimp only
    rw [hsearch, Option.bind_eq_bind, Option.bind_some, pathsOf_eq hgrown]
  have hkeys : ((parent.reverse.map Prod.fst).map fun desc => (desc, trail parent desc)).map
      Prod.fst = (parent.map Prod.fst).reverse := by
    rw [List.map_map, List.map_reverse]
    exact List.map_id _
  have hmet (x : α) : x ∈ parent.map Prod.fst ↔ (parent.lookup x).isSome = true := by
    rw [Association.lookup_isSome_iff, List.mem_map]
  refine ⟨?_, fun x => ?_, fun x path hx => ?_⟩
  · rw [hkeys]
    exact List.nodup_reverse.mpr hgrown.keys_nodup
  · rw [hkeys, List.mem_reverse, hmet]
    constructor
    · intro hx
      obtain ⟨p, hp⟩ := Option.isSome_iff_exists.mp hx
      have hpath := walk_iff.mp (hgrown.walk_trail hx).1
      exact ⟨declared_of_path hpath, (hgrown.pointer hp).1, _, hpath⟩
    · rintro ⟨-, hroot, path, hpath⟩
      exact (hlevel.shortest (walk_iff.mpr hpath) hroot).1
  · obtain ⟨desc, hdesc, heq⟩ := List.mem_map.mp hx
    obtain ⟨rfl, rfl⟩ := Prod.mk.inj heq
    rw [List.map_reverse, List.mem_reverse, hmet] at hdesc
    obtain ⟨p, hp⟩ := Option.isSome_iff_exists.mp hdesc
    obtain ⟨hwalk, hinner⟩ := hgrown.walk_trail hdesc
    exact ⟨walk_iff.mp hwalk, hinner,
      fun other hother => (hlevel.shortest (walk_iff.mpr hother) (hgrown.pointer hp).1).2⟩

/-- Whatever the declared types and the roots, the search ends, and it finds exactly
the types a root is reached from, each with a shortest path. -/
theorem interface_root_paths_exact (m : Implements α) (ifaceRoots : List α) :
    ∃ out, m.interfaceRootPaths ifaceRoots = some out ∧ m.ExactRootPaths ifaceRoots out :=
  m.interfaceRootPaths_spec ifaceRoots

/-- Two types that implement each other, one of them also the root 0. -/
example : interfaceRootPaths ⟨[(1, [2]), (2, [1, 0])], by decide⟩ [0] =
    some [(2, [0]), (1, [2, 0])] := by
  decide

end Implements

end Dexllm.Components

/-!
The component classes: `classify` walks the superclass chain of a class under a
memo and a stack of the classes it is inside of, and falls back on the interface
paths. On a superclass cycle its answer depends on where the walk entered.
-/

namespace Dexllm.Components

variable {α : Type} [LinearOrder α]

instance lawfulBEq : LawfulBEq α := inferInstance

/-- A class header: no superclass is the shape of `java.lang.Object`. -/
structure Header (α : Type) where
  superclass : Option α
  interfaces : List α
  dexId : Nat
  accessFlags : Nat

/-- The headers, one to a descriptor. -/
structure Headers (α : Type) where
  entries : List (α × Header α)
  nodup : (entries.map Prod.fst).Nodup

/-- An entry of `bases`. -/
structure Base (α : Type) where
  root : α
  rootKind : String
  depth : Nat
  directSuper : α

/-- An entry of `roots`. -/
structure Root where
  rootKind : String
  isInterface : Bool

/-- The component table. -/
structure ComponentTable (α : Type) where
  bases : List (α × Base α)
  roots : List (α × Root)
  sdk : List α

/-- The tuple `classify` returns. -/
inductive Outcome (α : Type) where
  | none
  | resolved (root : α) (kind : String) (tail : List α)
  | unresolved (tail : List α)
  deriving DecidableEq, Repr

/-- The tuple of a class whose superclass `p` has this one. -/
def Outcome.extend (p : α) : Outcome α → Outcome α
  | .none => .none
  | .resolved root kind tail => .resolved root kind (p :: tail)
  | .unresolved tail => .unresolved (p :: tail)

namespace ComponentTable

variable (t : ComponentTable α)

def ifaceRoots : List α := (t.roots.filter fun r => r.2.isInterface).map Prod.fst

/-- The loop of `_framework_tail`. A chain of the table meets a base at most once. -/
def frameworkTailFrom : (rounds : Nat) → α → List α
  | 0, cur => [cur]
  | rounds + 1, cur =>
    match t.bases.lookup cur with
    | some b => if 0 < b.depth then cur :: frameworkTailFrom rounds b.directSuper else [cur]
    | none => [cur]

/-- `_framework_tail`. -/
def frameworkTail (first : α) : List α := t.frameworkTailFrom t.bases.length first

end ComponentTable

namespace Headers

variable (hdr : Headers α) (t : ComponentTable α)

/-- The `implements` map of the headers. -/
def implementsMap : Implements α where
  entries := hdr.entries.map fun e => (e.1, e.2.interfaces)
  nodup := by
    rw [List.map_map]
    exact hdr.nodup

/-- `iface_paths`. -/
def ifacePaths : List (α × List α) :=
  (hdr.implementsMap.interfaceRootPaths t.ifaceRoots).getD []

/-- The tuple of a class by its interface path. -/
def ifaceOutcome (desc : α) : Option (Outcome α) := do
  let path ← (hdr.ifacePaths t).lookup desc
  let root ← path.getLast?
  pure (.resolved root (((t.roots.lookup root).map (·.rootKind)).getD "") path)

/-- The interface root as a fallback. -/
def fallback (desc : α) (out : Outcome α) : Outcome α :=
  match out with
  | .resolved .. => out
  | _ => (hdr.ifaceOutcome t desc).getD out

/-- The answers so far, the latest first. -/
abbrev Memo (α : Type) := List (α × Outcome α)

/-- `classify`; `none` if the rounds run out or a class is not declared. -/
def classify : (rounds : Nat) → Memo α → (desc : α) → (stack : List α) →
    Option (Outcome α × Memo α)
  | 0, _, _, _ => none
  | rounds + 1, memo, desc, stack =>
    match memo.lookup desc with
    | some out => some (out, memo)
    | none =>
      match hdr.entries.lookup desc with
      | none => none
      | some h =>
        let walked : Option (Outcome α × Memo α) :=
          match h.superclass with
          | none => some (.none, memo)
          | some p =>
            match t.bases.lookup p with
            | some b => some (.resolved b.root b.rootKind (t.frameworkTail p), memo)
            | none =>
              if (hdr.entries.lookup p).isSome then
                if p ∈ stack then some (.none, memo)
                else (classify rounds memo p (p :: stack)).map fun (r, memo) => (r.extend p, memo)
              else if p ∈ t.sdk then some (.none, memo)
              else some (.unresolved [p], memo)
        walked.map fun (out, memo) =>
          (hdr.fallback t desc out, (desc, hdr.fallback t desc out) :: memo)

/-- `classify` on the classes of a list, in its order. -/
def classifyAll : (order : List α) → Memo α → Option (Memo α)
  | [], memo => some memo
  | desc :: order, memo => do
    let (_, memo) ← hdr.classify t (hdr.entries.length + 1) memo desc [desc]
    classifyAll order memo

/-- An order in which `classify` is called on the classes. -/
def Order (order : List α) : Prop := order.Perm (hdr.entries.map Prod.fst)

/-- The superclass the walk goes on with: one that is declared and no base. -/
def next (desc : α) : Option α :=
  (hdr.entries.lookup desc).bind fun h => h.superclass.bind fun p =>
    if t.bases.lookup p = none ∧ (hdr.entries.lookup p).isSome then some p else none

/-- The class `n` superclasses up. -/
def ancestor : Nat → α → Option α
  | 0, desc => some desc
  | n + 1, desc => (hdr.next t desc).bind (ancestor n)

/-- The class is its own superclass some steps up. -/
def OnCycle (desc : α) : Prop := ∃ n, 0 < n ∧ hdr.ancestor t n desc = some desc

/-- A member of a superclass cycle of two or more classes reaches an interface
root. -/
def RootedCycle : Prop :=
  ∃ desc path, hdr.OnCycle t desc ∧ hdr.next t desc ≠ some desc ∧ desc ∉ t.ifaceRoots ∧
    hdr.implementsMap.PathToRoot t.ifaceRoots desc path

/-- Whatever order the classes are asked for in, each gets the same answer. -/
def OrderIndependent : Prop :=
  ∀ order order', hdr.Order order → hdr.Order order' → ∃ memo memo',
    hdr.classifyAll t order [] = some memo ∧ hdr.classifyAll t order' [] = some memo' ∧
      ∀ desc, memo.lookup desc = memo'.lookup desc

/-- The answer where the walk does not go on. -/
def ends (h : Header α) : Outcome α :=
  match h.superclass with
  | none => .none
  | some p =>
    match t.bases.lookup p with
    | some b => .resolved b.root b.rootKind (t.frameworkTail p)
    | none => if p ∈ t.sdk then .none else .unresolved [p]

/-- The answer for a class, by its superclass chain alone: on a cycle there is only
the fallback. -/
inductive Classified : α → Outcome α → Prop where
  | cycle {desc : α} (hcycle : hdr.OnCycle t desc) : Classified desc (hdr.fallback t desc .none)
  | chain {desc p : α} {r : Outcome α} (hcycle : ¬hdr.OnCycle t desc)
      (hnext : hdr.next t desc = some p) (hp : Classified p r) :
      Classified desc (hdr.fallback t desc (r.extend p))
  | last {desc : α} {h : Header α} (hdesc : hdr.entries.lookup desc = some h)
      (hnext : hdr.next t desc = none) : Classified desc (hdr.fallback t desc (ends t h))

section Cycles

variable {hdr t} {desc p : α}

theorem ancestor_add (m n : Nat) (desc : α) :
    hdr.ancestor t (m + n) desc = (hdr.ancestor t m desc).bind (hdr.ancestor t n) := by
  induction m generalizing desc with
  | zero => rw [Nat.zero_add]; rfl
  | succ m ih =>
    rw [Nat.add_right_comm, ancestor, ancestor]
    cases hdr.next t desc with
    | none => rfl
    | some p => exact ih p

theorem ancestor_succ_of_next (hnext : hdr.next t desc = some p) (n : Nat) :
    hdr.ancestor t (n + 1) desc = hdr.ancestor t n p := by
  rw [ancestor, hnext]
  rfl

theorem OnCycle.next_isSome (h : hdr.OnCycle t desc) : ∃ p, hdr.next t desc = some p := by
  obtain ⟨n, hpos, hn⟩ := h
  obtain ⟨m, rfl⟩ : ∃ m, n = m + 1 := ⟨n - 1, by omega⟩
  rw [ancestor] at hn
  obtain ⟨p, hp, -⟩ := Option.bind_eq_some_iff.mp hn
  exact ⟨p, hp⟩

/-- A cycle goes on with the superclass. -/
theorem OnCycle.step (h : hdr.OnCycle t desc) (hnext : hdr.next t desc = some p) :
    hdr.OnCycle t p := by
  obtain ⟨n, hpos, hn⟩ := h
  obtain ⟨m, rfl⟩ : ∃ m, n = m + 1 := ⟨n - 1, by omega⟩
  rw [ancestor_succ_of_next hnext] at hn
  refine ⟨m + 1, hpos, ?_⟩
  rw [ancestor_add, hn, Option.bind_some, ancestor_succ_of_next hnext, ancestor]

theorem ancestor_self (hnext : hdr.next t desc = some desc) (n : Nat) :
    hdr.ancestor t n desc = some desc := by
  induction n with
  | zero => rfl
  | succ n ih => rw [ancestor_succ_of_next hnext, ih]

/-- A cycle of two or more classes stays one. -/
theorem OnCycle.next_ne (h : hdr.OnCycle t desc) (hnext : hdr.next t desc = some p)
    (hne : p ≠ desc) : hdr.next t p ≠ some p := by
  intro hself
  obtain ⟨n, hpos, hn⟩ := h
  obtain ⟨m, rfl⟩ : ∃ m, n = m + 1 := ⟨n - 1, by omega⟩
  rw [ancestor_succ_of_next hnext, ancestor_self hself] at hn
  exact hne (Option.some.inj hn)

theorem next_eq_some : hdr.next t desc = some p ↔ ∃ h, hdr.entries.lookup desc = some h ∧
    h.superclass = some p ∧ t.bases.lookup p = none ∧ (hdr.entries.lookup p).isSome = true := by
  unfold next
  rw [Option.bind_eq_some_iff]
  refine exists_congr fun h => and_congr_right fun _ => ?_
  rw [Option.bind_eq_some_iff]
  constructor
  · rintro ⟨q, hq, hif⟩
    split at hif
    · rename_i hcond
      obtain rfl := Option.some.inj hif
      exact ⟨hq, hcond⟩
    · cases hif
  · rintro ⟨hq, hcond⟩
    exact ⟨p, hq, if_pos hcond⟩

theorem Classified.unique {r r' : Outcome α} (h : hdr.Classified t desc r)
    (h' : hdr.Classified t desc r') : r = r' := by
  induction h generalizing r' with
  | cycle hcycle =>
    cases h' with
    | cycle _ => rfl
    | chain hcycle' _ _ => exact absurd hcycle hcycle'
    | last _ hnext =>
      obtain ⟨p, hp⟩ := hcycle.next_isSome
      rw [hp] at hnext
      cases hnext
  | chain hcycle hnext _ ih =>
    cases h' with
    | cycle hcycle' => exact absurd hcycle' hcycle
    | chain _ hnext' hp' =>
      rw [hnext] at hnext'
      obtain rfl := Option.some.inj hnext'
      rw [ih hp']
    | last _ hnext' =>
      rw [hnext] at hnext'
      cases hnext'
  | last hdesc hnext =>
    cases h' with
    | cycle hcycle =>
      obtain ⟨p, hp⟩ := hcycle.next_isSome
      rw [hp] at hnext
      cases hnext
    | chain _ hnext' _ =>
      rw [hnext] at hnext'
      cases hnext'
    | last hdesc' _ =>
      rw [hdesc] at hdesc'
      rw [Option.some.inj hdesc']

end Cycles

end Headers

end Dexllm.Components
