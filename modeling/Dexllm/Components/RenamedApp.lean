import Dexllm.Components.ClassifyOrder

/-!
The rows of the component classes, and an app whose classes are renamed. Off the
rooted cycles the rows of the renamed app are the renamed rows.
-/

namespace Dexllm.Components

variable {α : Type} [LinearOrder α]

/-- The columns of a row that come from the header and the classification. An
unresolved class has no root. -/
structure Row (α : Type) where
  descriptor : α
  dexId : Nat
  root : Option α
  rootKind : String
  chain : List α
  resolved : Bool
  isAbstract : Bool

/-- The row of a class with this tuple. -/
def rowOf (desc : α) (h : Header α) : Outcome α → Option (Row α)
  | .none => none
  | .resolved root kind tail => some
      { descriptor := desc, dexId := h.dexId, root := some root, rootKind := kind,
        chain := desc :: tail, resolved := true, isAbstract := h.accessFlags &&& 0x400 ≠ 0 }
  | .unresolved tail => some
      { descriptor := desc, dexId := h.dexId, root := none, rootKind := "",
        chain := desc :: tail, resolved := false, isAbstract := h.accessFlags &&& 0x400 ≠ 0 }

namespace Headers

variable (hdr : Headers α) (t : ComponentTable α)

/-- The rows of the classes of a list, an interface passed over. -/
def rowsFrom : (descs : List α) → Memo α → Option (List (Row α))
  | [], _ => some []
  | desc :: rest, memo =>
    match hdr.entries.lookup desc with
    | none => none
    | some h =>
      if h.accessFlags &&& 0x200 ≠ 0 then rowsFrom rest memo
      else do
        let (r, memo) ← hdr.classify t (hdr.entries.length + 1) memo desc [desc]
        let rows ← rowsFrom rest memo
        pure ((rowOf desc h r).toList ++ rows)

/-- `find_component_subclasses`, without the columns that ask for the members of a
class. -/
def findComponentSubclasses : Option (List (Row α)) :=
  hdr.rowsFrom t ((hdr.entries.map Prod.fst).insertionSort (· ≤ ·)) []

end Headers

/-- The names a component table knows. -/
def ComponentTable.names (t : ComponentTable α) : List α :=
  (t.bases.flatMap fun b => [b.1, b.2.root, b.2.directSuper]) ++ t.roots.map Prod.fst ++ t.sdk

/-- A renaming of the classes of an app: the framework keeps its names. -/
structure Renaming (t : ComponentTable α) where
  rename : α → α
  injective : Function.Injective rename
  fixed : ∀ x ∈ t.names, rename x = x

def Header.rename (ρ : α → α) (h : Header α) : Header α :=
  { h with superclass := h.superclass.map ρ, interfaces := h.interfaces.map ρ }

def Outcome.rename (ρ : α → α) : Outcome α → Outcome α
  | .none => .none
  | .resolved root kind tail => .resolved (ρ root) kind (tail.map ρ)
  | .unresolved tail => .unresolved (tail.map ρ)

def Row.rename (ρ : α → α) (row : Row α) : Row α :=
  { row with
    descriptor := ρ row.descriptor, root := row.root.map ρ, chain := row.chain.map ρ }

namespace Headers

/-- The headers of the renamed app, in the same order. -/
def rename {t : ComponentTable α} (hdr : Headers α) (ρ : Renaming t) : Headers α where
  entries := hdr.entries.map fun e => (ρ.rename e.1, e.2.rename ρ.rename)
  nodup := by
    rw [List.map_map]
    change (hdr.entries.map (ρ.rename ∘ Prod.fst)).Nodup
    rw [← List.map_map]
    exact hdr.nodup.map ρ.injective

/-- The rows of a renamed app are the renamed rows, in the order of their new
descriptors. -/
def RenamedAlike (hdr : Headers α) (t : ComponentTable α) : Prop :=
  ∀ ρ : Renaming t, ∃ rows rows', hdr.findComponentSubclasses t = some rows ∧
    (hdr.rename ρ).findComponentSubclasses t = some rows' ∧
      rows'.Perm (rows.map (Row.rename ρ.rename))

end Headers

namespace Renaming

variable {t : ComponentTable α} (ρ : Renaming t) {hdr : Headers α} {desc p : α}

omit [LinearOrder α] in
theorem mem_fixed {l : List α} (hl : ∀ x ∈ l, ρ.rename x = x) : ρ.rename p ∈ l ↔ p ∈ l := by
  constructor
  · intro hp
    rwa [ρ.injective (hl _ hp)] at hp
  · intro hp
    rwa [hl p hp]

omit [LinearOrder α] in
theorem map_fixed {l : List α} (hl : ∀ x ∈ l, ρ.rename x = x) : l.map ρ.rename = l := by
  conv_rhs => rw [← List.map_id l]
  exact List.map_congr_left hl

omit [LinearOrder α] in
theorem fixed_base {b : Base α} (h : (p, b) ∈ t.bases) :
    ρ.rename p = p ∧ ρ.rename b.root = b.root ∧ ρ.rename b.directSuper = b.directSuper := by
  have hin (x : α) (hx : x ∈ [p, b.root, b.directSuper]) : ρ.rename x = x := by
    refine ρ.fixed x ?_
    simp only [ComponentTable.names, List.mem_append, List.mem_flatMap]
    exact Or.inl (Or.inl ⟨(p, b), h, hx⟩)
  exact ⟨hin _ (by simp), hin _ (by simp), hin _ (by simp)⟩

omit [LinearOrder α] in
theorem fixed_root {r : α} (h : r ∈ t.roots.map Prod.fst) : ρ.rename r = r := by
  refine ρ.fixed r ?_
  simp only [ComponentTable.names, List.mem_append]
  exact Or.inl (Or.inr h)

omit [LinearOrder α] in
theorem mem_sdk : ρ.rename p ∈ t.sdk ↔ p ∈ t.sdk := by
  refine ρ.mem_fixed fun x hx => ρ.fixed x ?_
  simp only [ComponentTable.names, List.mem_append]
  exact Or.inr hx

omit [LinearOrder α] in
theorem fixed_ifaceRoots {r : α} (h : r ∈ t.ifaceRoots) : ρ.rename r = r := by
  obtain ⟨e, he, rfl⟩ := List.mem_map.mp h
  exact ρ.fixed_root (List.mem_map_of_mem (List.mem_filter.mp he).1)

theorem lookup_bases : t.bases.lookup (ρ.rename p) = t.bases.lookup p := by
  by_cases hp : p ∈ t.bases.map Prod.fst
  · obtain ⟨⟨q, b⟩, hb, rfl⟩ := List.mem_map.mp hp
    rw [(ρ.fixed_base hb).1]
  · have hfixed (x : α) (hx : x ∈ t.bases.map Prod.fst) : ρ.rename x = x := by
      obtain ⟨⟨q, b⟩, hb, rfl⟩ := List.mem_map.mp hx
      exact (ρ.fixed_base hb).1
    have hout (x : α) (hx : x ∉ t.bases.map Prod.fst) : t.bases.lookup x = none := by
      rw [← Option.not_isSome_iff_eq_none, Association.lookup_isSome_iff]
      rintro ⟨e, he, rfl⟩
      exact hx (List.mem_map_of_mem he)
    rw [hout p hp, hout _ fun h => hp ((ρ.mem_fixed hfixed).mp h)]

theorem frameworkTail_fixed {b : Base α} (hp : t.bases.lookup p = some b) :
    (t.frameworkTail p).map ρ.rename = t.frameworkTail p := by
  have hrounds (n : Nat) (cur : α) (hcur : ρ.rename cur = cur) :
      (t.frameworkTailFrom n cur).map ρ.rename = t.frameworkTailFrom n cur := by
    induction n generalizing cur with
    | zero => rw [ComponentTable.frameworkTailFrom, List.map_singleton, hcur]
    | succ n ih =>
      unfold ComponentTable.frameworkTailFrom
      cases hb : t.bases.lookup cur with
      | none => rw [List.map_singleton, hcur]
      | some b =>
        dsimp only
        split
        · rw [List.map_cons, hcur, ih _ (ρ.fixed_base (Association.mem_of_lookup hb)).2.2]
        · rw [List.map_singleton, hcur]
  exact hrounds _ p (ρ.fixed_base (Association.mem_of_lookup hp)).1

theorem lookup_entries : (hdr.rename ρ).entries.lookup (ρ.rename desc) =
    (hdr.entries.lookup desc).map (Header.rename ρ.rename) :=
  Association.lookup_map_key ρ.injective _

/-! The interface paths of the renamed app. -/

theorem rev_rename (i : α) : (hdr.rename ρ).implementsMap.rev (ρ.rename i) =
    (hdr.implementsMap.rev i).map ρ.rename := by
  unfold Implements.rev Headers.implementsMap Headers.rename
  simp only [List.map_map, List.flatMap_map, List.map_flatMap, Function.comp_apply]
  refine congrArg (hdr.entries.flatMap ·) (funext fun e => ?_)
  change (((e.2.interfaces.map ρ.rename).filter (· = ρ.rename i)).map fun _ => ρ.rename e.1) =
    ((e.2.interfaces.filter (· = i)).map fun _ => ρ.rename e.1)
  rw [List.filter_map, List.map_map]
  have hsame : ((fun x => decide (x = ρ.rename i)) ∘ ρ.rename) = fun x => decide (x = i) :=
    funext fun x => by simp [ρ.injective.eq_iff]
  rw [hsame]
  rfl

theorem pathsOf_rename (parent : List (α × α)) (descs : List α) :
    Implements.pathsOf (parent.map (Prod.map ρ.rename ρ.rename)) (descs.map ρ.rename) =
      (Implements.pathsOf parent descs).map
        (List.map (Prod.map ρ.rename (List.map ρ.rename))) := by
  induction descs with
  | nil => rfl
  | cons d descs ih =>
    rw [List.map_cons, Implements.pathsOf, Implements.pathsOf, ih, List.length_map,
      LevelSearch.chase_rename ρ.injective]
    cases LevelSearch.chase parent parent.length d with
    | none => rfl
    | some path => cases Implements.pathsOf parent descs <;> rfl

theorem ifacePaths_rename : (hdr.rename ρ).ifacePaths t =
    (hdr.ifacePaths t).map (Prod.map ρ.rename (List.map ρ.rename)) := by
  have hroots : t.ifaceRoots.map ρ.rename = t.ifaceRoots :=
    ρ.map_fixed fun r hr => ρ.fixed_ifaceRoots hr
  have hempty (r : α) (hr : r ∈ t.ifaceRoots) :
      (hdr.rename ρ).implementsMap.rev r ≠ [] ↔ hdr.implementsMap.rev r ≠ [] := by
    conv_lhs => rw [← ρ.fixed_ifaceRoots hr, ρ.rev_rename]
    rw [ne_eq, List.map_eq_nil_iff]
  have hfilter : t.ifaceRoots.dedup.filter (fun r => (hdr.rename ρ).implementsMap.rev r ≠ []) =
      t.ifaceRoots.dedup.filter fun r => hdr.implementsMap.rev r ≠ [] :=
    List.filter_congr fun r hr => by
      rw [decide_eq_decide]
      exact hempty r (List.mem_dedup.mp hr)
  have hfrontier (l : List α) (hl : ∀ r ∈ l, r ∈ t.ifaceRoots) :
      (l.insertionSort (· ≤ ·)).map ρ.rename = l.insertionSort (· ≤ ·) :=
    ρ.map_fixed fun r hr => ρ.fixed_ifaceRoots (hl r ((List.mem_insertionSort _).mp hr))
  have hlen : (hdr.rename ρ).implementsMap.entries.length = hdr.implementsMap.entries.length := by
    simp [Headers.implementsMap, Headers.rename]
  have hsearch (rounds : Nat) (frontier : List α) :
      LevelSearch.search (hdr.rename ρ).implementsMap.rev (t.ifaceRoots.map ρ.rename) rounds []
          (frontier.map ρ.rename) =
        (LevelSearch.search hdr.implementsMap.rev t.ifaceRoots rounds [] frontier).map
          (List.map (Prod.map ρ.rename ρ.rename)) :=
    LevelSearch.search_rename ρ.injective (fun i => ρ.rev_rename i) rounds [] frontier
  specialize hsearch (hdr.implementsMap.entries.length + 1)
    ((t.ifaceRoots.dedup.filter fun r => hdr.implementsMap.rev r ≠ []).insertionSort (· ≤ ·))
  rw [hroots, hfrontier _ fun r hr => List.mem_dedup.mp (List.mem_filter.mp hr).1] at hsearch
  unfold Headers.ifacePaths Implements.interfaceRootPaths
  rw [hfilter, hlen]
  dsimp only
  rw [hsearch]
  cases LevelSearch.search hdr.implementsMap.rev t.ifaceRoots
      (hdr.implementsMap.entries.length + 1) [] _ with
  | none => rfl
  | some parent =>
    change (Implements.pathsOf (parent.map (Prod.map ρ.rename ρ.rename))
      ((parent.map (Prod.map ρ.rename ρ.rename)).reverse.map Prod.fst)).getD [] =
      ((Implements.pathsOf parent (parent.reverse.map Prod.fst)).getD []).map _
    have hkeys : (parent.map (Prod.map ρ.rename ρ.rename)).reverse.map Prod.fst =
        (parent.reverse.map Prod.fst).map ρ.rename := by
      rw [← List.map_reverse, List.map_map, List.map_map]
      rfl
    rw [hkeys, ρ.pathsOf_rename]
    cases Implements.pathsOf parent (parent.reverse.map Prod.fst) <;> rfl

/-! The classification of the renamed app. -/

theorem next_rename : (hdr.rename ρ).next t (ρ.rename desc) =
    (hdr.next t desc).map ρ.rename := by
  unfold Headers.next
  rw [ρ.lookup_entries]
  cases hdr.entries.lookup desc with
  | none => rfl
  | some h =>
    simp only [Option.map_some, Option.bind_some, Header.rename]
    cases h.superclass with
    | none => rfl
    | some p =>
      simp only [Option.map_some, Option.bind_some, ρ.lookup_bases, ρ.lookup_entries,
        Option.isSome_map]
      split <;> rfl

theorem ancestor_rename (n : Nat) : (hdr.rename ρ).ancestor t n (ρ.rename desc) =
    (hdr.ancestor t n desc).map ρ.rename := by
  induction n generalizing desc with
  | zero => rfl
  | succ n ih =>
    rw [Headers.ancestor, Headers.ancestor, ρ.next_rename]
    cases hdr.next t desc with
    | none => rfl
    | some p => exact ih

theorem onCycle_rename : (hdr.rename ρ).OnCycle t (ρ.rename desc) ↔ hdr.OnCycle t desc := by
  refine exists_congr fun n => and_congr_right fun _ => ?_
  rw [ρ.ancestor_rename]
  constructor
  · intro h
    obtain ⟨q, hq, heq⟩ := Option.map_eq_some_iff.mp h
    rw [hq, ρ.injective heq]
  · intro h
    rw [h]
    rfl

/-- A class of the renamed app with a superclass to go on with is a renamed one. -/
theorem exists_of_next {d : α} (h : (hdr.rename ρ).next t d = some p) :
    ∃ desc, ρ.rename desc = d := by
  obtain ⟨h', hd, -⟩ := Headers.next_eq_some.mp h
  obtain ⟨e, -, heq⟩ := List.mem_map.mp (Association.mem_of_lookup hd)
  exact ⟨e.1, congrArg Prod.fst heq⟩

theorem clear_rename (hclear : ¬hdr.RootedCycle t) : ¬(hdr.rename ρ).RootedCycle t := by
  rintro ⟨d, path, hcycle, hne, hroot, hpath⟩
  obtain ⟨p, hp⟩ := hcycle.next_isSome
  obtain ⟨desc, rfl⟩ := ρ.exists_of_next hp
  obtain ⟨own, hown⟩ := Headers.exists_ifacePath.mpr ⟨hroot, path, hpath⟩
  rw [ρ.ifacePaths_rename, Association.lookup_map_key ρ.injective] at hown
  obtain ⟨own, hown, -⟩ := Option.map_eq_some_iff.mp hown
  obtain ⟨hroot, path, hpath⟩ := Headers.exists_ifacePath.mp ⟨own, hown⟩
  refine hclear ⟨desc, path, ρ.onCycle_rename.mp hcycle, fun hself => hne ?_, hroot, hpath⟩
  rw [ρ.next_rename, hself]
  rfl

theorem ifaceOutcome_rename : (hdr.rename ρ).ifaceOutcome t (ρ.rename desc) =
    (hdr.ifaceOutcome t desc).map (Outcome.rename ρ.rename) := by
  unfold Headers.ifaceOutcome
  rw [ρ.ifacePaths_rename, Association.lookup_map_key ρ.injective]
  cases hpath : (hdr.ifacePaths t).lookup desc with
  | none => rfl
  | some path =>
    obtain ⟨root, hroot, hlast⟩ := Headers.last_of_ifacePath hpath
    simp only [Option.map_some, Option.bind_eq_bind, Option.bind_some, List.getLast?_map, hlast,
      ρ.fixed_ifaceRoots hroot]
    exact congrArg (fun r => some (Outcome.resolved r _ _)) (ρ.fixed_ifaceRoots hroot).symm

theorem fallback_rename (out : Outcome α) :
    (hdr.rename ρ).fallback t (ρ.rename desc) (out.rename ρ.rename) =
      (hdr.fallback t desc out).rename ρ.rename := by
  cases out with
  | resolved root kind tail => rfl
  | none =>
    change ((hdr.rename ρ).ifaceOutcome t (ρ.rename desc)).getD _ = _
    rw [ρ.ifaceOutcome_rename, Option.getD_map]
    rfl
  | unresolved tail =>
    change ((hdr.rename ρ).ifaceOutcome t (ρ.rename desc)).getD _ = _
    rw [ρ.ifaceOutcome_rename]
    exact Option.getD_map _ _ _

omit [LinearOrder α] in
theorem extend_rename (out : Outcome α) :
    (out.extend p).rename ρ.rename = (out.rename ρ.rename).extend (ρ.rename p) := by
  cases out <;> rfl

theorem ends_rename (h : Header α) :
    Headers.ends t (h.rename ρ.rename) = (Headers.ends t h).rename ρ.rename := by
  obtain ⟨superclass, interfaces, dexId, accessFlags⟩ := h
  unfold Headers.ends Header.rename
  cases superclass with
  | none => rfl
  | some p =>
    simp only [Option.map_some, ρ.lookup_bases, ρ.mem_sdk]
    cases hb : t.bases.lookup p with
    | none =>
      dsimp only
      split <;> rfl
    | some b =>
      obtain ⟨hp, hroot, -⟩ := ρ.fixed_base (Association.mem_of_lookup hb)
      simp only [Outcome.rename, hp, hroot, ρ.frameworkTail_fixed hb]

/-- The renamed class has the renamed tuple. -/
theorem classified_rename {out : Outcome α} (h : hdr.Classified t desc out) :
    (hdr.rename ρ).Classified t (ρ.rename desc) (out.rename ρ.rename) := by
  induction h with
  | cycle hcycle =>
    rw [← ρ.fallback_rename]
    exact .cycle (ρ.onCycle_rename.mpr hcycle)
  | chain hcycle hnext _ ih =>
    rw [← ρ.fallback_rename, ρ.extend_rename]
    refine .chain (fun h => hcycle (ρ.onCycle_rename.mp h)) ?_ ih
    rw [ρ.next_rename, hnext]
    rfl
  | @last desc h hdesc hnext =>
    rw [← ρ.fallback_rename, ← ρ.ends_rename]
    refine .last ?_ ?_
    · rw [ρ.lookup_entries, hdesc]
      rfl
    · rw [ρ.next_rename, hnext]
      rfl

end Renaming

namespace Headers

variable {hdr : Headers α} {t : ComponentTable α} {desc : α}

/-- The row of a class whose tuple is the one of `answer`. -/
def rowAt (hdr : Headers α) (answer : α → Outcome α) (desc : α) : Option (Row α) :=
  (hdr.entries.lookup desc).bind fun h =>
    if h.accessFlags &&& 0x200 ≠ 0 then none else rowOf desc h (answer desc)

theorem rowsFrom_eq (hclear : ¬hdr.RootedCycle t) {answer : α → Outcome α}
    (hanswer : ∀ d, (hdr.entries.lookup d).isSome = true → hdr.Classified t d (answer d))
    {descs : List α} {memo : Memo α} (hmemo : Correct hdr t memo)
    (hdescs : ∀ d ∈ descs, (hdr.entries.lookup d).isSome = true) :
    hdr.rowsFrom t descs memo = some (descs.flatMap fun d => (rowAt hdr answer d).toList) := by
  induction descs generalizing memo with
  | nil => rfl
  | cons d descs ih =>
    have hd := hdescs d List.mem_cons_self
    have hrest (memo : Memo α) (hmemo : Correct hdr t memo) :=
      ih hmemo fun d hd => hdescs d (List.mem_cons_of_mem _ hd)
    obtain ⟨h, hh⟩ := Option.isSome_iff_exists.mp hd
    rw [List.flatMap_cons, rowsFrom, hh]
    unfold rowAt
    rw [hh]
    dsimp only [Option.bind_some]
    split
    · exact hrest memo hmemo
    · obtain ⟨out, memo₁, hrun, hout⟩ : ∃ out memo₁,
          hdr.classify t (hdr.entries.length + 1) memo d [d] = some (out, memo₁) ∧
            Answered hdr t d memo out memo₁ := classify_spec hclear hmemo hd List.mem_cons_self
        (fun s hs => ⟨0, by rw [List.mem_singleton.mp hs]; rfl⟩)
        (fun s hs => List.mem_singleton.mp hs ▸ hd) (List.nodup_singleton d)
        (by rw [List.length_singleton])
      rw [hrun, Option.bind_eq_bind, Option.bind_some]
      dsimp only
      rw [hrest memo₁ hout.correct, hout.answer.unique (hanswer d hd)]
      rfl

theorem exists_answer (hclear : ¬hdr.RootedCycle t) : ∃ answer : α → Outcome α,
    ∀ d, (hdr.entries.lookup d).isSome = true → hdr.Classified t d (answer d) := by
  obtain ⟨memo, -, hcorrect, -, hall⟩ : ∃ memo,
      hdr.classifyAll t (hdr.entries.map Prod.fst) [] = some memo ∧ Correct hdr t memo ∧
        (∀ d, (List.lookup d ([] : Memo α)).isSome = true → (memo.lookup d).isSome = true) ∧
        ∀ d ∈ hdr.entries.map Prod.fst, (memo.lookup d).isSome = true :=
    classifyAll_spec hclear (fun _ _ h => nomatch h) fun d hd =>
      Association.lookup_isSome_iff.mpr (List.mem_map.mp hd)
  refine ⟨fun d => (memo.lookup d).getD .none, fun d hd => ?_⟩
  obtain ⟨out, hout⟩ := Option.isSome_iff_exists.mp
    (hall d (List.mem_map.mpr (Association.lookup_isSome_iff.mp hd)))
  dsimp only
  rw [hout]
  exact hcorrect d out hout

theorem rows_perm (hclear : ¬hdr.RootedCycle t) {answer : α → Outcome α}
    (hanswer : ∀ d, (hdr.entries.lookup d).isSome = true → hdr.Classified t d (answer d)) :
    ∃ rows, hdr.findComponentSubclasses t = some rows ∧ rows.Perm
      ((hdr.entries.map Prod.fst).flatMap fun d => (rowAt hdr answer d).toList) := by
  have hsort := List.perm_insertionSort (· ≤ ·) (hdr.entries.map Prod.fst)
  refine ⟨_, rowsFrom_eq hclear hanswer (fun _ _ h => nomatch h) fun d hd => ?_,
    hsort.flatMap_right _⟩
  exact Association.lookup_isSome_iff.mpr (List.mem_map.mp (hsort.mem_iff.mp hd))

omit [LinearOrder α] in
theorem rowOf_rename (ρ : α → α) (h : Header α) (out : Outcome α) :
    rowOf (ρ desc) (h.rename ρ) (out.rename ρ) = (rowOf desc h out).map (Row.rename ρ) := by
  cases out <;> rfl

theorem rowAt_rename (ρ : Renaming t) {answer answer' : α → Outcome α}
    (hsame : answer' (ρ.rename desc) = (answer desc).rename ρ.rename) :
    rowAt (hdr.rename ρ) answer' (ρ.rename desc) =
      (rowAt hdr answer desc).map (Row.rename ρ.rename) := by
  unfold rowAt
  rw [ρ.lookup_entries, hsame]
  cases hdr.entries.lookup desc with
  | none => rfl
  | some h =>
    dsimp only [Option.map_some, Option.bind_some]
    rw [rowOf_rename]
    change (if h.accessFlags &&& 0x200 ≠ 0 then _ else _) = _
    split <;> rfl

theorem renamedAlike_of_clear (hclear : ¬hdr.RootedCycle t) : hdr.RenamedAlike t := by
  intro ρ
  obtain ⟨answer, hanswer⟩ := exists_answer hclear
  have hclear' := ρ.clear_rename hclear
  obtain ⟨answer', hanswer'⟩ := exists_answer hclear'
  obtain ⟨rows, hrun, hrows⟩ := rows_perm hclear hanswer
  obtain ⟨rows', hrun', hrows'⟩ := rows_perm hclear' hanswer'
  refine ⟨rows, rows', hrun, hrun', hrows'.trans ?_⟩
  refine List.Perm.trans (List.Perm.of_eq ?_) (hrows.map _).symm
  have hkeys : (hdr.rename ρ).entries.map Prod.fst =
      (hdr.entries.map Prod.fst).map ρ.rename := by
    unfold rename
    rw [List.map_map, List.map_map]
    rfl
  rw [hkeys, List.flatMap_map, List.map_flatMap]
  refine List.flatMap_congr fun d hd => ?_
  have hdeclared : (hdr.entries.lookup d).isSome = true :=
    Association.lookup_isSome_iff.mpr (List.mem_map.mp hd)
  have hdeclared' : ((hdr.rename ρ).entries.lookup (ρ.rename d)).isSome = true := by
    rw [ρ.lookup_entries, Option.isSome_map]
    exact hdeclared
  have hsame : answer' (ρ.rename d) = (answer d).rename ρ.rename :=
    (hanswer' _ hdeclared').unique (ρ.classified_rename (hanswer d hdeclared))
  rw [rowAt_rename ρ hsame]
  cases rowAt hdr answer d <;> rfl

/-- The tuples do not depend on the order in which the classes are asked for, and the
rows follow a renaming of the app, exactly when no class on a superclass cycle of two
or more reaches an interface root. -/
theorem classified_alike_iff (hdr : Headers α) (t : ComponentTable α) :
    (hdr.OrderIndependent t ∧ hdr.RenamedAlike t) ↔ ¬hdr.RootedCycle t := by
  constructor
  · intro h
    exact clear_of_orderIndependent h.1
  · intro hclear
    exact ⟨orderIndependent_of_clear hclear, renamedAlike_of_clear hclear⟩

/-- The interface root 0. -/
def lifecycleRoot : ComponentTable Nat where
  bases := []
  roots := [(0, ⟨"lifecycle", true⟩)]
  sdk := []

/-- Two classes that extend each other; the second implements the root. -/
def pairedClasses : Headers Nat where
  entries := [(1, ⟨some 2, [], 0, 1⟩), (2, ⟨some 1, [0], 0, 1⟩)]
  nodup := by decide

/-- Asked for first, class 1 is resolved through class 2; asked for after class 2, it
is no component. -/
theorem pairedClasses_differ :
    ¬(pairedClasses.OrderIndependent lifecycleRoot ∧
      pairedClasses.RenamedAlike lifecycleRoot) := by
  rintro ⟨hsame, -⟩
  obtain ⟨memo, memo', hrun, hrun', hagree⟩ := hsame [1, 2] [2, 1]
    (List.Perm.refl _) (List.Perm.swap 1 2 [])
  have hfirst : pairedClasses.classifyAll lifecycleRoot [1, 2] [] = some
      [(1, .resolved 0 "lifecycle" [2, 0]), (2, .resolved 0 "lifecycle" [0])] := by
    decide
  have hsecond : pairedClasses.classifyAll lifecycleRoot [2, 1] [] = some
      [(2, .resolved 0 "lifecycle" [0]), (1, .none)] := by
    decide
  rw [hfirst] at hrun
  rw [hsecond] at hrun'
  obtain rfl := Option.some.inj hrun
  obtain rfl := Option.some.inj hrun'
  exact absurd (hagree 1) (by decide)

end Headers

end Dexllm.Components
