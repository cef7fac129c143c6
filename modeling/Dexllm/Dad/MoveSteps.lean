import Mathlib.Logic.Function.Basic
import Dexllm.Lib.RoundLoop
import Dexllm.Dad.BoolMoves

/-!
The re-types by the move opcodes, after all others: a version that a `move-object` alone
defines is a reference and one that a plain or wide move defines is none, where its uses
allow that; and a version that plain moves alone define has the width of their sources.
The versions are visited in rounds, until a round re-types nothing or the rounds run out.
-/

namespace Dexllm

namespace Dad

/-- A definition, with its kind if it is a move, and whether only one constant reaches the
source there (`OnlyAConstantReaches`). -/
structure MoveDef where
  rhs : Option BoolRhs
  kind : Option MoveKind
  lone : Bool

def MoveDef.toBool (d : MoveDef) : BoolDef := ⟨d.rhs, d.kind.isSome, d.lone⟩

/-- The version a definition copies. -/
def MoveDef.source (d : MoveDef) : Option Vid := d.toBool.source

/-- What the pass knows of a method. -/
structure MovePass where
  /-- What the `Z` branch knows of it. -/
  flags : BoolPass
  defsOf : List (Vid × List MoveDef)
  defs_eq : flags.defsOf = defsOf.map fun e => (e.1, e.2.map MoveDef.toBool)
  /-- The types the other passes leave. -/
  types : Vid → Text

/-- The types of the versions, and those whose width has been re-typed (`width_retyped`). -/
structure MoveState where
  types : Vid → Text
  widthRetyped : List Vid

inductive WidthClass where
  | j | d | f | i
deriving DecidableEq

/-- `width_class`. -/
def widthClass (type : Text) : WidthClass :=
  if type = ascii "J" then .j else if type = ascii "D" then .d
  else if type = ascii "F" then .f else .i

def typeI : Text := ascii "I"

/-- The type of a right-hand side, at the types of the versions. -/
def BoolRhs.typeIn (types : Vid → Text) : BoolRhs → Text
  | .ident vid => types vid
  | .const type _ => type
  | .other type => type

/-- The loop of `move_width_type` over definitions: the type their sources agree on. -/
def agreeWidth (types : Vid → Text) : List MoveDef → (agreed : Text) → Option Text
  | [], agreed => some agreed
  | d :: ds, agreed =>
    match d.kind, d.rhs with
    | some .plain, some r =>
      let st := r.typeIn types
      if !isPrimDesc st then none
      else if agreed = [] then agreeWidth types ds st
      else if widthClass st ≠ widthClass agreed then none
      else agreeWidth types ds (if st ≠ agreed then typeI else agreed)
    | _, _ => none

/-- `move_width_type`. -/
def moveWidthType (types : Vid → Text) (ds : List MoveDef) (cur : Text) : Option Text :=
  match agreeWidth types ds [] with
  | none => none
  | some agreed =>
    if agreed = [] || !isPrimDesc cur then none
    else if widthClass agreed = .j || widthClass agreed = .d then none
    else if widthClass cur = widthClass agreed then none
    else some agreed

namespace MovePass

variable (p : MovePass)

def versions : List Vid := p.defsOf.map Prod.fst

/-- The definitions of a version that has some, and a Variable. -/
def defined (vid : Vid) : Option (List MoveDef) :=
  (definedIn p.defsOf p.flags.var vid).map Prod.fst

/-- The versions that a move of such a kind copies. -/
def isSource (kinds : MoveKind → Bool) (vid : Vid) : Bool :=
  p.defsOf.any fun e => e.2.any fun d => d.kind.any kinds && d.source = some vid

/-- `moveobj_src_vids`. -/
def moveobjSrc (vid : Vid) : Bool := p.isSource (· = .object) vid

/-- `moveprim_src_vids`. -/
def moveprimSrc (vid : Vid) : Bool := p.isSource (fun k => k = .plain || k = .wide) vid

/-- `srcs_ok`: every source is a boolean, or rendered as its constant. -/
def srcsOk (types : Vid → Text) (vid : Vid) (ds : List MoveDef) : Bool :=
  ds.all fun d => d.source.all fun sid =>
    !((sid, vid) ∈ p.flags.flows : Bool) || types sid = typeZ

/-- The type the width branch gives a version: that of the sources, or `Z`. -/
def widthType (types : Vid → Text) (vid : Vid) (ds : List MoveDef) (cur : Text) : Option Text :=
  (moveWidthType types ds cur).map fun w =>
    if w = typeI && p.flags.boolUse vid && !p.flags.numericUse vid && !p.flags.objectVids vid &&
        p.flags.allDefsBoolValued vid (ds.map MoveDef.toBool) && p.srcsOk types vid ds
    then typeZ else w

/-- The type the kind branches give a version: that of the one source. -/
def kindType (types : Vid → Text) (vid : Vid) (ds : List MoveDef) (cur : Text) : Option Text :=
  match ds with
  | [⟨some r, some kind, _⟩] =>
    let st := r.typeIn types
    if kind = .object ∧ isPrimDesc cur ∧ isRef st ∧ !p.flags.intUse vid ∧ !p.moveprimSrc vid then
      some st
    else if (kind = .plain ∨ kind = .wide) ∧ isRef cur ∧ isPrimDesc st ∧
        !p.flags.objectVids vid ∧ !p.moveobjSrc vid then
      some st
    else none
  | _ => none

/-- One visit of a version, where it re-types it. -/
def visit (s : MoveState) (vid : Vid) : Option MoveState :=
  match p.defined vid with
  | none => none
  | some ds =>
    match if vid ∈ s.widthRetyped then none else p.widthType s.types vid ds (s.types vid) with
    | some w => some ⟨Function.update s.types vid w, vid :: s.widthRetyped⟩
    | none =>
      (p.kindType s.types vid ds (s.types vid)).map fun st =>
        ⟨Function.update s.types vid st, s.widthRetyped⟩

/-- The re-types of its kind that a version is open to: one, where the one move that defines
it has another. -/
def openKind (type : Text) : List MoveDef → Nat
  | [⟨some _, some .object, _⟩] => if isPrimDesc type then 1 else 0
  | [⟨some _, some .plain, _⟩] => if isRef type then 1 else 0
  | [⟨some _, some .wide, _⟩] => if isRef type then 1 else 0
  | _ => 0

/-- The re-types a version is open to: those of its kind, and one of its width where plain
moves alone define it. -/
def openRetypes (s : MoveState) (vid : Vid) : Nat :=
  match p.defined vid with
  | none => 0
  | some ds =>
    (if (ds.all fun d => d.kind = some .plain) ∧ vid ∉ s.widthRetyped then 1 else 0) +
      openKind (s.types vid) ds

/-- The re-types that the versions are open to before the rounds. -/
def openAtStart : Nat := (p.versions.map (p.openRetypes ⟨p.types, []⟩)).sum

/-- The rounds, over the versions in an order: the state, and whether the last round still
re-typed a version. -/
def retyped (order : List Vid) (cap : Nat) : MoveState × Bool :=
  RoundLoop.run p.visit order cap ⟨p.types, []⟩

/-- No version whose width has been re-typed is itself the source of a plain or wide move. -/
def WidthsUnread (s : MoveState) : Prop := ∀ v ∈ s.widthRetyped, p.moveprimSrc v = false

end MovePass

/-- The cap of the rounds. -/
def maxRounds : Nat := 32

/-- Both are references, or both primitives, or neither. -/
def SameKind (type type' : Text) : Prop :=
  isRef type = isRef type' ∧ isPrimDesc type = isPrimDesc type'

end Dad

end Dexllm

/-!
What one visit of the re-types by the move opcodes can do, and what every run keeps.
-/

namespace Dexllm

namespace Dad

variable {types types' : Vid → Text} {ds : List MoveDef} {cur cur' w w' : Text} {v : Vid}

section Widths

/-- All the definitions are plain moves, of primitives. -/
def PlainMoves (types : Vid → Text) (ds : List MoveDef) : Prop :=
  ∀ d ∈ ds, d.kind = some .plain ∧ ∃ r, d.rhs = some r ∧ isPrimDesc (r.typeIn types) = true

/-- Definitions whose sources agree are plain moves of primitives. -/
theorem agreeWidth_spec {a b : Text} (h : agreeWidth types ds a = some b)
    (ha : a = [] ∨ isPrimDesc a = true) :
    PlainMoves types ds ∧ (b = [] ∨ isPrimDesc b = true) := by
  induction ds generalizing a with
  | nil =>
    cases h
    exact ⟨List.forall_mem_nil _, ha⟩
  | cons d ds ih =>
    rw [agreeWidth] at h
    rcases hkind : d.kind with _ | _ | _ | _ | _ <;> rcases hrhs : d.rhs with _ | r <;>
      simp only [hkind, hrhs] at h <;> try cases h
    split_ifs at h with hprim hempty hclass hne
    all_goals
      have hr : isPrimDesc (r.typeIn types) = true := by simpa using hprim
      suffices hrest : PlainMoves types ds ∧ (b = [] ∨ isPrimDesc b = true) from
        ⟨List.forall_mem_cons.mpr ⟨⟨hkind, r, hrhs, hr⟩, hrest.1⟩, hrest.2⟩
    · exact ih h (.inr hr)
    · exact ih h (.inr (by decide))
    · exact ih h ha

theorem agreeWidth_congr {a : Text}
    (h : ∀ d ∈ ds, ∀ r, d.rhs = some r → r.typeIn types = r.typeIn types') :
    agreeWidth types ds a = agreeWidth types' ds a := by
  induction ds generalizing a with
  | nil => rfl
  | cons d ds ih =>
    obtain ⟨hd, hds⟩ := List.forall_mem_cons.mp h
    rcases hkind : d.kind with _ | _ | _ | _ | _ <;> rcases hrhs : d.rhs with _ | r <;>
      simp only [agreeWidth, hkind, hrhs]
    simp only [hd r hrhs, ih hds]

theorem moveWidthType_spec (h : moveWidthType types ds cur = some w) :
    PlainMoves types ds ∧
      isPrimDesc w = true ∧ isPrimDesc cur = true ∧ widthClass cur ≠ widthClass w := by
  rw [moveWidthType] at h
  cases hagree : agreeWidth types ds [] with
  | none => simp [hagree] at h
  | some agreed =>
    simp only [hagree] at h
    split_ifs at h with hempty hwide hclass
    cases h
    obtain ⟨hds, hprim⟩ := agreeWidth_spec hagree (.inl rfl)
    simp only [Bool.or_eq_true, decide_eq_true_eq, Bool.not_eq_true', not_or,
      Bool.not_eq_false] at hempty
    exact ⟨hds, hprim.resolve_left hempty.1, hempty.2, hclass⟩

/-- The current type decides whether the width is re-typed, not to what. -/
theorem moveWidthType_unique (h : moveWidthType types ds cur = some w)
    (h' : moveWidthType types ds cur' = some w') : w = w' := by
  rw [moveWidthType] at h h'
  cases hagree : agreeWidth types ds [] with
  | none => simp [hagree] at h
  | some agreed =>
    simp only [hagree] at h h'
    split_ifs at h h'
    exact (Option.some.inj h).symm.trans (Option.some.inj h')

end Widths

namespace MovePass

variable {p : MovePass}

theorem widthType_spec (h : p.widthType types v ds cur = some w) :
    PlainMoves types ds ∧
      isPrimDesc w = true ∧ isPrimDesc cur = true := by
  rw [widthType, Option.map_eq_some_iff] at h
  obtain ⟨w₀, hw₀, rfl⟩ := h
  obtain ⟨hds, hprim, hcur, -⟩ := moveWidthType_spec hw₀
  refine ⟨hds, ?_, hcur⟩
  split
  · decide
  · exact hprim

theorem widthType_unique (h : p.widthType types v ds cur = some w)
    (h' : p.widthType types v ds cur' = some w') : w = w' := by
  rw [widthType, Option.map_eq_some_iff] at h h'
  obtain ⟨w₀, hw₀, rfl⟩ := h
  obtain ⟨w₁, hw₁, rfl⟩ := h'
  rw [moveWidthType_unique hw₀ hw₁]

theorem widthType_congr
    (h : ∀ d ∈ ds, ∀ r, d.rhs = some r → r.typeIn types = r.typeIn types') :
    p.widthType types v ds cur = p.widthType types' v ds cur := by
  have hsrcs : p.srcsOk types v ds = p.srcsOk types' v ds := by
    rw [Bool.eq_iff_iff]
    unfold srcsOk
    rw [List.all_eq_true, List.all_eq_true]
    refine forall₂_congr fun d hd => ?_
    rcases hsource : d.source with _ | sid
    · rfl
    · have hrhs : d.rhs = some (.ident sid) := by
        unfold MoveDef.source BoolDef.source MoveDef.toBool at hsource
        rcases hr : d.rhs with _ | _ | _ | _ <;> simp_all
      have htype : types sid = types' sid := h d hd _ hrhs
      simp only [Option.all_some, htype]
  rw [widthType, widthType, moveWidthType, moveWidthType, agreeWidth_congr h, hsrcs]

/-- A version with one definition of the type of its source has its width. -/
theorem widthType_single {r : BoolRhs} {kind : Option MoveKind} {lone : Bool} :
    p.widthType types v [⟨some r, kind, lone⟩] (r.typeIn types) = none := by
  rw [widthType, Option.map_eq_none_iff, moveWidthType]
  rcases kind with _ | _ | _ | _ | _ <;> simp only [agreeWidth]
  by_cases hprim : isPrimDesc (r.typeIn types) = true <;> simp [hprim]

/-- What one visit of `v` can do. -/
inductive Step (p : MovePass) (s : MoveState) (v : Vid) : MoveState → Prop where
  | width {ds : List MoveDef} {w : Text} (hds : p.defined v = some ds)
      (hfresh : v ∉ s.widthRetyped) (hw : p.widthType s.types v ds (s.types v) = some w) :
      Step p s v ⟨Function.update s.types v w, v :: s.widthRetyped⟩
  | object {r : BoolRhs} {lone : Bool} (hds : p.defined v = some [⟨some r, some .object, lone⟩])
      (hcur : isPrimDesc (s.types v) = true) (hsrc : isRef (r.typeIn s.types) = true)
      (huse : p.flags.intUse v = false) (hmove : p.moveprimSrc v = false) :
      Step p s v ⟨Function.update s.types v (r.typeIn s.types), s.widthRetyped⟩
  | prim {r : BoolRhs} {kind : MoveKind} {lone : Bool}
      (hds : p.defined v = some [⟨some r, some kind, lone⟩]) (hkind : kind = .plain ∨ kind = .wide)
      (hcur : isRef (s.types v) = true) (hsrc : isPrimDesc (r.typeIn s.types) = true)
      (huse : p.flags.objectVids v = false) (hmove : p.moveobjSrc v = false) :
      Step p s v ⟨Function.update s.types v (r.typeIn s.types), s.widthRetyped⟩

variable {s s' F : MoveState}

theorem kindType_spec (h : p.kindType types v ds cur = some w) :
    ∃ r kind lone, ds = [⟨some r, some kind, lone⟩] ∧ w = r.typeIn types ∧
      ((kind = .object ∧ isPrimDesc cur = true ∧ isRef w = true ∧ p.flags.intUse v = false ∧
          p.moveprimSrc v = false) ∨
        ((kind = .plain ∨ kind = .wide) ∧ isRef cur = true ∧ isPrimDesc w = true ∧
          p.flags.objectVids v = false ∧ p.moveobjSrc v = false)) := by
  unfold kindType at h
  split at h
  · rename_i r kind lone
    refine ⟨r, kind, lone, rfl, ?_⟩
    simp only [Bool.not_eq_true'] at h
    split_ifs at h with hobject hprim
    · cases h
      exact ⟨rfl, .inl hobject⟩
    · cases h
      exact ⟨rfl, .inr hprim⟩
  · cases h

theorem step_of_visit (h : p.visit s v = some s') : Step p s v s' := by
  rw [visit] at h
  cases hds : p.defined v with
  | none => simp [hds] at h
  | some ds =>
    simp only [hds] at h
    split at h
    · rename_i w hw
      cases h
      split_ifs at hw with hfresh
      exact .width hds hfresh hw
    · obtain ⟨w, hw, rfl⟩ := Option.map_eq_some_iff.mp h
      obtain ⟨r, kind, lone, rfl, rfl, hobject | hprim⟩ := kindType_spec hw
      · obtain ⟨rfl, hcur, hsrc, huse, hmove⟩ := hobject
        exact .object hds hcur hsrc huse hmove
      · obtain ⟨hkind, hcur, hsrc, huse, hmove⟩ := hprim
        exact .prim hds hkind hcur hsrc huse hmove

/-- A visit with nothing to do finds the width right. -/
theorem widthType_of_quiet (h : p.visit F v = none) (hds : p.defined v = some ds)
    (hfresh : v ∉ F.widthRetyped) : p.widthType F.types v ds (F.types v) = none := by
  by_contra hne
  obtain ⟨w, hw⟩ := Option.ne_none_iff_exists'.mp hne
  rw [visit] at h
  simp [hds, hfresh, hw] at h

theorem kindType_of_quiet (h : p.visit F v = none) (hds : p.defined v = some ds) :
    p.kindType F.types v ds (F.types v) = none := by
  rw [visit] at h
  simp only [hds] at h
  split at h
  · cases h
  · exact Option.map_eq_none_iff.mp h

/-- A visit with nothing to do finds the target of a reference's move no primitive. -/
theorem not_prim_of_quiet {r : BoolRhs} {lone : Bool} (h : p.visit F v = none)
    (hds : p.defined v = some [⟨some r, some .object, lone⟩])
    (hsrc : isRef (r.typeIn F.types) = true) (huse : p.flags.intUse v = false)
    (hmove : p.moveprimSrc v = false) : isPrimDesc (F.types v) = false := by
  by_contra hcur
  have hkind := kindType_of_quiet h hds
  simp [kindType, hsrc, huse, hmove, hcur] at hkind

/-- A visit with nothing to do finds the target of a primitive's move no reference. -/
theorem not_ref_of_quiet {r : BoolRhs} {kind : MoveKind} {lone : Bool} (h : p.visit F v = none)
    (hds : p.defined v = some [⟨some r, some kind, lone⟩]) (hkind : kind = .plain ∨ kind = .wide)
    (hsrc : isPrimDesc (r.typeIn F.types) = true) (huse : p.flags.objectVids v = false)
    (hmove : p.moveobjSrc v = false) : isRef (F.types v) = false := by
  by_contra hcur
  have hnone := kindType_of_quiet h hds
  rcases hkind with rfl | rfl <;> simp [kindType, hsrc, huse, hmove, hcur] at hnone

section Sources

variable {d : MoveDef} {u : Vid}

theorem defined_mem (h : p.defined v = some ds) : (v, ds) ∈ p.defsOf := by
  obtain ⟨⟨ds', var⟩, hdefined, rfl⟩ := Option.map_eq_some_iff.mp h
  exact Association.mem_of_lookup (definedIn_eq_some.mp hdefined).1

theorem isSource_of_defined {kinds : MoveKind → Bool} {kind : MoveKind}
    (h : p.defined v = some ds) (hd : d ∈ ds) (hrhs : d.rhs = some (.ident u))
    (hkind : d.kind = some kind) (hkinds : kinds kind = true) : p.isSource kinds u = true := by
  unfold isSource
  rw [List.any_eq_true]
  refine ⟨_, defined_mem h, List.any_eq_true.mpr ⟨d, hd, ?_⟩⟩
  have hsource : d.source = some u := by
    simp [MoveDef.source, MoveDef.toBool, BoolDef.source, hrhs]
  simp [hkind, hkinds, hsource]

end Sources

theorem isRef_ne_isPrimDesc {type : Text} (href : isRef type = true)
    (hprim : isPrimDesc type = true) : False := by
  rw [not_isRef_of_isPrimDesc hprim] at href
  cases href

theorem Step.types_of_ne {u : Vid} (h : Step p s v s') (hne : u ≠ v) :
    s'.types u = s.types u := by
  cases h with
  | width _ _ _ => exact Function.update_of_ne hne _ _
  | object _ _ _ _ _ => exact Function.update_of_ne hne _ _
  | prim _ _ _ _ _ _ => exact Function.update_of_ne hne _ _

/-- A reference that a `move-object` copies stays as it is. -/
theorem Step.ref_source {u : Vid} (h : Step p s v s') (hsrc : p.moveobjSrc u = true)
    (href : isRef (s.types u) = true) : s'.types u = s.types u := by
  by_cases hne : u = v
  · subst hne
    cases h with
    | width _ _ hw => exact (isRef_ne_isPrimDesc href (widthType_spec hw).2.2).elim
    | object _ hcur _ _ _ => exact (isRef_ne_isPrimDesc href hcur).elim
    | prim _ _ _ _ _ hmove => simp [hsrc] at hmove
  · exact h.types_of_ne hne

/-- A primitive that a plain or wide move copies stays one. -/
theorem Step.prim_source {u : Vid} (h : Step p s v s') (hsrc : p.moveprimSrc u = true)
    (hprim : isPrimDesc (s.types u) = true) : isPrimDesc (s'.types u) = true := by
  by_cases hne : u = v
  · subst hne
    cases h with
    | width _ _ hw => simpa using (widthType_spec hw).2.1
    | object _ _ _ _ hmove => simp [hsrc] at hmove
    | prim _ _ hcur _ _ _ => exact (isRef_ne_isPrimDesc hcur hprim).elim
  · rw [h.types_of_ne hne]
    exact hprim

theorem Step.ref_typeIn {r : BoolRhs} {u : Vid} {lone : Bool} (h : Step p s v s')
    (hds : p.defined u = some [⟨some r, some .object, lone⟩])
    (href : isRef (r.typeIn s.types) = true) : r.typeIn s'.types = r.typeIn s.types := by
  cases r with
  | ident sid =>
    have hsrc : p.moveobjSrc sid = true :=
      isSource_of_defined hds List.mem_cons_self rfl rfl (by decide)
    exact h.ref_source hsrc href
  | const _ _ => rfl
  | other _ => rfl

/-- `v` is defined by one `move-object`. -/
def ByObject (p : MovePass) (v : Vid) (r : BoolRhs) : Prop :=
  ∃ lone, p.defined v = some [⟨some r, some .object, lone⟩]

/-- What every run keeps. -/
structure Kept (p : MovePass) (s : MoveState) : Prop where
  primSrc : ∀ u, p.moveprimSrc u = true → isPrimDesc (p.types u) = true →
    isPrimDesc (s.types u) = true
  objSrc : ∀ u, p.moveobjSrc u = true → isRef (p.types u) = true → s.types u = p.types u
  object : ∀ u r, ByObject p u r → s.types u = p.types u ∨
    isRef (r.typeIn s.types) = true ∧ s.types u = r.typeIn s.types
  other : ∀ u, (∀ r, ¬ ByObject p u r) → s.types u = p.types u ∨ isPrimDesc (s.types u) = true

theorem Kept.start : Kept p ⟨p.types, []⟩ where
  primSrc _ _ h := h
  objSrc _ _ _ := rfl
  object _ _ _ := .inl rfl
  other _ _ := .inl rfl

theorem not_byObject_of_width (hds : p.defined v = some ds)
    (hw : p.widthType types v ds cur = some w) (r : BoolRhs) : ¬ ByObject p v r := by
  rintro ⟨lone, hdef⟩
  rw [hds] at hdef
  cases hdef
  obtain ⟨hplain, -⟩ := (widthType_spec hw).1 _ List.mem_cons_self
  cases hplain

theorem not_byObject_of_prim {r r' : BoolRhs} {kind : MoveKind} {lone : Bool}
    (hds : p.defined v = some [⟨some r, some kind, lone⟩]) (hkind : kind = .plain ∨ kind = .wide) :
    ¬ ByObject p v r' := by
  rintro ⟨lone', hdef⟩
  rw [hds] at hdef
  cases hdef
  rcases hkind with hkind | hkind <;> cases hkind

theorem Kept.step (hkept : Kept p s) (h : Step p s v s') : Kept p s' where
  primSrc u hsrc hprim := h.prim_source hsrc (hkept.primSrc u hsrc hprim)
  objSrc u hsrc href := by
    have hsame : s.types u = p.types u := hkept.objSrc u hsrc href
    rw [h.ref_source hsrc (by rw [hsame]; exact href), hsame]
  object u r hdef := by
    obtain ⟨lone, hds⟩ := hdef
    by_cases hne : u = v
    · subst hne
      cases h with
      | width hds' _ hw => exact (not_byObject_of_width hds' hw r ⟨lone, hds⟩).elim
      | @object r' lone' hds' hcur href huse hmove =>
        cases hds.symm.trans hds'
        have hstep : Step p s u _ := .object hds hcur href huse hmove
        rw [hstep.ref_typeIn hds href]
        exact .inr ⟨href, Function.update_self _ _ _⟩
      | prim hds' hkind _ _ _ _ => exact (not_byObject_of_prim hds' hkind ⟨lone, hds⟩).elim
    · rw [h.types_of_ne hne]
      refine (hkept.object u r ⟨lone, hds⟩).imp_right fun ⟨href, htype⟩ => ?_
      rw [h.ref_typeIn hds href]
      exact ⟨href, htype⟩
  other u hother := by
    by_cases hne : u = v
    · subst hne
      cases h with
      | width _ _ hw => exact .inr (by simpa using (widthType_spec hw).2.1)
      | object hds _ _ _ _ => exact (hother _ ⟨_, hds⟩).elim
      | prim _ _ _ hsrc _ _ => exact .inr (by simpa using hsrc)
    · rw [h.types_of_ne hne]
      exact hkept.other u hother
end MovePass

end Dad

end Dexllm
