import Mathlib.Data.Finset.Card
import Mathlib.Order.BoundedOrder.Basic
import Mathlib.Order.Lattice
import Mathlib.Logic.Function.Basic
import Dexllm.JavaText
import Dexllm.Dad.GroundTypes

/-!
The narrow integral types and the transfer of the narrow-integral pass: the type
of a version from the types of the versions that its definitions move or combine.
The worklist `forward` raises the types until no transfer gives more.
-/

namespace Dexllm

namespace Dad

/-- A narrow integral type (`is_nint`), or the empty text. -/
inductive Narrow where
  | empty | z | b | s | c | i
deriving DecidableEq

namespace Narrow

/-- `join`. -/
def join (t u : Narrow) : Narrow :=
  if t = empty then u
  else if u = empty ∨ t = u then t
  else if t = z ∨ u = z then i
  else if (t = b ∨ t = s) ∧ (u = b ∨ u = s) then s
  else i

/-- `fits`. -/
def fits (w : Narrow) (v : Int) : Bool :=
  match w with
  | z => v = 0 || v = 1
  | b => -128 ≤ v && v ≤ 127
  | s => -32768 ≤ v && v ≤ 32767
  | c => 0 ≤ v && v ≤ 65535
  | _ => true

instance : Max Narrow := ⟨join⟩

theorem join_comm (t u : Narrow) : t ⊔ u = u ⊔ t := by
  cases t <;> cases u <;> rfl

theorem join_assoc (t u v : Narrow) : t ⊔ u ⊔ v = t ⊔ (u ⊔ v) := by
  cases t <;> cases u <;> cases v <;> rfl

theorem join_self (t : Narrow) : t ⊔ t = t := by
  cases t <;> rfl

instance : SemilatticeSup Narrow := SemilatticeSup.mk' join_comm join_assoc join_self

theorem le_iff {t u : Narrow} : t ≤ u ↔ t ⊔ u = u := Iff.rfl

instance : OrderBot Narrow where
  bot := empty
  bot_le t := by cases t <;> rfl

instance : DecidableLE Narrow := fun t u => decidable_of_iff (t ⊔ u = u) le_iff.symm

theorem empty_le (t : Narrow) : empty ≤ t := bot_le

theorem le_empty {t : Narrow} : t ≤ empty ↔ t = empty := le_bot_iff

@[simp] theorem empty_sup (t : Narrow) : empty ⊔ t = t := bot_sup_eq t

@[simp] theorem sup_empty (t : Narrow) : t ⊔ empty = t := sup_bot_eq t

/-- How often a type can still rise. -/
def rises : Narrow → Nat
  | empty => 3
  | b => 2
  | z | s | c => 1
  | i => 0

theorem rises_le (t : Narrow) : t.rises ≤ 3 := by
  cases t <;> decide

theorem rises_lt {t u : Narrow} (hle : t ≤ u) (hne : u ≠ t) : u.rises < t.rises := by
  rw [le_iff] at hle
  cases t <;> cases u <;> first | exact absurd rfl hne | decide | exact absurd hle (by decide)

/-- A wider type holds what a narrower one does. -/
theorem fits_mono {t u : Narrow} (hle : t ≤ u) (hne : t ≠ empty) {v : Int}
    (hfits : t.fits v = true) : u.fits v = true := by
  rw [le_iff] at hle
  cases t <;> cases u <;>
    first
      | rfl
      | exact hfits
      | exact absurd rfl hne
      | exact absurd hle (by decide)
      | skip
  simp only [fits, Bool.and_eq_true, decide_eq_true_eq] at hfits ⊢
  omega

/-- The widening of one constant. -/
def widenOne (t : Narrow) (v : Int) : Narrow :=
  if t.fits v then t else if t = b ∧ s.fits v then s else i

/-- The narrowest type from `t` on that holds the constants. -/
def widen (t : Narrow) (consts : List Int) : Narrow := consts.foldl widenOne t

theorem le_widenOne (t : Narrow) (v : Int) : t ≤ t.widenOne v := by
  unfold widenOne
  split
  · exact le_rfl
  split
  · rename_i h
    rw [h.1]
    decide
  · cases t <;> decide

theorem widenOne_mono {t t' : Narrow} (hle : t ≤ t') (hne : t ≠ empty) (v : Int) :
    t.widenOne v ≤ t'.widenOne v := by
  by_cases hfits : t.fits v = true
  · rw [widenOne, if_pos hfits]
    exact le_trans hle (le_widenOne t' v)
  have hi (t : Narrow) : t ≤ i := by cases t <;> decide
  by_cases hs : t = b ∧ s.fits v = true
  · rw [widenOne, if_neg hfits, if_pos hs]
    obtain ⟨rfl, hs⟩ := hs
    rw [le_iff] at hle
    cases t' with
    | b => simp [widenOne, hfits, hs]
    | s => simp [widenOne, hs]
    | i => exact hi s
    | _ => exact absurd hle (by decide)
  · have hwide : t'.widenOne v = i := by
      rw [le_iff] at hle
      cases t <;> cases t' <;>
        first
          | exact absurd rfl hne
          | exact absurd hle (by decide)
          | rfl
          | rw [widenOne, if_neg hfits, if_neg hs]
          | skip
      -- a byte that rises to a short
      have hout : ¬s.fits v = true := fun h => hs ⟨rfl, h⟩
      simp [widenOne, hout]
    rw [hwide]
    exact hi _

theorem le_widen (t : Narrow) (consts : List Int) : t ≤ t.widen consts := by
  induction consts generalizing t with
  | nil => exact le_rfl
  | cons v consts ih => exact le_trans (le_widenOne t v) (ih _)

theorem ne_empty_of_le {t t' : Narrow} (hle : t ≤ t') (hne : t ≠ empty) : t' ≠ empty := by
  rintro rfl
  exact hne (le_empty.mp hle)

theorem widen_mono {t t' : Narrow} (hle : t ≤ t') (hne : t ≠ empty) (consts : List Int) :
    t.widen consts ≤ t'.widen consts := by
  induction consts generalizing t t' with
  | nil => exact hle
  | cons v consts ih =>
    exact ih (widenOne_mono hle hne v) (ne_empty_of_le (le_widenOne t v) hne)

theorem widenOne_fits (t : Narrow) (v : Int) : (t.widenOne v).fits v = true := by
  unfold widenOne
  split
  · assumption
  split
  · rename_i h
    exact h.2
  · rfl

theorem widen_fits {t : Narrow} (hne : t ≠ empty) {consts : List Int} {v : Int} (hv : v ∈ consts) :
    (t.widen consts).fits v = true := by
  induction consts generalizing t with
  | nil => cases hv
  | cons v' consts ih =>
    have hne' := ne_empty_of_le (le_widenOne t v') hne
    obtain rfl | hv := List.mem_cons.mp hv
    · exact fits_mono (le_widen _ consts) hne' (widenOne_fits t v)
    · exact ih hne' hv

theorem widen_eq_self {t : Narrow} {consts : List Int} (h : ∀ v ∈ consts, t.fits v = true) :
    t.widen consts = t := by
  induction consts with
  | nil => rfl
  | cons v consts ih =>
    obtain ⟨hv, hrest⟩ := List.forall_mem_cons.mp h
    rw [widen, List.foldl_cons, widenOne, if_pos hv]
    exact ih hrest

/-- The join of a list. -/
def joinAll (ts : List Narrow) : Narrow := ts.foldr (· ⊔ ·) empty

@[simp] theorem joinAll_cons (t : Narrow) (ts : List Narrow) :
    joinAll (t :: ts) = t ⊔ joinAll ts := rfl

theorem le_joinAll {t : Narrow} {ts : List Narrow} (ht : t ∈ ts) : t ≤ joinAll ts := by
  induction ts with
  | nil => cases ht
  | cons t' ts ih =>
    obtain rfl | ht := List.mem_cons.mp ht
    · exact le_sup_left
    · exact le_trans (ih ht) le_sup_right

theorem joinAll_le {t : Narrow} {ts : List Narrow} (h : ∀ t' ∈ ts, t' ≤ t) : joinAll ts ≤ t := by
  induction ts with
  | nil => exact empty_le t
  | cons t' ts ih =>
    obtain ⟨ht', hrest⟩ := List.forall_mem_cons.mp h
    exact sup_le ht' (ih hrest)

theorem joinAll_mono {α : Type} {f g : α → Narrow} {as : List α} (h : ∀ a ∈ as, f a ≤ g a) :
    joinAll (as.map f) ≤ joinAll (as.map g) := by
  refine joinAll_le fun t ht => ?_
  obtain ⟨a, ha, rfl⟩ := List.mem_map.mp ht
  exact le_trans (h a ha) (le_joinAll (List.mem_map_of_mem ha))

end Narrow

end Dad

end Dexllm

/-!
`forward` of the narrow-integral pass, over the versions with their definitions:
a worklist that evaluates a version and, when its type rises or it is tainted,
puts its users back. What a transfer gives is the join of what the definitions
read, closed under the constants and the uses of the version.
-/

namespace Dexllm

namespace Dad

/-- A source version of a definition, with the constant that alone reaches it there
(`lone_const_value`). -/
structure NarrowSrc where
  vid : Vid
  lone : Option Int

/-- One input to a version: a typed producer, a constant, a source version (a move),
or a bitwise definition over several of those. -/
structure NarrowIn where
  type : Narrow
  consts : List Int
  srcs : List NarrowSrc
  bitwise : Bool

structure NarrowNode where
  ins : List NarrowIn
  foreign : Bool

/-- What the pass has collected of a method, with what decides whether a version is
typed at all and whether its uses rule out `Z`. -/
structure NarrowPass where
  nodes : List (Vid × NarrowNode)
  nodup : (nodes.map Prod.fst).Nodup
  eligible : Vid → Bool
  zForbidden : Vid → Bool

/-- The maps of the pass and the worklist. -/
structure NarrowState where
  ty : Vid → Narrow
  bad : Vid → Bool
  floorTy : Vid → Narrow
  work : List Vid

/-- Whether a definition's own shape gives the version a type. -/
def NarrowNode.decides (nd : NarrowNode) : Bool :=
  nd.ins.any fun d => d.type ≠ .empty || d.bitwise || d.srcs.any fun s => s.lone.isNone

/-- The constant that a move carries for its source, whose type it then does not read. -/
def NarrowIn.carried (d : NarrowIn) (decides : Bool) (s : NarrowSrc) : Option Int :=
  if !d.bitwise && decides then s.lone else none

/-- The loop over the sources of one definition: the join of their types and the
constants carried, or `none` for a tainted source. -/
def NarrowIn.gather (d : NarrowIn) (decides : Bool) (σ : NarrowState) :
    List NarrowSrc → Narrow → List Int → Option (Narrow × List Int)
  | [], t, lone => some (t, lone)
  | s :: srcs, t, lone =>
    match d.carried decides s with
    | some v => d.gather decides σ srcs t (lone ++ [v])
    | none => if σ.bad s.vid then none else d.gather decides σ srcs (t ⊔ σ.ty s.vid) lone

/-- The type of a bitwise definition whose operands have the joint type `t`: `Z` only
when every operand is, and nothing while they are not resolved. -/
def NarrowIn.bitwiseType (d : NarrowIn) (t : Narrow) : Narrow :=
  if t = .empty ∧ d.srcs ≠ [] ∧ d.consts.all Narrow.z.fits then .empty
  else if t ≠ .empty ∨ d.consts ≠ [] then
    if t = .z ∧ d.consts.all Narrow.z.fits then .z else .i
  else t

/-- The loop over the definitions of a version. -/
def NarrowNode.gather (decides : Bool) (σ : NarrowState) :
    List NarrowIn → Narrow → List Int → Option (Narrow × List Int)
  | [], t, consts => some (t, consts)
  | d :: ins, t, consts =>
    match d.gather decides σ d.srcs d.type [] with
    | none => none
    | some (u, lone) =>
      if d.bitwise then gather decides σ ins (t ⊔ d.bitwiseType u) consts
      else gather decides σ ins (t ⊔ u) (consts ++ d.consts ++ lone)

/-- The versions of `vids` that are not queued join the queue. -/
def pushAll (vids work : List Vid) : List Vid :=
  vids.foldl (fun work w => if w ∈ work then work else work ++ [w]) work

/-- The source `s` of a version that has risen to `j` must rise with it. -/
def NarrowState.lift (j : Narrow) (σ : NarrowState) (s : Vid) : NarrowState :=
  if σ.ty s ⊔ j = σ.ty s then σ
  else { σ with
    floorTy := Function.update σ.floorTy s (σ.floorTy s ⊔ j), work := pushAll [s] σ.work }

namespace NarrowPass

variable (p : NarrowPass)

def order : List Vid := p.nodes.map Prod.fst

def node (vid : Vid) : NarrowNode := (p.nodes.lookup vid).getD ⟨[], false⟩

/-- `users`: a version once for every move or operand out of `vid`. -/
def users (vid : Vid) : List Vid :=
  p.nodes.flatMap fun (w, nd) => nd.ins.flatMap fun d =>
    (d.srcs.filter fun s => s.vid = vid).map fun _ => w

/-- The transfer of one version: `none` for taint, the empty type for constants only. -/
def transfer (σ : NarrowState) (vid : Vid) : Option Narrow :=
  match NarrowNode.gather (p.node vid).decides σ (p.node vid).ins .empty [] with
  | none => none
  | some (t, consts) =>
    let t := t ⊔ σ.floorTy vid
    some (if t = .empty then .empty
      else
        let t := t.widen consts
        if t = .z ∧ p.zForbidden vid then .i else t)

/-- One round of `forward`, for a version taken from the queue: `users` are its users
and `sources` the ones it was assigned from. -/
def visit (users sources : List Vid) (σ : NarrowState) (vid : Vid) : NarrowState :=
  if σ.bad vid then σ
  else match p.transfer σ vid with
    | none => { σ with bad := Function.update σ.bad vid true, work := pushAll users σ.work }
    | some t =>
      let j := σ.ty vid ⊔ t
      if j = σ.ty vid then σ
      else sources.foldl (NarrowState.lift j)
        { σ with ty := Function.update σ.ty vid j, work := pushAll users σ.work }

/-- `typed_from`. -/
abbrev Lifts := List (Vid × List Vid)

def Lifts.of (lifts : Lifts) (vid : Vid) : List Vid := (lifts.lookup vid).getD []

/-- `forward`, for at most `fuel` rounds. -/
def forwardFor (lifts : Lifts) : (fuel : Nat) → NarrowState → NarrowState
  | 0, σ => σ
  | fuel + 1, σ =>
    match σ.work with
    | [] => σ
    | vid :: work =>
      forwardFor lifts fuel (p.visit (p.users vid) (lifts.of vid) { σ with work := work } vid)

/-- The versions that can be queued. -/
def scope (lifts : Lifts) : List Vid := p.order ++ lifts.flatMap Prod.snd

/-- The rounds that `forward` takes at most. -/
def rounds (lifts : Lifts) : Nat :=
  4 * (p.scope lifts).length * ((p.scope lifts).length + 1) + (p.scope lifts).length

/-- `forward`. -/
def forward (lifts : Lifts) (σ : NarrowState) : NarrowState :=
  p.forwardFor lifts (p.rounds lifts) σ

/-- The state of the first call: every version is queued, and the ones that take no type
are bad. -/
def start : NarrowState where
  ty _ := .empty
  bad vid := vid ∈ p.order && ((p.node vid).foreign || !p.eligible vid)
  floorTy _ := .empty
  work := p.order

end NarrowPass

section Transfer

variable {p : NarrowPass} {σ : NarrowState}

/-- The sources whose types a definition reads. -/
def NarrowIn.reads (d : NarrowIn) (decides : Bool) : List NarrowSrc :=
  d.srcs.filter fun s => (d.carried decides s).isNone

/-- What a definition gives to the type of its version. -/
def NarrowIn.gives (d : NarrowIn) (decides : Bool) (ty : Vid → Narrow) : Narrow :=
  let t := d.type ⊔ Narrow.joinAll ((d.reads decides).map fun s => ty s.vid)
  if d.bitwise then d.bitwiseType t else t

/-- The constants that a definition gives to its version. -/
def NarrowIn.held (d : NarrowIn) (decides : Bool) : List Int :=
  if d.bitwise then []
  else d.consts ++ d.srcs.filterMap (d.carried decides)

namespace NarrowPass

variable (p) (vid : Vid)

def reads : List Vid :=
  (p.node vid).ins.flatMap fun d => (d.reads (p.node vid).decides).map NarrowSrc.vid

/-- The join over the definitions of a version. -/
def base (ty : Vid → Narrow) : Narrow :=
  Narrow.joinAll ((p.node vid).ins.map fun d => d.gives (p.node vid).decides ty)

/-- The constants that a version must hold. -/
def held : List Int := (p.node vid).ins.flatMap fun d => d.held (p.node vid).decides

/-- The least type from `t` on that holds the constants and that the uses allow. -/
def closeUp (t : Narrow) : Narrow :=
  if t = .empty then .empty
  else if t.widen (p.held vid) = .z ∧ p.zForbidden vid then .i
  else t.widen (p.held vid)

end NarrowPass

theorem NarrowIn.gather_eq (d : NarrowIn) (decides : Bool) (srcs : List NarrowSrc) (t : Narrow)
    (lone : List Int) :
    d.gather decides σ srcs t lone =
      if (srcs.filter fun s => (d.carried decides s).isNone).any fun s => σ.bad s.vid then none
      else some (t ⊔ Narrow.joinAll ((srcs.filter fun s => (d.carried decides s).isNone).map
        fun s => σ.ty s.vid), lone ++ srcs.filterMap (d.carried decides)) := by
  induction srcs generalizing t lone with
  | nil => simp [gather, Narrow.joinAll]
  | cons s srcs ih =>
    rw [gather]
    cases hcarried : d.carried decides s with
    | some v =>
      rw [List.filter_cons_of_neg (by simp [hcarried]), List.filterMap_cons_some hcarried,
        List.append_cons]
      exact ih t (lone ++ [v])
    | none =>
      rw [List.filter_cons_of_pos (by simp [hcarried]), List.filterMap_cons_none hcarried,
        List.any_cons, List.map_cons, Narrow.joinAll_cons, ← sup_assoc]
      cases σ.bad s.vid with
      | false => exact ih (t ⊔ σ.ty s.vid) lone
      | true => rfl

theorem NarrowNode.gather_eq (decides : Bool) (ins : List NarrowIn) (t : Narrow)
    (consts : List Int) :
    NarrowNode.gather decides σ ins t consts =
      if ins.any fun d => (d.reads decides).any fun s => σ.bad s.vid then none
      else some (t ⊔ Narrow.joinAll (ins.map fun d => d.gives decides σ.ty),
        consts ++ ins.flatMap fun d => d.held decides) := by
  induction ins generalizing t consts with
  | nil => simp [gather, Narrow.joinAll]
  | cons d ins ih =>
    rw [gather, d.gather_eq, ← NarrowIn.reads, List.any_cons, List.map_cons, Narrow.joinAll_cons,
      ← sup_assoc, List.flatMap_cons, ← List.append_assoc, List.nil_append]
    cases (d.reads decides).any fun s => σ.bad s.vid with
    | true => rfl
    | false =>
      rw [if_neg Bool.false_ne_true, Bool.false_or]
      cases hbit : d.bitwise with
      | false =>
        have hgives : d.gives decides σ.ty =
            d.type ⊔ Narrow.joinAll ((d.reads decides).map fun s => σ.ty s.vid) := by
          simp [NarrowIn.gives, hbit]
        have hheld : d.held decides = d.consts ++ d.srcs.filterMap (d.carried decides) := by
          simp [NarrowIn.held, hbit]
        simp only [hgives, hheld, ← List.append_assoc]
        exact ih _ _
      | true =>
        have hgives : d.gives decides σ.ty = d.bitwiseType
            (d.type ⊔ Narrow.joinAll ((d.reads decides).map fun s => σ.ty s.vid)) := by
          simp [NarrowIn.gives, hbit]
        have hheld : d.held decides = [] := by
          simp [NarrowIn.held, hbit]
        simp only [hgives, hheld, List.append_nil]
        exact ih _ _

namespace NarrowPass

variable {vid : Vid}

theorem any_reads_iff :
    ((p.node vid).ins.any fun d => (d.reads (p.node vid).decides).any fun s => σ.bad s.vid) =
      true ↔ ∃ s ∈ p.reads vid, σ.bad s = true := by
  simp only [List.any_eq_true, reads, List.mem_flatMap, List.mem_map]
  constructor
  · rintro ⟨d, hd, s, hs, hbad⟩
    exact ⟨s.vid, ⟨d, hd, s, hs, rfl⟩, hbad⟩
  · rintro ⟨_, ⟨d, hd, s, hs, rfl⟩, hbad⟩
    exact ⟨d, hd, s, hs, hbad⟩

theorem transfer_of_bad (h : ∃ s ∈ p.reads vid, σ.bad s = true) : p.transfer σ vid = none := by
  rw [transfer, NarrowNode.gather_eq, if_pos (any_reads_iff.mpr h)]

/-- Without taint the transfer closes the join of what the definitions read and of the
floor. -/
theorem transfer_of_clean (h : ∀ s ∈ p.reads vid, σ.bad s = false) :
    p.transfer σ vid = some (p.closeUp vid (p.base vid σ.ty ⊔ σ.floorTy vid)) := by
  have hclean : ¬∃ s ∈ p.reads vid, σ.bad s = true := by
    rintro ⟨s, hs, hbad⟩
    rw [h s hs] at hbad
    cases hbad
  rw [transfer, NarrowNode.gather_eq, if_neg fun hany => hclean (any_reads_iff.mp hany)]
  simp only [Narrow.empty_sup, List.nil_append, base, closeUp, held]
  rfl

end NarrowPass

/-- A bitwise definition over versions gives more for more. -/
theorem NarrowIn.bitwiseType_mono (d : NarrowIn) (hsrcs : d.srcs ≠ []) {t u : Narrow}
    (hle : t ≤ u) : d.bitwiseType t ≤ d.bitwiseType u := by
  unfold bitwiseType
  by_cases hconsts : d.consts = [] <;> cases d.consts.all Narrow.z.fits <;> revert hle <;>
    cases t <;> cases u <;> simp [hsrcs, hconsts] <;> decide

theorem NarrowIn.gives_mono (d : NarrowIn) (decides : Bool) {ty ty' : Vid → Narrow}
    (h : ∀ s ∈ d.reads decides, ty s.vid ≤ ty' s.vid) :
    d.gives decides ty ≤ d.gives decides ty' := by
  have hle : d.type ⊔ Narrow.joinAll ((d.reads decides).map fun s => ty s.vid) ≤
      d.type ⊔ Narrow.joinAll ((d.reads decides).map fun s => ty' s.vid) :=
    sup_le_sup_left (Narrow.joinAll_mono h) _
  unfold gives
  split
  · by_cases hsrcs : d.srcs = []
    · have hreads : d.reads decides = [] := by rw [reads, hsrcs, List.filter_nil]
      rw [hreads]
      exact le_rfl
    · exact d.bitwiseType_mono hsrcs hle
  · exact hle

namespace NarrowPass

theorem base_mono (vid : Vid) {ty ty' : Vid → Narrow} (h : ∀ s ∈ p.reads vid, ty s ≤ ty' s) :
    p.base vid ty ≤ p.base vid ty' :=
  Narrow.joinAll_mono fun d hd => d.gives_mono _ fun s hs =>
    h s.vid (List.mem_flatMap.mpr ⟨d, hd, List.mem_map_of_mem hs⟩)

theorem le_closeUp (vid : Vid) (t : Narrow) : t ≤ p.closeUp vid t := by
  unfold closeUp
  split
  · exact le_of_eq ‹_›
  split
  · rename_i h
    exact le_trans (Narrow.le_widen t (p.held vid)) (h.1 ▸ by decide)
  · exact Narrow.le_widen t _

theorem closeUp_mono (vid : Vid) {t u : Narrow} (hle : t ≤ u) :
    p.closeUp vid t ≤ p.closeUp vid u := by
  by_cases ht : t = .empty
  · rw [closeUp, if_pos ht]
    exact Narrow.empty_le _
  have hwiden := Narrow.widen_mono hle ht (p.held vid)
  have hi (t : Narrow) : t ≤ .i := by cases t <;> decide
  rw [closeUp, if_neg ht, closeUp, if_neg (Narrow.ne_empty_of_le hle ht)]
  split <;> split
  · exact le_rfl
  · rename_i hforbid hnot
    by_cases heq : u.widen (p.held vid) = .z
    · exact absurd ⟨heq, hforbid.2⟩ hnot
    · rw [hforbid.1] at hwiden
      revert hwiden heq
      cases u.widen (p.held vid) <;> decide
  · exact hi _
  · exact hwiden

/-- A type that is one, and holds the constants and suits the uses, stays one as it
rises. -/
theorem closed_of_le {vid : Vid} {t u : Narrow} (hclosed : p.closeUp vid t = t) (ht : t ≠ .empty)
    (hle : t ≤ u) : p.closeUp vid u = u := by
  have hu := Narrow.ne_empty_of_le hle ht
  rw [closeUp, if_neg ht] at hclosed
  have hfits : ∀ v ∈ p.held vid, t.fits v = true := by
    intro v hv
    have hwidened := Narrow.widen_fits ht hv
    split at hclosed
    · rw [← hclosed]
      rfl
    · rwa [hclosed] at hwidened
  have hwiden := Narrow.widen_eq_self fun v hv => Narrow.fits_mono hle ht (hfits v hv)
  rw [closeUp, if_neg hu, hwiden]
  refine if_neg fun hforbid => ?_
  obtain ⟨rfl, hforbid⟩ := hforbid
  have htz : t = .z := by
    revert hle ht
    cases t <;> decide
  subst htz
  rw [Narrow.widen_eq_self hfits, if_pos ⟨rfl, hforbid⟩] at hclosed
  cases hclosed

theorem closeUp_closed (vid : Vid) (t : Narrow) :
    p.closeUp vid (p.closeUp vid t) = p.closeUp vid t := by
  by_cases ht : t = .empty
  · simp [closeUp, ht]
  have hne := Narrow.ne_empty_of_le (Narrow.le_widen t (p.held vid)) ht
  have hfits : ∀ v ∈ p.held vid, (t.widen (p.held vid)).fits v = true :=
    fun v hv => Narrow.widen_fits ht hv
  have hi : ∀ consts : List Int, Narrow.i.widen consts = .i := fun consts =>
    Narrow.widen_eq_self fun _ _ => rfl
  by_cases hforbid : t.widen (p.held vid) = .z ∧ p.zForbidden vid
  · simp [closeUp, ht, hforbid, hi]
  · have hclose : p.closeUp vid t = t.widen (p.held vid) := by
      rw [closeUp, if_neg ht, if_neg hforbid]
    rw [hclose, closeUp, if_neg hne, Narrow.widen_eq_self hfits, if_neg hforbid]

end NarrowPass

end Transfer

end Dad

end Dexllm
