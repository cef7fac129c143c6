import Dexllm.Lib.SimplePaths
import Dexllm.JavaText
import Mathlib.Algebra.Order.BigOperators.Group.List

/-!
The ground type of a version: what its definitions produce, moves between
versions resolved. `gt` walks the moves with a stack of the versions it is
inside of and a budget of calls; within the budget its verdict accounts for
every producer that the moves lead to.
-/

namespace Dexllm

open SimplePaths

namespace Dad

abbrev Vid := Text

/-- `is_ref`. -/
def isRef (type : Text) : Bool := type.head? = some 0x4C || type.head? = some 0x5B

/-- `is_prim_desc`. -/
def isPrimDesc (type : Text) : Bool := type.length = 1 && type.all fun c => c ∈ ascii "IJZBSCFD"

/-- The right-hand side of a definition, with its type: a version, a producer of
an object (`is_alloc_producer`), a constant, an operation with a primitive result
(`BinaryExpression`, `UnaryExpression`, `ArrayLengthExpression`), or another. -/
inductive RhsForm where
  | ident (vid : Vid)
  | alloc (type : Text)
  | const (type : Text) (value : Int)
  | structural (type : Text)
  | other (type : Text)
deriving DecidableEq

/-- The versions of a method: `defs_of`, with `none` for a definition that has no
right-hand side, and the type of each. -/
structure Versions where
  defsOf : List (Vid × List (Option RhsForm))
  typeOf : Vid → Text

/-- The verdicts of `gt`: a reference, a primitive, null or zero, unknown, and a
move back into a version that is being resolved. -/
inductive Ground where
  | r | p | n | u | m
deriving DecidableEq

/-- The verdict on a producer, with the type it sets. -/
def producerGround (vs : Versions) : RhsForm → Ground × Text
  | .alloc type => (.r, if isRef type then type else [])
  | .const type value =>
    if isRef type then (.r, type)
    else if value = 0 then (.n, [])
    else (.p, if isPrimDesc type then type else ascii "I")
  | .structural type =>
    if isRef type then (.r, type) else (.p, if isPrimDesc type then type else ascii "I")
  | .other type =>
    if isRef type then (.r, type) else if isPrimDesc type then (.p, type) else (.u, [])
  | .ident vid =>
    if isRef (vs.typeOf vid) then (.r, vs.typeOf vid)
    else if isPrimDesc (vs.typeOf vid) then (.p, vs.typeOf vid)
    else (.u, [])

/-- What the loop over the definitions of one version has seen. -/
structure Siblings where
  sibR : Bool := false
  sibP : Bool := false
  sibU : Bool := false
  sibAny : Bool := false
  refSeen : Text := []
  primSeen : Text := []

/-- One more definition, of verdict `c` and type `ct`. -/
def Siblings.add (s : Siblings) (c : Ground) (ct : Text) : Siblings :=
  match c with
  | .r => { s with
      sibR := true, sibAny := true, refSeen := if s.refSeen = [] then ct else s.refSeen }
  | .p => { s with
      sibP := true, sibAny := true, primSeen := if s.primSeen = [] then ct else s.primSeen }
  | .u => { s with sibU := true, sibAny := true }
  | .n => { s with sibAny := true }
  | .m => s

def Siblings.verdict (s : Siblings) : Ground × Text :=
  if s.sibU || (s.sibR && s.sibP) then (.u, [])
  else if s.sibR then (.r, s.refSeen)
  else if s.sibP then (.p, s.primSeen)
  else if !s.sibAny then (.u, [])
  else (.n, [])

/-- The calls that are left, and whether one found none left. -/
structure GtWork where
  budget : Nat
  exhausted : Bool := false

/-- `gt`, for `fuel` calls inside each other. -/
def gtFrom (vs : Versions) : (fuel : Nat) → RhsForm → List Vid → GtWork → Ground × Text × GtWork
  | 0, _, _, work => (.u, [], { work with exhausted := true })
  | fuel + 1, rhs, seen, work =>
    if work.budget = 0 then (.u, [], { work with exhausted := true })
    else
      let work := { work with budget := work.budget - 1 }
      match rhs with
      | .ident sid =>
        if sid ∈ seen then (.m, [], work)
        else match vs.defsOf.lookup sid with
          | none => ((producerGround vs (.ident sid)).1, (producerGround vs (.ident sid)).2, work)
          | some ds =>
            let (s, work) := ds.foldl (fun (s, work) d =>
              match d with
              | none => (s.add .u [], work)
              | some r =>
                let (c, ct, work) := gtFrom vs fuel r (sid :: seen) work
                (s.add c ct, work)) (({} : Siblings), work)
            (s.verdict.1, s.verdict.2, work)
      | rhs => ((producerGround vs rhs).1, (producerGround vs rhs).2, work)

/-- `gt`. A call inside another has one call less left, so that `fuel` runs out
only where the budget has. -/
def gt (vs : Versions) (rhs : RhsForm) (seen : List Vid) (work : GtWork) : Ground × Text × GtWork :=
  gtFrom vs work.budget rhs seen work

/-- The constant zero, which is also null. -/
def RhsForm.IsZero : RhsForm → Prop
  | .const type value => ¬isRef type ∧ value = 0
  | _ => False

namespace Versions

/-- The type of a right-hand side. -/
def rhsType (vs : Versions) : RhsForm → Text
  | .ident vid => vs.typeOf vid
  | .alloc type | .const type _ | .structural type | .other type => type

/-- A reference: an allocation, or of a reference type. -/
def IsReference (vs : Versions) : RhsForm → Prop
  | .alloc _ => True
  | rhs => isRef (vs.rhsType rhs)

/-- A primitive: any other constant, an operation with a primitive result, or of
a primitive type. -/
def IsPrimitive (vs : Versions) : RhsForm → Prop
  | .alloc _ => False
  | .const type value => ¬isRef type ∧ value ≠ 0
  | .structural type => ¬isRef type
  | rhs => isPrimDesc (vs.rhsType rhs)

/-- No move: a right-hand side that is no version, or a version without
definitions. -/
def Produces (vs : Versions) : RhsForm → Prop
  | .ident vid => vs.defsOf.lookup vid = none
  | _ => True

end Versions

section Graph

variable (vs : Versions)

/-- `a` has a definition by a move from `b`. -/
def MovedFrom (a b : Vid) : Prop :=
  ∃ ds, vs.defsOf.lookup a = some ds ∧ some (.ident b) ∈ ds

/-- `p` is a definition of `a`, and no move. -/
def DefinedBy (p : RhsForm) (a : Vid) : Prop :=
  ∃ ds, vs.defsOf.lookup a = some ds ∧ some p ∈ ds ∧ vs.Produces p

/-- The producers that the moves lead to from `rhs`, outside the versions of
`avoid`. -/
def ReachedOutside (avoid : List Vid) (rhs p : RhsForm) : Prop :=
  (vs.Produces rhs ∧ p = rhs) ∨
    ∃ vid, rhs = .ident vid ∧ Reaches (MovedFrom vs) (DefinedBy vs p) avoid vid

/-- The producers that the moves lead to from `rhs`. -/
abbrev Reached (rhs p : RhsForm) : Prop := ReachedOutside vs [] rhs p

end Graph

/-- The verdict on a version from those on its definitions. -/
def close (gs : List Ground) : Ground :=
  if .u ∈ gs ∨ (.r ∈ gs ∧ .p ∈ gs) then .u
  else if .r ∈ gs then .r
  else if .p ∈ gs then .p
  else if ∀ g ∈ gs, g = .m then .u
  else .n

/-- The verdict without a budget. -/
def verdict (vs : Versions) : (fuel : Nat) → RhsForm → List Vid → Ground
  | 0, _, _ => .u
  | fuel + 1, rhs, seen =>
    match rhs with
    | .ident sid =>
      if sid ∈ seen then .m
      else match vs.defsOf.lookup sid with
        | none => (producerGround vs (.ident sid)).1
        | some ds => close (ds.map fun d => d.elim .u fun r => verdict vs fuel r (sid :: seen))
    | rhs => (producerGround vs rhs).1

/-- The calls that the verdict takes. -/
def calls (vs : Versions) : (fuel : Nat) → RhsForm → List Vid → Nat
  | 0, _, _ => 1
  | fuel + 1, rhs, seen =>
    match rhs with
    | .ident sid =>
      if sid ∈ seen then 1
      else match vs.defsOf.lookup sid with
        | none => 1
        | some ds => 1 + (ds.map fun d => d.elim 0 fun r => calls vs fuel r (sid :: seen)).sum
    | _ => 1

section Budget

/-- `n` calls of the budget are used. -/
structure GtWork.Spends (work : GtWork) (n : Nat) (work' : GtWork) : Prop where
  budget : work'.budget = work.budget - n
  exhausted : work'.exhausted = true ↔ work.exhausted = true ∨ work.budget < n

variable {work work' work'' : GtWork}

theorem GtWork.Spends.refl : work.Spends 0 work := ⟨rfl, by simp⟩

theorem GtWork.Spends.trans {n m : Nat} (h : work.Spends n work') (h' : work'.Spends m work'') :
    work.Spends (n + m) work'' := by
  refine ⟨by rw [h'.budget, h.budget]; omega, ?_⟩
  rw [h'.exhausted, h.exhausted, h.budget, or_assoc]
  exact or_congr_right ⟨by omega, by omega⟩

/-- The flags of the loop are those of the verdicts it saw. -/
structure Siblings.Saw (s : Siblings) (gs : List Ground) : Prop where
  sibR : s.sibR = true ↔ .r ∈ gs
  sibP : s.sibP = true ↔ .p ∈ gs
  sibU : s.sibU = true ↔ .u ∈ gs
  sibAny : s.sibAny = true ↔ ∃ g ∈ gs, g ≠ .m

theorem Siblings.Saw.add {s : Siblings} {gs : List Ground} (h : s.Saw gs) (c : Ground) (ct : Text) :
    (s.add c ct).Saw (gs ++ [c]) := by
  obtain ⟨hr, hp, hu, hany⟩ := h
  cases c <;> constructor <;> simp [Siblings.add, hr, hp, hu, hany, or_and_right, exists_or]

theorem Siblings.Saw.verdict {s : Siblings} {gs : List Ground} (h : s.Saw gs) :
    s.verdict.1 = close gs := by
  have hnone : (!s.sibAny) = true ↔ ∀ g ∈ gs, g = .m := by
    rw [Bool.not_eq_true', ← Bool.not_eq_true, h.sibAny]
    simp
  simp only [Siblings.verdict, close, Bool.or_eq_true, Bool.and_eq_true, h.sibR, h.sibP, h.sibU,
    hnone]
  split <;> try rfl
  split <;> try rfl
  split <;> try rfl
  split <;> rfl

theorem calls_pos (vs : Versions) (fuel : Nat) (rhs : RhsForm) (seen : List Vid) :
    0 < calls vs fuel rhs seen := by
  cases fuel with
  | zero => exact Nat.one_pos
  | succ fuel =>
    cases rhs with
    | ident sid =>
      rw [calls]
      split
      · exact Nat.one_pos
      split
      · exact Nat.one_pos
      · omega
    | _ => exact Nat.one_pos

/-- The loop over the definitions of one version. -/
theorem siblings_spec {gtOf : RhsForm → GtWork → Ground × Text × GtWork} {fuel : Nat}
    {callsOf : RhsForm → Nat} {groundOf : RhsForm → Ground}
    (hgt : ∀ r work, work.budget ≤ fuel → work.Spends (callsOf r) (gtOf r work).2.2 ∧
      ((gtOf r work).2.2.exhausted = false → (gtOf r work).1 = groundOf r))
    (ds : List (Option RhsForm)) {s : Siblings} {gs : List Ground} (hs : s.Saw gs) {work : GtWork}
    (hfuel : work.budget ≤ fuel) :
    let out := ds.foldl (fun (s, work) d =>
      match d with
      | none => (s.add .u [], work)
      | some r =>
        let (c, ct, work) := gtOf r work
        (s.add c ct, work)) (s, work)
    work.Spends (ds.map fun d => d.elim 0 callsOf).sum out.2 ∧
      (out.2.exhausted = false → out.1.Saw (gs ++ ds.map fun d => d.elim .u groundOf)) := by
  induction ds generalizing s gs work with
  | nil => exact ⟨.refl, fun _ => by simpa using hs⟩
  | cons d ds ih =>
    cases d with
    | none =>
      obtain ⟨hspends, hsaw⟩ := ih (hs.add .u []) hfuel
      refine ⟨by simpa using hspends, fun hok => ?_⟩
      simpa [List.append_assoc] using hsaw hok
    | some r =>
      obtain ⟨hspends, hground⟩ := hgt r work hfuel
      have hfuel' : (gtOf r work).2.2.budget ≤ fuel := by
        rw [hspends.budget]
        omega
      obtain ⟨hrest, _⟩ := ih (hs.add (gtOf r work).1 (gtOf r work).2.1) hfuel'
      refine ⟨hspends.trans hrest, fun hok => ?_⟩
      -- a loop that ends within the budget was within it after this definition
      have hwithin : (gtOf r work).2.2.exhausted = false := by
        by_contra hout
        have := hrest.exhausted.mpr (.inl (Bool.eq_true_of_not_eq_false hout))
        exact absurd (this.symm.trans hok) (by decide)
      obtain ⟨_, hsaw⟩ := ih (hs.add (gtOf r work).1 (gtOf r work).2.1) hfuel'
      rw [List.map_cons, Option.elim_some, ← hground hwithin, List.append_cons]
      exact hsaw hok

/-- The walk spends the calls of the verdict, and within the budget it is the
verdict. -/
theorem gtFrom_spec (vs : Versions) (fuel : Nat) (rhs : RhsForm) (seen : List Vid) (work : GtWork)
    (hfuel : work.budget ≤ fuel) :
    work.Spends (calls vs fuel rhs seen) (gtFrom vs fuel rhs seen work).2.2 ∧
      ((gtFrom vs fuel rhs seen work).2.2.exhausted = false →
        (gtFrom vs fuel rhs seen work).1 = verdict vs fuel rhs seen) := by
  induction fuel generalizing rhs seen work with
  | zero =>
    have hzero : work.budget = 0 := by omega
    exact ⟨⟨by simp [gtFrom, hzero], by simp [gtFrom, calls, hzero]⟩, by simp [gtFrom]⟩
  | succ fuel ih =>
    by_cases hzero : work.budget = 0
    · have hpos := calls_pos vs (fuel + 1) rhs seen
      simp only [gtFrom, hzero, if_true]
      exact ⟨⟨by simp [hzero], by simp [hzero, hpos]⟩, by simp⟩
    have hone : work.Spends 1 { work with budget := work.budget - 1 } :=
      ⟨rfl, (or_iff_left fun hlt => absurd hlt (by omega)).symm⟩
    have hproducer (hrhs : ∀ vid, rhs ≠ .ident vid) :
        calls vs (fuel + 1) rhs seen = 1 ∧
          verdict vs (fuel + 1) rhs seen = (producerGround vs rhs).1 ∧
          gtFrom vs (fuel + 1) rhs seen work = ((producerGround vs rhs).1,
            (producerGround vs rhs).2, { work with budget := work.budget - 1 }) := by
      cases rhs with
      | ident vid => exact absurd rfl (hrhs vid)
      | _ => exact ⟨rfl, rfl, if_neg hzero⟩
    cases rhs with
    | ident sid =>
      simp only [gtFrom, calls, verdict, hzero, if_false]
      by_cases hseen : sid ∈ seen
      · simp only [hseen, if_true]
        exact ⟨hone, fun _ => trivial⟩
      simp only [hseen, if_false]
      cases hds : vs.defsOf.lookup sid with
      | none => exact ⟨hone, fun _ => rfl⟩
      | some ds =>
        have hstart : ({} : Siblings).Saw [] := ⟨by simp, by simp, by simp, by simp⟩
        have hleft : ({ work with budget := work.budget - 1 } : GtWork).budget ≤ fuel :=
          Nat.sub_le_of_le_add hfuel
        obtain ⟨hspends, hsaw⟩ := siblings_spec
          (fun r work hfuel => ih r (sid :: seen) work hfuel) ds hstart hleft
        exact ⟨hone.trans hspends, fun hok => (hsaw hok).verdict⟩
    | _ =>
      obtain ⟨hcalls, hverdict, hgt⟩ := hproducer (by simp)
      rw [hcalls, hverdict, hgt]
      exact ⟨hone, fun _ => rfl⟩

end Budget

section Producers

variable {vs : Versions} {p : RhsForm}

theorem not_isRef_of_isPrimDesc {type : Text} (h : isPrimDesc type = true) :
    isRef type = false := by
  match type with
  | [] => rfl
  | [c] =>
    by_contra hne
    have hc : c = 0x4C ∨ c = 0x5B := by simpa [isRef, ← or_iff_not_imp_left] using hne
    rcases hc with rfl | rfl <;> exact absurd h (by decide)
  | _ :: _ :: _ => simp [isPrimDesc] at h

theorem producerGround_eq_r : (producerGround vs p).1 = .r ↔ vs.IsReference p := by
  cases p <;> simp only [producerGround, Versions.IsReference, Versions.rhsType]
  all_goals split <;> simp_all
  all_goals split <;> simp

theorem producerGround_eq_p : (producerGround vs p).1 = .p ↔ vs.IsPrimitive p := by
  have hprim (type : Text) : ¬(isRef type = true ∧ isPrimDesc type = true) := by
    rintro ⟨href, hprim⟩
    rw [not_isRef_of_isPrimDesc hprim] at href
    exact absurd href (by decide)
  cases p <;> simp only [producerGround, Versions.IsPrimitive, Versions.rhsType]
  all_goals grind

theorem producerGround_eq_n : (producerGround vs p).1 = .n ↔ p.IsZero := by
  cases p <;> simp only [producerGround, RhsForm.IsZero]
  all_goals grind

theorem producerGround_ne_m : (producerGround vs p).1 ≠ .m := by
  cases p <;> simp only [producerGround]
  all_goals grind

end Producers

section Verdict

/-- The verdict `g` accounts for a producer of verdict `l`. -/
def Ground.Accounts (g l : Ground) : Prop := g = l ∨ g = .u ∨ (l = .n ∧ g ≠ .m)

theorem close_ne_m (gs : List Ground) : close gs ≠ .m := by
  unfold close
  repeat' split
  all_goals simp

theorem Ground.Accounts.close {g l : Ground} {gs : List Ground} (h : g.Accounts l) (hl : l ≠ .m)
    (hg : g ∈ gs) : (close gs).Accounts l := by
  have hne := close_ne_m gs
  obtain rfl | rfl | ⟨rfl, -⟩ := h
  · cases g with
    | n => exact .inr (.inr ⟨rfl, hne⟩)
    | m => exact absurd rfl hl
    | u => exact .inl (if_pos (.inl hg))
    | r => grind [Ground.Accounts, Dad.close]
    | p => grind [Ground.Accounts, Dad.close]
  · exact .inr (.inl (if_pos (.inl hg)))
  · exact .inr (.inr ⟨rfl, hne⟩)

theorem mem_of_close {g : Ground} {gs : List Ground} (h : close gs = g) (hg : g = .r ∨ g = .p) :
    g ∈ gs := by
  unfold close at h
  obtain rfl | rfl := hg
  · grind
  · grind

variable {vs : Versions} {p : RhsForm}

theorem verdict_of_produces (hp : vs.Produces p) {seen : List Vid}
    (hseen : ∀ s ∈ seen, vs.defsOf.lookup s ≠ none) (fuel : Nat) :
    verdict vs (fuel + 1) p seen = (producerGround vs p).1 := by
  cases p with
  | ident vid =>
    have hvid : vid ∉ seen := fun hmem => hseen vid hmem hp
    have hnone : vs.defsOf.lookup vid = none := hp
    rw [verdict, if_neg hvid, hnone]
  | _ => rfl

theorem calls_child {sid : Vid} {seen : List Vid} {ds : List (Option RhsForm)}
    {r : RhsForm} {fuel : Nat} (hsid : sid ∉ seen) (hds : vs.defsOf.lookup sid = some ds)
    (hr : some r ∈ ds) (hcalls : calls vs (fuel + 1) (.ident sid) seen ≤ fuel + 1) :
    calls vs fuel r (sid :: seen) ≤ fuel := by
  rw [calls, if_neg hsid, hds] at hcalls
  dsimp only at hcalls
  have hle := List.single_le_sum (fun n _ => Nat.zero_le n) _
    (List.mem_map_of_mem (f := fun d => d.elim 0 fun r => calls vs fuel r (sid :: seen)) hr)
  simp only [Option.elim_some] at hle
  omega

theorem exists_succ_of_calls {rhs : RhsForm} {seen : List Vid} {fuel : Nat}
    (hcalls : calls vs fuel rhs seen ≤ fuel) : ∃ k, fuel = k + 1 := by
  have hpos := calls_pos vs fuel rhs seen
  exact ⟨fuel - 1, by omega⟩

/-- Within the budget the verdict accounts for the producers of a simple path:
induction on the path, whose vertices are the stack. -/
theorem accounts_of_simple {vid : Vid} {stack : List Vid}
    (h : Simple (MovedFrom vs) (DefinedBy vs p) stack vid)
    (hstack : ∀ s ∈ stack, vs.defsOf.lookup s ≠ none) (fuel : Nat)
    (hcalls : calls vs fuel (.ident vid) stack ≤ fuel) :
    (verdict vs fuel (.ident vid) stack).Accounts (producerGround vs p).1 := by
  induction h generalizing fuel with
  | @here stack vid hvid hgoal =>
    obtain ⟨ds, hds, hp, hproduces⟩ := hgoal
    obtain ⟨fuel, rfl⟩ := exists_succ_of_calls hcalls
    have hchild := calls_child hvid hds hp hcalls
    obtain ⟨fuel, rfl⟩ := exists_succ_of_calls hchild
    have hstack' : ∀ s ∈ vid :: stack, vs.defsOf.lookup s ≠ none :=
      List.forall_mem_cons.mpr ⟨by simp [hds], hstack⟩
    rw [verdict, if_neg hvid, hds]
    refine Ground.Accounts.close (.inl rfl) producerGround_ne_m (List.mem_map.mpr ⟨some p, hp, ?_⟩)
    exact verdict_of_produces hproduces hstack' fuel
  | @next stack vid b hvid hstep hrest ih =>
    obtain ⟨ds, hds, hb⟩ := hstep
    obtain ⟨fuel, rfl⟩ := exists_succ_of_calls hcalls
    have hstack' : ∀ s ∈ vid :: stack, vs.defsOf.lookup s ≠ none :=
      List.forall_mem_cons.mpr ⟨by simp [hds], hstack⟩
    have hchild := ih hstack' fuel (calls_child hvid hds hb hcalls)
    rw [verdict, if_neg hvid, hds]
    exact hchild.close producerGround_ne_m (List.mem_map.mpr ⟨_, hb, rfl⟩)

/-- A verdict of reference or primitive is that of a producer. -/
theorem exists_producer {g : Ground} (hg : g = .r ∨ g = .p) (fuel : Nat) (rhs : RhsForm)
    (seen : List Vid) (h : verdict vs fuel rhs seen = g) :
    ∃ p, Reached vs rhs p ∧ (producerGround vs p).1 = g := by
  induction fuel generalizing rhs seen with
  | zero =>
    obtain rfl := h
    simp [verdict] at hg
  | succ fuel ih =>
    cases rhs with
    | ident sid =>
      rw [verdict] at h
      split at h
      · obtain rfl := h
        simp at hg
      cases hds : vs.defsOf.lookup sid with
      | none =>
        rw [hds] at h
        exact ⟨_, .inl ⟨hds, rfl⟩, h⟩
      | some ds =>
        rw [hds] at h
        obtain ⟨d, hd, hverdict⟩ := List.mem_map.mp (mem_of_close h hg)
        cases d with
        | none =>
          obtain rfl : Ground.u = g := hverdict
          simp at hg
        | some r =>
          obtain ⟨p, hp, hground⟩ := ih r _ hverdict
          refine ⟨p, .inr ⟨sid, rfl, ?_⟩, hground⟩
          obtain ⟨hproduces, rfl⟩ | ⟨vid, rfl, hreaches⟩ := hp
          · exact .here (List.not_mem_nil) ⟨ds, hds, hd, hproduces⟩
          · exact .next (List.not_mem_nil) ⟨ds, hds, hd⟩ hreaches
    | _ => exact ⟨_, .inl ⟨trivial, rfl⟩, h⟩

/-- The same definitions, in another order. -/
structure SameDefs (vs vs' : Versions) : Prop where
  typeOf : vs.typeOf = vs'.typeOf
  perm : ∀ vid, Option.Rel List.Perm (vs.defsOf.lookup vid) (vs'.defsOf.lookup vid)

theorem close_congr {gs gs' : List Ground} (h : ∀ g, g ∈ gs ↔ g ∈ gs') : close gs = close gs' := by
  simp only [close, h]

/-- Neither the verdict nor its calls depend on the order. -/
theorem verdict_order {vs vs' : Versions} (h : SameDefs vs vs') (fuel : Nat) (rhs : RhsForm)
    (seen : List Vid) : verdict vs fuel rhs seen = verdict vs' fuel rhs seen ∧
      calls vs fuel rhs seen = calls vs' fuel rhs seen := by
  induction fuel generalizing rhs seen with
  | zero => exact ⟨rfl, rfl⟩
  | succ fuel ih =>
    cases rhs with
    | ident sid =>
      have hsame := h.perm sid
      rw [verdict, verdict, calls, calls]
      by_cases hseen : sid ∈ seen
      · simp only [hseen, if_true, and_self]
      simp only [hseen, if_false]
      cases hds : vs.defsOf.lookup sid with
      | none =>
        rw [hds] at hsame
        cases hds' : vs'.defsOf.lookup sid with
        | none => exact ⟨by simp only [producerGround, h.typeOf], rfl⟩
        | some ds' =>
          rw [hds'] at hsame
          cases hsame
      | some ds =>
        rw [hds] at hsame
        cases hds' : vs'.defsOf.lookup sid with
        | none =>
          rw [hds'] at hsame
          cases hsame
        | some ds' =>
          rw [hds'] at hsame
          cases hsame with
          | some hperm =>
            simp only [(ih _ _).1, (ih _ _).2]
            exact ⟨close_congr fun g => (hperm.map _).mem_iff,
              congrArg (1 + ·) (hperm.map _).sum_eq⟩
    | _ => exact ⟨rfl, rfl⟩

end Verdict

section Main

/-- Within its budget the verdict on a version hides no producer that the moves
lead to, whatever their graph, and not depending on the order of definitions. -/
theorem gt_hides_no_producer (vs : Versions) (v : Vid) (budget : Nat)
    (hbudget : (gt vs (.ident v) [] ⟨budget, false⟩).2.2.exhausted = false) :
    ((gt vs (.ident v) [] ⟨budget, false⟩).1 = .p →
      (∀ p, Reached vs (.ident v) p → vs.IsPrimitive p ∨ p.IsZero) ∧
        ∃ p, Reached vs (.ident v) p ∧ vs.IsPrimitive p) ∧
    ((gt vs (.ident v) [] ⟨budget, false⟩).1 = .r →
      (∀ p, Reached vs (.ident v) p → vs.IsReference p ∨ p.IsZero) ∧
        ∃ p, Reached vs (.ident v) p ∧ vs.IsReference p) ∧
    ((gt vs (.ident v) [] ⟨budget, false⟩).1 = .n →
      ∀ p, Reached vs (.ident v) p → p.IsZero) ∧
    ∀ vs', SameDefs vs vs' →
      (gt vs' (.ident v) [] ⟨budget, false⟩).2.2.exhausted = false ∧
        (gt vs' (.ident v) [] ⟨budget, false⟩).1 =
          (gt vs (.ident v) [] ⟨budget, false⟩).1 := by
  obtain ⟨hspends, hverdict⟩ := gtFrom_spec vs budget (.ident v) [] ⟨budget, false⟩ le_rfl
  have hground := hverdict hbudget
  have hcalls : calls vs budget (.ident v) [] ≤ budget := by
    by_contra hover
    have hout := hspends.exhausted.mpr (.inr (Nat.lt_of_not_le hover))
    exact absurd (hout.symm.trans hbudget) (by decide)
  have haccounts (p : RhsForm) (hp : Reached vs (.ident v) p) :
      (gt vs (.ident v) [] ⟨budget, false⟩).1.Accounts (producerGround vs p).1 := by
    rw [gt, hground]
    obtain ⟨hproduces, rfl⟩ | ⟨vid, heq, hreaches⟩ := hp
    · obtain ⟨fuel, rfl⟩ := exists_succ_of_calls hcalls
      exact .inl (verdict_of_produces hproduces (by simp) fuel)
    · obtain rfl := RhsForm.ident.inj heq
      exact accounts_of_simple hreaches.simple (by simp) budget hcalls
  refine ⟨fun hp => ⟨fun q hq => ?_, ?_⟩, fun hr => ⟨fun q hq => ?_, ?_⟩, fun hn q hq => ?_,
    fun vs' hsame => ?_⟩
  · have haccount := haccounts q hq
    rw [hp] at haccount
    rw [← producerGround_eq_p, ← producerGround_eq_n]
    simpa [Ground.Accounts, eq_comm] using haccount
  · obtain ⟨p, hreached, hp⟩ := exists_producer (.inr rfl) budget _ [] (hground.symm.trans hp)
    exact ⟨p, hreached, producerGround_eq_p.mp hp⟩
  · have haccount := haccounts q hq
    rw [hr] at haccount
    rw [← producerGround_eq_r, ← producerGround_eq_n]
    simpa [Ground.Accounts, eq_comm] using haccount
  · obtain ⟨p, hreached, hp⟩ := exists_producer (.inl rfl) budget _ [] (hground.symm.trans hr)
    exact ⟨p, hreached, producerGround_eq_r.mp hp⟩
  · have haccount := haccounts q hq
    rw [hn] at haccount
    rw [← producerGround_eq_n]
    simpa [Ground.Accounts, eq_comm] using haccount
  · obtain ⟨hspends', hverdict'⟩ :=
      gtFrom_spec vs' budget (.ident v) [] ⟨budget, false⟩ le_rfl
    obtain ⟨hsameVerdict, hsameCalls⟩ := verdict_order hsame budget (.ident v) []
    have hwithin : (gt vs' (.ident v) [] ⟨budget, false⟩).2.2.exhausted = false := by
      rw [← Bool.not_eq_true, gt, hspends'.exhausted, ← hsameCalls]
      simpa using hcalls
    exact ⟨hwithin, by rw [gt, gt, hverdict' hwithin, hground, hsameVerdict]⟩

/-- A cycle of moves that an integer enters, and a version that holds its value
or a string. -/
def mixedCycle : Versions where
  defsOf := [
    ([0x61], [some (.ident [0x62]), some (.const (ascii "I") 5)]),
    ([0x62], [some (.ident [0x61]), some (.const (ascii "I") 0)]),
    ([0x63], [some (.ident [0x61]), some (.const (ascii "Ljava/lang/String;") 1)])]
  typeOf _ := ascii "I"

theorem gt_hides_no_producer_mixedCycle :
    (gt mixedCycle (.ident [0x61]) [] ⟨2000000, false⟩).1 = .p ∧
      (∀ p, Reached mixedCycle (.ident [0x61]) p →
        mixedCycle.IsPrimitive p ∨ p.IsZero) ∧
      (gt mixedCycle (.ident [0x63]) [] ⟨2000000, false⟩).1 = .u := by
  have hrun : (gt mixedCycle (.ident [0x61]) [] ⟨2000000, false⟩).1 = .p := by decide
  exact ⟨hrun, ((gt_hides_no_producer mixedCycle [0x61] 2000000 (by decide)).1 hrun).1, by decide⟩

end Main

end Dad

end Dexllm
