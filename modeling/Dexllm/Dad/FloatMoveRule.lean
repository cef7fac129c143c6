import Dexllm.Lib.Association
import Dexllm.Dad.FloatMoves
import Mathlib.Data.Finset.Card

/-!
The move rule holds of the candidates that survive: every round of the drop loop keeps
each edge either in order or next to a version that was dropped and is still to be
looked at.
-/

namespace Dexllm

open Association

namespace Dad

namespace FloatPass

variable (p : FloatPass)

/-- A round of the adopt loop for any queued version, with its destinations in any order. -/
inductive AdoptRounds : Nat → AdoptState → AdoptState → Prop where
  | refl (st : AdoptState) : AdoptRounds 0 st st
  | snoc {n : Nat} {st : AdoptState} {c : Candidates} {before after dsts : List Vid} {src : Vid}
      {budget : Nat} (h : AdoptRounds n st ⟨c, before ++ src :: after, budget⟩)
      (hdsts : dsts.Perm (p.dstsOf src)) :
      AdoptRounds (n + 1) st (p.adoptAll ⟨c, before ++ after, budget⟩ src dsts)

/-- A round of the drop loop for any dropped version, with its edges in any order. -/
inductive DropRounds : Nat → DropState → DropState → Prop where
  | refl (st : DropState) : DropRounds 0 st st
  | snoc {n : Nat} {st : DropState} {c : Candidates} {before after : List Vid} {x : Vid}
      {es : List FloatEdge} (h : DropRounds n st ⟨c, before ++ x :: after⟩)
      (hes : es.Perm (p.edgesAt x)) :
      DropRounds (n + 1) st (es.foldl p.checkEdge ⟨c, before ++ after⟩)

/-- The type a version ends with. -/
def finalType (c : Candidates) (vid : Vid) : Text := p.typeOfIn (p.finalRetypes c) vid

/-- A version can hold the constant zero: a definition is one, or it is moved from a
version that can. -/
inductive HoldsZero : Vid → Prop where
  | const {vid : Vid} {ds : List FloatDef} {d : FloatDef} (hds : (vid, ds) ∈ p.defsOf)
      (hd : d ∈ ds) (hzero : d.isZero = true) : HoldsZero vid
  | move {dst src : Vid} (hmove : (dst, src) ∈ p.fpMoves) (hsrc : HoldsZero src) : HoldsZero dst

/-- What keeps a float whose destination stays another type: the destination is used as a
reference and as no primitive, has a reference arm, and the source holds no zero. -/
structure Excepted (src dst : Vid) : Prop where
  use : p.nonfpUse dst = true
  noPrim : p.nonfpPrim dst = false
  refArm : ∃ ds, p.defsOf.lookup dst = some ds ∧ ∃ d ∈ ds, d.move = none ∨ d.move = some .object
  noZero : ¬p.HoldsZero src

/-- Both sides of every move with a candidate have one width, or it is the exception, and
no candidate is an operand of a result that is no float. -/
structure MoveRule (c : Candidates) : Prop where
  move : ∀ src dst, (dst, src) ∈ p.fpMoves → (c.width src).isSome ∨ (c.width dst).isSome →
    (∃ w : FloatWidth, p.finalType c src = w.type ∧ p.finalType c dst = w.type) ∨
      (c.width src).isSome ∧ FloatWidth.ofType (p.finalType c dst) = none ∧ p.Excepted src dst
  arith : ∀ op res, (op, res) ∈ p.fpArith → (c.width op).isSome →
    ∃ w : FloatWidth, p.finalType c res = w.type

end FloatPass

section Width

variable {p : FloatPass} {c : Candidates} {vid : Vid}

theorem FloatWidth.ofType_eq_some {type : Text} {w : FloatWidth} :
    FloatWidth.ofType type = some w ↔ type = w.type := by
  have hne : ascii "D" ≠ ascii "F" := by decide
  cases w <;> grind [ofType, FloatWidth.type]

/-- Every candidate has definitions and a Variable, and is one once. -/
structure FloatPass.WellFormed (p : FloatPass) (c : Candidates) : Prop where
  nodup : (c.map Prod.fst).Nodup
  defined : ∀ e ∈ c, (p.defined e.1).isSome = true

/-- The final type of a version is a float by the width the drop loop saw. -/
theorem FloatPass.WellFormed.ofType_finalType (h : p.WellFormed c) (vid : Vid) :
    FloatWidth.ofType (p.finalType c vid) = p.widthOf c vid := by
  have hkeys : ((c.map fun e => (e.1, e.2.type)).map Prod.fst).Nodup := by
    rw [List.map_map]
    exact h.nodup
  unfold FloatPass.finalType FloatPass.widthOf
  cases hwidth : c.width vid with
  | some w =>
    have hmem := mem_of_lookup hwidth
    obtain ⟨⟨ds, var⟩, hdefined⟩ := Option.isSome_iff_exists.mp (h.defined _ hmem)
    obtain ⟨hds, hne, hvar⟩ := definedIn_eq_some.mp hdefined
    have hlast : (p.finalRetypes c).reverse.lookup vid = some w.type := by
      rw [FloatPass.finalRetypes, List.reverse_append, List.lookup_append, lookup_reverse hkeys,
        lookup_of_mem hkeys (List.mem_map.mpr ⟨(vid, w), hmem, rfl⟩), Option.some_or]
    rw [FloatPass.typeOfIn, hds, Option.getD_some, if_neg hne, hvar, hlast, Option.some_or]
    exact FloatWidth.ofType_eq_some.mpr rfl
  | none =>
    have hother : (p.finalRetypes c).reverse.lookup vid = p.retypes.reverse.lookup vid := by
      have hnone : (c.map fun e => (e.1, e.2.type)).reverse.lookup vid = none := by
        rw [lookup_reverse hkeys, lookup_eq_none_iff]
        intro e he
        obtain ⟨e', he', rfl⟩ := List.mem_map.mp he
        exact lookup_eq_none_iff.mp hwidth e' he'
      rw [FloatPass.finalRetypes, List.reverse_append, List.lookup_append, hnone, Option.none_or,
        ← List.filter_reverse, lookup_filter fun v => by rw [hwidth, Option.isNone_none]]
    rw [Option.none_or, FloatPass.typeOf, FloatPass.typeOfIn, FloatPass.typeOfIn, hother]

end Width

section Zero

variable {p : FloatPass} {vid : Vid}

theorem FloatPass.mem_dstsOf {dst src : Vid} : dst ∈ p.dstsOf src ↔ (dst, src) ∈ p.fpMoves :=
  mem_keysOf

theorem FloatPass.mem_srcsInto {dst src : Vid} : src ∈ p.srcsInto dst ↔ (dst, src) ∈ p.fpMoves :=
  mem_valuesOf

theorem FloatPass.mem_opsOf {op res : Vid} : op ∈ p.opsOf res ↔ (op, res) ∈ p.fpArith :=
  mem_keysOf

/-- The closure over the moves is exact. -/
theorem FloatPass.mem_canBeZero : vid ∈ p.canBeZero ↔ p.HoldsZero vid := by
  have hdefined (v : Vid) : v ∈ p.zeroDefined ↔
      ∃ ds, (v, ds) ∈ p.defsOf ∧ ∃ d ∈ ds, d.isZero = true := by
    simp only [FloatPass.zeroDefined, List.mem_dedup, List.mem_map, List.mem_filter,
      List.any_eq_true, Prod.exists]
    constructor
    · rintro ⟨v, ds, ⟨hds, hzero⟩, rfl⟩
      exact ⟨ds, hds, hzero⟩
    · rintro ⟨ds, hds, hzero⟩
      exact ⟨v, ds, ⟨hds, hzero⟩, rfl⟩
  have hspread : vid ∈ p.canBeZero ↔ ∃ s ∈ p.zeroDefined, Spread.Reaches p.dstsOf s vid :=
    Spread.mem_spread_iff (List.nodup_dedup _)
      (List.subset_append_left p.zeroDefined (p.fpMoves.map Prod.fst))
      (fun v _ w hw => List.mem_append_right _ (List.mem_map_of_mem (mem_dstsOf.mp hw))) (by simp)
  rw [hspread]
  clear hspread
  constructor
  · rintro ⟨s, hs, hreach⟩
    induction hreach with
    | refl =>
      obtain ⟨ds, hds, d, hd, hzero⟩ := (hdefined s).mp hs
      exact .const hds hd hzero
    | tail _ hstep ih => exact .move (mem_dstsOf.mp hstep) ih
  · intro hzero
    induction hzero with
    | const hds hd hzero => exact ⟨_, (hdefined _).mpr ⟨_, hds, _, hd, hzero⟩, .refl⟩
    | move hmove _ ih =>
      obtain ⟨s, hs, hreach⟩ := ih
      exact ⟨s, hs, hreach.tail (mem_dstsOf.mpr hmove)⟩

end Zero

section Drop

variable {p : FloatPass} {st st' st'' : DropState} {u v : Vid}

theorem Candidates.width_filter {c : Candidates} :
    Candidates.width (c.filter fun e => e.1 ≠ v) u = if u = v then none else c.width u := by
  split
  · rename_i h
    subst h
    exact lookup_eq_none_iff.mpr fun e he => by simpa using (List.mem_filter.mp he).2
  · rename_i h
    exact lookup_filter fun w => by simpa using h

/-- Candidates are only dropped, and a version that has lost its candidate is noted. -/
structure Shrinks (st st' : DropState) : Prop where
  width : ∀ u, st'.cands.width u = st.cands.width u ∨ u ∈ st'.dropped
  noted : ∀ u ∈ st.dropped, u ∈ st'.dropped
  total : st'.cands.length + st'.dropped.length ≤ st.cands.length + st.dropped.length
  cands : st'.cands.Sublist st.cands

theorem Shrinks.refl (st : DropState) : Shrinks st st :=
  ⟨fun _ => .inl rfl, fun _ => id, le_rfl, List.Sublist.refl _⟩

theorem Shrinks.trans (h : Shrinks st st') (h' : Shrinks st' st'') : Shrinks st st'' where
  width u := by
    obtain heq | hmem := h'.width u
    · rw [heq]
      exact (h.width u).imp_right (h'.noted u)
    · exact .inr hmem
  noted u hu := h'.noted u (h.noted u hu)
  total := le_trans h'.total h.total
  cands := h'.cands.trans h.cands

theorem shrinks_drop (st : DropState) (v : Vid) : Shrinks st (st.drop v) := by
  unfold DropState.drop
  split
  · rename_i hsome
    refine ⟨fun u => ?_, fun u hu => List.mem_append_left _ hu, ?_, List.filter_sublist⟩
    · rw [Candidates.width_filter]
      by_cases h : u = v
      · exact .inr (by simp [h])
      · exact .inl (if_neg h)
    · obtain ⟨e, he, rfl⟩ := lookup_isSome_iff.mp hsome
      have hless : (st.cands.filter fun e' => e'.1 ≠ e.1).length < st.cands.length :=
        List.length_filter_lt_length_iff_exists.mpr ⟨e, he, by simp⟩
      rw [List.length_append, List.length_singleton]
      dsimp only
      omega
  · exact .refl st

theorem mem_dropped_drop (h : (st.cands.width v).isSome = true) : v ∈ (st.drop v).dropped := by
  simp [DropState.drop, h]

theorem width_drop (st : DropState) (v : Vid) : (st.drop v).cands.width v = none := by
  unfold DropState.drop
  split
  · rw [Candidates.width_filter, if_pos rfl]
  · rename_i hnone
    simpa using hnone

namespace FloatPass

/-- The edge needs no drop. -/
def EdgeOk (p : FloatPass) (c : Candidates) : FloatEdge → Prop
  | .move src dst =>
    match p.widthOf c src, p.widthOf c dst with
    | none, none => True
    | some ws, none => (c.width src).isSome = true → p.keeps c ws src dst = true
    | none, some _ => c.width dst = none
    | some ws, some wd => ws = wd ∨ (c.width src = none ∧ c.width dst = none)
  | .arith op res => (c.width op).isSome = true → (p.widthOf c res).isSome = true

/-- A version whose drop can bring the edge out of order was dropped. -/
def Noted (dropped : List Vid) : FloatEdge → Prop
  | .move src dst => src ∈ dropped ∨ dst ∈ dropped
  | .arith _ res => res ∈ dropped

theorem shrinks_checkEdge (st : DropState) (e : FloatEdge) : Shrinks st (p.checkEdge st e) := by
  cases e with
  | move src dst =>
    rw [checkEdge, check]
    split
    · exact .refl st
    · split
      · exact shrinks_drop st src
      · exact .refl st
    · exact shrinks_drop st dst
    · split
      · exact .refl st
      · exact (shrinks_drop st src).trans (shrinks_drop _ dst)
  | arith op res =>
    rw [checkEdge, checkArith]
    split
    · exact shrinks_drop st op
    · exact .refl st

/-- A check brings its edge in order, or notes a version of it. -/
theorem checkEdge_ok (st : DropState) (e : FloatEdge) :
    p.EdgeOk (p.checkEdge st e).cands e ∨ Noted (p.checkEdge st e).dropped e := by
  cases e with
  | move src dst =>
    rw [checkEdge, check]
    split
    · rename_i hsrc hdst
      exact .inl (by simp [EdgeOk, hsrc, hdst])
    · rename_i ws hsrc hdst
      split
      · rename_i hdrop
        exact .inr (.inl (mem_dropped_drop (Bool.and_eq_true_iff.mp hdrop).1))
      · rename_i hkeep
        refine .inl ?_
        simp only [EdgeOk, hsrc, hdst]
        intro hsome
        simpa [hsome] using hkeep
    · rename_i wd hsrc hdst
      cases hcand : st.cands.width dst with
      | none =>
        have hsame : st.drop dst = st := if_neg (by simp [hcand])
        rw [hsame]
        exact .inl (by simp [EdgeOk, hsrc, hdst, hcand])
      | some w => exact .inr (.inr (mem_dropped_drop (by simp [hcand])))
    · rename_i ws wd hsrc hdst
      split
      · rename_i heq
        exact .inl (by simp [EdgeOk, hsrc, hdst, heq])
      · cases hcand : st.cands.width src with
        | some w =>
          exact .inr (.inl ((shrinks_drop _ dst).noted src (mem_dropped_drop (by simp [hcand]))))
        | none =>
          have hsame : st.drop src = st := if_neg (by simp [hcand])
          rw [hsame]
          cases hcand' : st.cands.width dst with
          | some w => exact .inr (.inr (mem_dropped_drop (by simp [hcand'])))
          | none =>
            have hsame' : st.drop dst = st := if_neg (by simp [hcand'])
            rw [hsame']
            exact .inl (by simp [EdgeOk, hsrc, hdst, hcand, hcand'])
  | arith op res =>
    rw [checkEdge, checkArith]
    split
    · refine .inl fun hsome => ?_
      rw [width_drop] at hsome
      cases hsome
    · rename_i hkeep
      refine .inl fun hsome => ?_
      have hwidth : (p.widthOf st.cands op).isSome = true := by
        rw [widthOf, Option.isSome_or, hsome, Bool.true_or]
      simpa [hwidth, Option.isSome_iff_ne_none] using hkeep

/-- What was in order stays so, unless a version of it is noted. -/
theorem edgeOk_of_shrinks (h : Shrinks st st') {e : FloatEdge} (hok : p.EdgeOk st.cands e) :
    p.EdgeOk st'.cands e ∨ Noted st'.dropped e := by
  have hwidthOf {u : Vid} (heq : st'.cands.width u = st.cands.width u) :
      p.widthOf st'.cands u = p.widthOf st.cands u := by
    rw [widthOf, widthOf, heq]
  cases e with
  | move src dst =>
    obtain hsrc | hsrc := h.width src
    · obtain hdst | hdst := h.width dst
      · refine .inl ?_
        simp only [EdgeOk, keeps] at hok ⊢
        rw [hwidthOf hsrc, hwidthOf hdst, hsrc, hdst]
        exact hok
      · exact .inr (.inr hdst)
    · exact .inr (.inl hsrc)
  | arith op res =>
    obtain hres | hres := h.width res
    · refine .inl fun hsome => ?_
      rw [hwidthOf hres]
      refine hok ?_
      obtain ⟨e, he, heq⟩ := lookup_isSome_iff.mp hsome
      exact lookup_isSome_iff.mpr ⟨e, h.cands.subset he, heq⟩
    · exact .inr hres

theorem noted_of_shrinks (h : Shrinks st st') {e : FloatEdge} (hnoted : Noted st.dropped e) :
    Noted st'.dropped e := by
  cases e with
  | move src dst => exact hnoted.imp (h.noted src) (h.noted dst)
  | arith op res => exact h.noted res hnoted

/-- After a sweep over some edges these are in order or noted, and so are the ones that
were before. -/
theorem sweep_spec (es : List FloatEdge) (st : DropState) :
    Shrinks st (es.foldl p.checkEdge st) ∧ ∀ e,
      (e ∈ es ∨ p.EdgeOk st.cands e ∨ Noted st.dropped e) →
        p.EdgeOk (es.foldl p.checkEdge st).cands e ∨ Noted (es.foldl p.checkEdge st).dropped e := by
  induction es generalizing st with
  | nil => exact ⟨.refl st, fun e he => he.resolve_left (List.not_mem_nil)⟩
  | cons e' es ih =>
    obtain ⟨hshrinks, hok⟩ := ih (p.checkEdge st e')
    have hstep := shrinks_checkEdge (p := p) st e'
    refine ⟨hstep.trans hshrinks, fun e he => hok e ?_⟩
    obtain he | he | he := he
    · obtain rfl | he := List.mem_cons.mp he
      · exact .inr (checkEdge_ok st e)
      · exact .inl he
    · exact .inr (edgeOk_of_shrinks hstep he)
    · exact .inr (.inr (noted_of_shrinks hstep he))

end FloatPass

end Drop

namespace FloatPass

section Rule

variable {p : FloatPass} {c : Candidates} {st st' : DropState} {n : Nat}

theorem mem_edgesAt_of_noted {e : FloatEdge} {before after : List Vid} {x : Vid}
    (he : e ∈ p.edges) (hnoted : Noted (before ++ x :: after) e) :
    e ∈ p.edgesAt x ∨ Noted (before ++ after) e := by
  have hsplit {u : Vid} (hu : u ∈ before ++ x :: after) : u = x ∨ u ∈ before ++ after := by
    rw [List.mem_append, List.mem_cons] at hu
    rw [List.mem_append]
    obtain hu | hu | hu := hu
    · exact .inr (.inl hu)
    · exact .inl hu
    · exact .inr (.inr hu)
  unfold edges at he
  unfold edgesAt
  simp only [List.mem_append, List.mem_map] at he ⊢
  obtain ⟨⟨dst, src⟩, hmem, rfl⟩ | ⟨⟨op, res⟩, hmem, rfl⟩ := he
  · obtain hu | hu := hnoted
    · obtain rfl | hu := hsplit hu
      · exact .inl (.inl (.inr ⟨dst, mem_dstsOf.mpr hmem, rfl⟩))
      · exact .inr (.inl hu)
    · obtain rfl | hu := hsplit hu
      · exact .inl (.inl (.inl ⟨src, mem_srcsInto.mpr hmem, rfl⟩))
      · exact .inr (.inr hu)
  · obtain rfl | hu := hsplit hnoted
    · exact .inl (.inr ⟨op, mem_opsOf.mpr hmem, rfl⟩)
    · exact .inr hu

/-- A round keeps every edge in order or noted, and takes one from the budget of drops. -/
theorem DropRounds.spec (h : p.DropRounds n st st')
    (hok : ∀ e ∈ p.edges, p.EdgeOk st.cands e ∨ Noted st.dropped e) :
    (∀ e ∈ p.edges, p.EdgeOk st'.cands e ∨ Noted st'.dropped e) ∧
      st'.cands.length + st'.dropped.length + n ≤ st.cands.length + st.dropped.length ∧
      st'.cands.Sublist st.cands := by
  induction h with
  | refl => exact ⟨hok, le_rfl, List.Sublist.refl _⟩
  | snoc _ hes ih =>
    rename_i c before after x es _
    obtain ⟨hedges, htotal, hcands⟩ := ih hok
    obtain ⟨hshrinks, hsweep⟩ := sweep_spec (p := p) es ⟨c, before ++ after⟩
    refine ⟨fun e he => hsweep e ?_, ?_, hshrinks.cands.trans hcands⟩
    · obtain hin | hnoted := hedges e he
      · exact .inr (.inl hin)
      · exact (mem_edgesAt_of_noted he hnoted).imp hes.mem_iff.mpr .inr
    · have hround := hshrinks.total
      simp only [List.length_append, List.length_cons] at hround htotal
      omega

theorem WellFormed.sublist {c' : Candidates} (h : p.WellFormed c) (hsub : c'.Sublist c) :
    p.WellFormed c' where
  nodup := h.nodup.sublist (hsub.map _)
  defined e he := h.defined e (hsub.subset he)

/-- Where no version is noted and every edge is in order, the move rule holds. -/
theorem WellFormed.moveRule (h : p.WellFormed c) (hok : ∀ e ∈ p.edges, p.EdgeOk c e) :
    p.MoveRule c where
  move src dst hmem hcand := by
    have hedge : p.EdgeOk c (.move src dst) := hok _ (List.mem_append_left _
      (List.mem_map.mpr ⟨(dst, src), hmem, rfl⟩))
    have hsome {u : Vid} (hu : (c.width u).isSome = true) : p.widthOf c u ≠ none := by
      rw [widthOf, ← Option.isSome_iff_ne_none, Option.isSome_or, hu, Bool.true_or]
    simp only [EdgeOk] at hedge
    cases hsrc : p.widthOf c src with
    | none =>
      have hdst := hcand.resolve_left fun hu => hsome hu hsrc
      cases hwd : p.widthOf c dst with
      | none => exact absurd hwd (hsome hdst)
      | some wd =>
        rw [hsrc, hwd] at hedge
        rw [hedge] at hdst
        cases hdst
    | some ws =>
      cases hwd : p.widthOf c dst with
      | some wd =>
        rw [hsrc, hwd] at hedge
        have heq : ws = wd := hedge.resolve_right fun hnone => by
          rw [hnone.1, hnone.2] at hcand
          exact hcand.elim (by simp) (by simp)
        subst heq
        exact .inl ⟨ws, FloatWidth.ofType_eq_some.mp ((h.ofType_finalType src).trans hsrc),
          FloatWidth.ofType_eq_some.mp ((h.ofType_finalType dst).trans hwd)⟩
      | none =>
        rw [hsrc, hwd] at hedge
        have hcsrc := hcand.resolve_right fun hu => hsome hu hwd
        have hkeeps := hedge hcsrc
        have hcdst : c.width dst = none := by
          by_contra hne
          exact hsome (Option.isSome_iff_ne_none.mpr hne) hwd
        refine .inr ⟨hcsrc, (h.ofType_finalType dst).trans hwd, ?_⟩
        have htype : p.typeOf dst ≠ ws.type := by
          intro heq
          rw [widthOf, hcdst, Option.none_or, FloatWidth.ofType_eq_some.mpr heq] at hwd
          cases hwd
        unfold keeps at hkeeps
        rw [hcdst] at hkeeps
        dsimp only at hkeeps
        rw [if_neg htype] at hkeeps
        split at hkeeps
        · cases hkeeps
        rename_i hguard
        simp only [Bool.or_eq_true, not_or, Bool.not_eq_true, Bool.not_eq_false',
          decide_eq_false_iff_not] at hguard
        obtain ⟨⟨hprim, huse⟩, hzero⟩ := hguard
        refine ⟨huse, hprim, ?_, fun hholds => hzero (mem_canBeZero.mpr hholds)⟩
        obtain ⟨d, hd, harm⟩ := List.any_eq_true.mp hkeeps
        cases hds : p.defsOf.lookup dst with
        | none => simp [hds] at hd
        | some ds =>
          rw [hds, Option.getD_some] at hd
          refine ⟨ds, rfl, d, hd, ?_⟩
          unfold FloatDef.isRefArm at harm
          cases hmove : d.move with
          | none => exact .inl rfl
          | some kind =>
            rw [hmove] at harm
            exact .inr (congrArg some (by simpa using harm))
  arith op res hmem hcand := by
    have hedge : p.EdgeOk c (.arith op res) := hok _ (List.mem_append_right _
      (List.mem_map.mpr ⟨(op, res), hmem, rfl⟩))
    obtain ⟨w, hw⟩ := Option.isSome_iff_exists.mp (hedge hcand)
    exact ⟨w, FloatWidth.ofType_eq_some.mp ((h.ofType_finalType res).trans hw)⟩

/-- The drop loop, in any order, ends within as many rounds as there are candidates, and
what it leaves obeys the move rule. -/
theorem drop_moveRule (h : p.WellFormed c) {es : List FloatEdge} (hes : es.Perm p.edges) :
    (∀ n st, p.DropRounds n (es.foldl p.checkEdge ⟨c, []⟩) st → n ≤ c.length) ∧
      ∀ n st, p.DropRounds n (es.foldl p.checkEdge ⟨c, []⟩) st → st.dropped = [] →
        p.MoveRule st.cands := by
  obtain ⟨hshrinks, hsweep⟩ := sweep_spec (p := p) es ⟨c, []⟩
  have hstart : ∀ e ∈ p.edges, p.EdgeOk (es.foldl p.checkEdge ⟨c, []⟩).cands e ∨
      Noted (es.foldl p.checkEdge ⟨c, []⟩).dropped e :=
    fun e he => hsweep e (.inl (hes.mem_iff.mpr he))
  refine ⟨fun n st hrounds => ?_, fun n st hrounds hempty => ?_⟩
  · obtain ⟨-, htotal, -⟩ := hrounds.spec hstart
    have hfirst := hshrinks.total
    simp only [List.length_nil] at hfirst
    omega
  · obtain ⟨hedges, -, hcands⟩ := hrounds.spec hstart
    refine (h.sublist (hcands.trans hshrinks.cands)).moveRule fun e he => ?_
    refine (hedges e he).resolve_right fun hnoted => ?_
    rw [hempty] at hnoted
    cases e with
    | move src dst => exact hnoted.elim (List.not_mem_nil) (List.not_mem_nil)
    | arith op res => exact List.not_mem_nil hnoted

end Rule

end FloatPass

namespace FloatPass

section Adopt

variable {p : FloatPass} {st st' : AdoptState} {n : Nat}

/-- The versions with definitions. -/
def keys (p : FloatPass) : List Vid := p.defsOf.map Prod.fst

theorem mem_keys_of_defined {vid : Vid} (h : (p.defined vid).isSome = true) : vid ∈ p.keys := by
  obtain ⟨⟨ds, var⟩, hdefined⟩ := Option.isSome_iff_exists.mp h
  exact List.mem_map_of_mem (mem_of_lookup (definedIn_eq_some.mp hdefined).1)

theorem WellFormed.concat {c : Candidates} {vid : Vid} {w : FloatWidth} (h : p.WellFormed c)
    (hnew : c.width vid = none) (hdefined : (p.defined vid).isSome = true) :
    p.WellFormed (c ++ [(vid, w)]) where
  nodup := by
    rw [List.map_append]
    refine List.nodup_append.mpr ⟨h.nodup, List.nodup_singleton _, ?_⟩
    rintro a ha b hb rfl
    obtain ⟨e, he, rfl⟩ := List.mem_map.mp ha
    exact lookup_eq_none_iff.mp hnew e he (List.mem_singleton.mp hb)
  defined e he := by
    obtain he | he := List.mem_append.mp he
    · exact h.defined e he
    · obtain rfl := List.mem_singleton.mp he
      exact hdefined

/-- The rounds the adopt loop still has. -/
def adoptCost (p : FloatPass) (st : AdoptState) : Nat :=
  st.queue.length + Spread.left p.keys (st.cands.map Prod.fst)

theorem adopt_spec (w : FloatWidth) (st : AdoptState) (dst : Vid) (h : p.WellFormed st.cands) :
    p.WellFormed (p.adopt w st dst).cands ∧ p.adoptCost (p.adopt w st dst) ≤ p.adoptCost st := by
  unfold adopt
  split
  · exact ⟨h, le_rfl⟩
  rename_i hguard
  split
  · exact ⟨h, le_rfl⟩
  rename_i ds var hdefined
  have hsome : (p.defined dst).isSome = true := by rw [hdefined, Option.isSome_some]
  have hnew : st.cands.width dst = none := by
    by_contra hne
    exact hguard (by simp [Option.isSome_iff_ne_none.mpr hne])
  dsimp only
  split
  · refine ⟨h.concat hnew hsome, ?_⟩
    have hless : Spread.left p.keys ((st.cands ++ [(dst, w)]).map Prod.fst) <
        Spread.left p.keys (st.cands.map Prod.fst) := by
      refine Spread.left_lt ?_ (mem_keys_of_defined hsome) (fun hmem => ?_) (by simp)
      · rw [List.map_append]
        exact List.subset_append_left _ _
      · obtain ⟨e, he, heq⟩ := List.mem_map.mp hmem
        exact lookup_eq_none_iff.mp hnew e he heq
    simp only [adoptCost, List.length_append, List.length_singleton]
    omega
  · exact ⟨h, le_rfl⟩

theorem adoptAll_spec (st : AdoptState) (src : Vid) (dsts : List Vid) (h : p.WellFormed st.cands) :
    p.WellFormed (p.adoptAll st src dsts).cands ∧
      p.adoptCost (p.adoptAll st src dsts) ≤ p.adoptCost st := by
  unfold adoptAll
  split
  · exact ⟨h, le_rfl⟩
  rename_i w hwidth
  clear hwidth
  induction dsts generalizing st with
  | nil => exact ⟨h, le_rfl⟩
  | cons dst dsts ih =>
    obtain ⟨hstep, hcost⟩ := adopt_spec w st dst h
    obtain ⟨hrest, hcost'⟩ := ih (p.adopt w st dst) hstep
    exact ⟨hrest, le_trans hcost' hcost⟩

/-- The adopt loop, in any order, adds well-formed candidates, and every round costs one. -/
theorem AdoptRounds.spec (hrounds : p.AdoptRounds n st st') (h : p.WellFormed st.cands) :
    p.WellFormed st'.cands ∧ p.adoptCost st' + n ≤ p.adoptCost st := by
  induction hrounds with
  | refl => exact ⟨h, le_rfl⟩
  | snoc _ _ ih =>
    rename_i c before after dsts src budget _ _
    obtain ⟨hwf, hcost⟩ := ih h
    obtain ⟨hwf', hcost'⟩ := adoptAll_spec ⟨c, before ++ after, budget⟩ src dsts hwf
    refine ⟨hwf', ?_⟩
    simp only [adoptCost, List.length_append, List.length_cons] at hcost hcost' ⊢
    omega

end Adopt

section Feed

variable {p : FloatPass}

theorem seed_spec {st : FeedState} {e : Vid × List FloatDef} (h : p.WellFormed st.cands)
    (hnew : st.cands.width e.1 = none) : p.WellFormed (p.seed st e).cands ∧
      ∀ vid, vid ≠ e.1 → (p.seed st e).cands.width vid = st.cands.width vid := by
  unfold seed
  split
  · exact ⟨h, fun _ _ => rfl⟩
  rename_i ds var hdefined
  split
  · exact ⟨h, fun _ _ => rfl⟩
  split
  · exact ⟨h, fun _ _ => rfl⟩
  rename_i w _
  have hwf : p.WellFormed (st.cands ++ [(e.1, w)]) :=
    h.concat hnew (by rw [hdefined, Option.isSome_some])
  have hother (vid : Vid) (hvid : vid ≠ e.1) :
      Candidates.width (st.cands ++ [(e.1, w)]) vid = st.cands.width vid := by
    have hne : (vid == e.1) = false := beq_eq_false_iff_ne.mpr hvid
    rw [Candidates.width, List.lookup_append, List.lookup_cons, hne, List.lookup_nil,
      Option.or_none, Candidates.width]
  dsimp only
  split <;> split
  · exact ⟨hwf, hother⟩
  · exact ⟨h, fun _ _ => rfl⟩
  · exact ⟨hwf, hother⟩
  · exact ⟨h, fun _ _ => rfl⟩

theorem seeds_wellFormed (p : FloatPass) : p.WellFormed p.seeds.cands := by
  have hloop : ∀ (entries : List (Vid × List FloatDef)) (st : FeedState),
      (entries.map Prod.fst).Nodup → p.WellFormed st.cands →
      (∀ e ∈ entries, st.cands.width e.1 = none) →
      p.WellFormed (entries.foldl p.seed st).cands := by
    intro entries
    induction entries with
    | nil => exact fun _ _ h _ => h
    | cons e entries ih =>
      intro st hnodup h hnew
      obtain ⟨hhead, htail⟩ := List.nodup_cons.mp hnodup
      obtain ⟨hnone, hrest⟩ := List.forall_mem_cons.mp hnew
      obtain ⟨hwf, hother⟩ := seed_spec h hnone
      refine ih (p.seed st e) htail hwf fun e' he' => ?_
      rw [hother e'.1 fun heq => hhead (heq ▸ List.mem_map_of_mem he')]
      exact hrest e' he'
  exact hloop p.defsOf _ p.nodup ⟨List.nodup_nil, by simp⟩ (by simp [Candidates.width])

/-- The rounds the backwards propagation still has. -/
def feedCost (p : FloatPass) (fed : List Vid) (st : FeedState) : Nat :=
  st.work.length + Spread.left p.keys fed

theorem feedFrom_spec (w : FloatWidth) (fed : List Vid × FeedState) (d : FloatDef)
    (h : p.WellFormed fed.2.cands) : p.WellFormed (p.feedFrom w fed d).2.cands ∧
      p.feedCost (p.feedFrom w fed d).1 (p.feedFrom w fed d).2 ≤ p.feedCost fed.1 fed.2 := by
  unfold feedFrom
  split
  · rename_i sid _ _
    split
    · exact ⟨h, le_rfl⟩
    rename_i hguard
    split
    · exact ⟨h, le_rfl⟩
    rename_i ds var hdefined
    have hsome : (p.defined sid).isSome = true := by rw [hdefined, Option.isSome_some]
    dsimp only
    split
    · have hfree := h.sublist (List.filter_sublist (p := fun e => decide (e.1 ≠ sid)))
      refine ⟨hfree.concat ?_ hsome, ?_⟩
      · rw [Candidates.width_filter, if_pos rfl]
      · have hold : sid ∉ fed.1 := fun hmem => hguard (by simp [hmem])
        have hless := Spread.left_lt (List.subset_cons_self sid fed.1) (mem_keys_of_defined hsome)
          hold List.mem_cons_self
        simp only [feedCost, List.length_append, List.length_singleton]
        omega
    · exact ⟨h, le_rfl⟩
  · exact ⟨h, le_rfl⟩

theorem feedAll_spec (w : FloatWidth) (ds : List FloatDef) (fed : List Vid × FeedState)
    (h : p.WellFormed fed.2.cands) : p.WellFormed (ds.foldl (p.feedFrom w) fed).2.cands ∧
      p.feedCost (ds.foldl (p.feedFrom w) fed).1 (ds.foldl (p.feedFrom w) fed).2 ≤
        p.feedCost fed.1 fed.2 := by
  induction ds generalizing fed with
  | nil => exact ⟨h, le_rfl⟩
  | cons d ds ih =>
    obtain ⟨hstep, hcost⟩ := feedFrom_spec w fed d h
    obtain ⟨hrest, hcost'⟩ := ih (p.feedFrom w fed d) hstep
    exact ⟨hrest, le_trans hcost' hcost⟩

/-- The backwards propagation adds well-formed candidates and ends. -/
theorem feedFor_spec (fuel : Nat) (fed : List Vid) (st : FeedState) (h : p.WellFormed st.cands)
    (hfuel : p.feedCost fed st ≤ fuel) :
    p.WellFormed (p.feedFor fuel fed st).cands ∧ (p.feedFor fuel fed st).work = [] := by
  induction fuel generalizing fed st with
  | zero =>
    refine ⟨h, List.length_eq_zero_iff.mp ?_⟩
    unfold feedCost at hfuel
    unfold feedFor
    omega
  | succ fuel ih =>
    unfold feedFor
    split
    · rename_i hlast
      exact ⟨h, List.getLast?_eq_none_iff.mp hlast⟩
    · rename_i vid w hlast
      obtain ⟨hwf, hcost⟩ := feedAll_spec (p := p) w ((p.defsOf.lookup vid).getD [])
        (fed, { st with work := st.work.dropLast }) h
      refine ih _ _ hwf ?_
      have hpos : 0 < st.work.length := List.length_pos_of_ne_nil fun hnil => by
        rw [hnil] at hlast
        cases hlast
      simp only [feedCost, List.length_dropLast] at hcost hfuel ⊢
      omega

theorem fed_spec (p : FloatPass) : p.WellFormed p.fed.cands ∧ p.fed.work = [] := by
  refine feedFor_spec _ _ _ p.seeds_wellFormed ?_
  have hleft := Spread.left_le_length p.keys (p.seeds.work.map Prod.fst)
  rw [keys, List.length_map] at hleft
  exact Nat.add_le_add_left hleft _

end Feed

section Main

variable {p : FloatPass} {n : Nat}

theorem AdoptRounds.head {c : Candidates} {before after dsts : List Vid} {src : Vid} {budget : Nat}
    {st : AdoptState} (hdsts : dsts.Perm (p.dstsOf src))
    (h : p.AdoptRounds n (p.adoptAll ⟨c, before ++ after, budget⟩ src dsts) st) :
    p.AdoptRounds (n + 1) ⟨c, before ++ src :: after, budget⟩ st := by
  generalize hstart : p.adoptAll ⟨c, before ++ after, budget⟩ src dsts = start at h
  induction h with
  | refl => exact hstart ▸ .snoc (.refl _) hdsts
  | snoc _ hdsts' ih => exact .snoc (ih hstart) hdsts'

theorem DropRounds.head {c : Candidates} {before after : List Vid} {x : Vid}
    {es : List FloatEdge} {st : DropState} (hes : es.Perm (p.edgesAt x))
    (h : p.DropRounds n (es.foldl p.checkEdge ⟨c, before ++ after⟩) st) :
    p.DropRounds (n + 1) ⟨c, before ++ x :: after⟩ st := by
  generalize hstart : es.foldl p.checkEdge ⟨c, before ++ after⟩ = start at h
  induction h with
  | refl => exact hstart ▸ .snoc (.refl _) hes
  | snoc _ hes' ih => exact .snoc (ih hstart) hes'

/-- The order of the source, last in first out, is one of the orders. -/
theorem adoptFor_rounds (p : FloatPass) (fuel : Nat) (st : AdoptState) :
    ∃ n, p.AdoptRounds n st (p.adoptFor fuel st) ∧
      ((p.adoptFor fuel st).queue = [] ∨ n = fuel) := by
  induction fuel generalizing st with
  | zero => exact ⟨0, .refl st, .inr rfl⟩
  | succ fuel ih =>
    unfold adoptFor
    split
    · rename_i hlast
      exact ⟨0, .refl st, .inl (List.getLast?_eq_none_iff.mp hlast)⟩
    · rename_i src hlast
      obtain ⟨n, hrounds, hend⟩ := ih
        (p.adoptAll { st with queue := st.queue.dropLast } src (p.dstsOf src))
      have hqueue : st.queue = st.queue.dropLast ++ src :: [] :=
        (List.dropLast_append_getLast? src hlast).symm
      refine ⟨n + 1, ?_, hend.imp_right fun h => by omega⟩
      have hhead : p.AdoptRounds (n + 1) ⟨st.cands, st.queue.dropLast ++ src :: [], st.budget⟩
          (p.adoptFor fuel (p.adoptAll { st with queue := st.queue.dropLast } src
            (p.dstsOf src))) := .head (.refl _) (by simpa using hrounds)
      rwa [← hqueue] at hhead

theorem dropFor_rounds (p : FloatPass) (fuel : Nat) (st : DropState) :
    ∃ n, p.DropRounds n st (p.dropFor fuel st) ∧
      ((p.dropFor fuel st).dropped = [] ∨ n = fuel) := by
  induction fuel generalizing st with
  | zero => exact ⟨0, .refl st, .inr rfl⟩
  | succ fuel ih =>
    unfold dropFor
    split
    · rename_i hlast
      exact ⟨0, .refl st, .inl (List.getLast?_eq_none_iff.mp hlast)⟩
    · rename_i x hlast
      obtain ⟨n, hrounds, hend⟩ := ih
        ((p.edgesAt x).foldl p.checkEdge ⟨st.cands, st.dropped.dropLast⟩)
      have hdropped : st.dropped = st.dropped.dropLast ++ x :: [] :=
        (List.dropLast_append_getLast? x hlast).symm
      refine ⟨n + 1, ?_, hend.imp_right fun h => by omega⟩
      have hhead : p.DropRounds (n + 1) ⟨st.cands, st.dropped.dropLast ++ x :: []⟩
          (p.dropFor fuel ((p.edgesAt x).foldl p.checkEdge ⟨st.cands, st.dropped.dropLast⟩)) :=
        .head (.refl _) (by simpa using hrounds)
      rwa [← hdropped] at hhead

/-- The adopt and the drop loop end in any order, whatever queue the adopt loop starts with,
within rounds that the versions and the candidates bound, and the candidates that survive
obey the move rule with the types of the final re-type list. -/
theorem float_move_rule (p : FloatPass) (queue : List Vid) (edges : List FloatEdge)
    (hedges : edges.Perm p.edges) :
    (∀ n st, p.AdoptRounds n ⟨p.fed.cands, queue, p.fed.budget⟩ st →
      n ≤ queue.length + p.defsOf.length) ∧
    (∀ n st, p.AdoptRounds n ⟨p.fed.cands, queue, p.fed.budget⟩ st → st.queue = [] →
      (∀ m st', p.DropRounds m (edges.foldl p.checkEdge ⟨st.cands, []⟩) st' →
        m ≤ st.cands.length) ∧
      ∀ m st', p.DropRounds m (edges.foldl p.checkEdge ⟨st.cands, []⟩) st' → st'.dropped = [] →
        p.MoveRule st'.cands) ∧
    p.MoveRule (p.survivors (p.adopted queue)) := by
  have hfed := p.fed_spec.1
  have hbound {n : Nat} {st : AdoptState}
      (h : p.AdoptRounds n ⟨p.fed.cands, queue, p.fed.budget⟩ st) :
      st.queue.length + n ≤ queue.length + p.defsOf.length := by
    obtain ⟨-, hcost⟩ := h.spec hfed
    have hleft := Spread.left_le_length p.keys (p.fed.cands.map Prod.fst)
    rw [keys, List.length_map] at hleft
    simp only [adoptCost, keys] at hcost
    omega
  refine ⟨fun n st h => by have := hbound h; omega, fun n st h _ =>
    drop_moveRule (h.spec hfed).1 hedges, ?_⟩
  -- the source's own order, whose rounds suffice
  obtain ⟨n, hadopt, -⟩ := p.adoptFor_rounds (queue.length + p.defsOf.length)
    ⟨p.fed.cands, queue, p.fed.budget⟩
  obtain ⟨hbounded, hrule⟩ := drop_moveRule (hadopt.spec hfed).1 (.refl p.edges)
  obtain ⟨m, hdrop, hend⟩ := p.dropFor_rounds (p.adopted queue).length
    (p.edges.foldl p.checkEdge ⟨p.adopted queue, []⟩)
  refine hrule m _ hdrop ?_
  obtain hempty | rfl := hend
  · exact hempty
  obtain ⟨hshrinks, hsweep⟩ := sweep_spec (p := p) p.edges ⟨p.adopted queue, []⟩
  obtain ⟨-, htotal, -⟩ := hdrop.spec fun e he => hsweep e (.inl he)
  have hfirst := hshrinks.total
  simp only [List.length_nil] at hfirst
  exact List.length_eq_zero_iff.mp (by omega)

/-- A float parked in one register and moved into the one it is used from. -/
def parkedFloat : FloatPass where
  defsOf := [
    ([0x61], [⟨some (.const (ascii "I") 1065353216), none⟩]),
    ([0x62], [⟨some (.ident [0x61] (ascii "I")), some .plain⟩])]
  nodup := by decide
  var _ := some (.local, ascii "I")
  declaredParams := []
  fpUse vid := if vid = [0x62] then some .f else none
  fpConflict _ := false
  nonfpUse _ := false
  nonfpPrim _ := false
  objectVids _ := false
  fpMoves := [([0x62], [0x61])]
  fpArith := []
  arrayTyped _ := false
  retypes := []

theorem float_move_rule_parkedFloat :
    (parkedFloat.survivors (parkedFloat.adopted [[0x61], [0x62]])).width [0x61] = some .f ∧
      parkedFloat.MoveRule (parkedFloat.survivors (parkedFloat.adopted [[0x61], [0x62]])) :=
  ⟨by decide, (float_move_rule parkedFloat [[0x61], [0x62]] parkedFloat.edges (.refl _)).2.2⟩

end Main

end FloatPass

end Dad

end Dexllm
