import Dexllm.Dad.MoveSteps

/-!
What the order of the visits decides of the re-types by the move opcodes: never which
versions are references, nor their types; and nothing at all where no version whose width
is re-typed is itself the source of a plain or wide move.
-/

namespace Dexllm

namespace Dad

namespace MovePass

variable {p : MovePass} {types : Vid → Text} {ds : List MoveDef} {cur w : Text} {v : Vid}
variable {s s' F : MoveState}

/-- Where a run ends by itself. -/
structure Final (p : MovePass) (F : MoveState) : Prop extends Kept p F where
  quiet : ∀ v, p.visit F v = none

/-- Every version is of the kind it starts with or ends with, and a reference has the type
it starts with or ends with. -/
structure KindsBetween (p : MovePass) (F s : MoveState) : Prop where
  kind : ∀ u, SameKind (s.types u) (p.types u) ∨ SameKind (s.types u) (F.types u)
  ref : ∀ u, isRef (s.types u) = true → s.types u = p.types u ∨ s.types u = F.types u

theorem KindsBetween.start : KindsBetween p F ⟨p.types, []⟩ where
  kind _ := .inl ⟨rfl, rfl⟩
  ref _ _ := .inl rfl

/-- A reference that a `move-object` copies has its last type. -/
theorem KindsBetween.refSource {r : BoolRhs} (h : KindsBetween p F s) (hF : Final p F)
    (hdef : ByObject p v r) (href : isRef (r.typeIn s.types) = true) :
    r.typeIn s.types = r.typeIn F.types := by
  obtain ⟨lone, hds⟩ := hdef
  cases r with
  | ident u =>
    have hsrc : p.moveobjSrc u = true :=
      isSource_of_defined hds List.mem_cons_self rfl rfl (by decide)
    obtain hstart | hlast := h.ref u href
    · have href : isRef (p.types u) = true := hstart ▸ href
      exact hstart.trans (hF.objSrc u hsrc href).symm
    · exact hlast
  | const _ _ => rfl
  | other _ => rfl

/-- What a `move-object` re-types gets its last type. -/
theorem object_final {r : BoolRhs} (hF : Final p F) (hs : Kept p s) (hdef : ByObject p v r)
    (hcur : isPrimDesc (s.types v) = true) (hsrc : isRef (r.typeIn F.types) = true)
    (huse : p.flags.intUse v = false) (hmove : p.moveprimSrc v = false) :
    F.types v = r.typeIn F.types := by
  obtain hsame | ⟨-, hlast⟩ := hF.object v r hdef
  · have hstart : s.types v = p.types v := by
      obtain hstart | ⟨href, htype⟩ := hs.object v r hdef
      · exact hstart
      · exact (isRef_ne_isPrimDesc href (htype ▸ hcur)).elim
    obtain ⟨lone, hds⟩ := hdef
    have hnot := not_prim_of_quiet (hF.quiet v) hds hsrc huse hmove
    rw [hsame, ← hstart, hcur] at hnot
    cases hnot
  · exact hlast

/-- What a plain or wide move re-types starts as a reference. -/
theorem prim_start {r : BoolRhs} {kind : MoveKind} {lone : Bool} (hs : Kept p s)
    (hds : p.defined v = some [⟨some r, some kind, lone⟩]) (hkind : kind = .plain ∨ kind = .wide)
    (hcur : isRef (s.types v) = true) : s.types v = p.types v := by
  obtain hstart | hprim := hs.other v fun r' => not_byObject_of_prim hds hkind
  · exact hstart
  · exact (isRef_ne_isPrimDesc hcur hprim).elim

theorem KindsBetween.primSource {r : BoolRhs} {kind : MoveKind} {lone : Bool}
    (h : KindsBetween p F s) (hF : Final p F)
    (hds : p.defined v = some [⟨some r, some kind, lone⟩]) (hkind : kind = .plain ∨ kind = .wide)
    (hprim : isPrimDesc (r.typeIn s.types) = true) : isPrimDesc (r.typeIn F.types) = true := by
  cases r with
  | ident u =>
    have hsrc : p.moveprimSrc u = true := by
      apply isSource_of_defined hds List.mem_cons_self rfl rfl
      simpa using hkind
    obtain ⟨-, hstart⟩ | ⟨-, hlast⟩ := h.kind u
    · exact hF.primSrc u hsrc (hstart ▸ hprim)
    · exact hlast ▸ hprim
  | const _ _ => exact hprim
  | other _ => exact hprim

theorem KindsBetween.step (h : KindsBetween p F s) (hF : Final p F) (hs : Kept p s)
    (hstep : Step p s v s') : KindsBetween p F s' := by
  suffices hv : (SameKind (s'.types v) (p.types v) ∨ SameKind (s'.types v) (F.types v)) ∧
      (isRef (s'.types v) = true → s'.types v = p.types v ∨ s'.types v = F.types v) by
    constructor
    · intro u
      by_cases hne : u = v
      · exact hne ▸ hv.1
      · rw [hstep.types_of_ne hne]
        exact h.kind u
    · intro u
      by_cases hne : u = v
      · exact hne ▸ hv.2
      · rw [hstep.types_of_ne hne]
        exact h.ref u
  cases hstep with
  | @width ds w hds hfresh hw =>
    obtain ⟨-, hprim, hcur⟩ := widthType_spec hw
    have hsame : SameKind w (s.types v) :=
      ⟨by rw [not_isRef_of_isPrimDesc hprim, not_isRef_of_isPrimDesc hcur], by rw [hprim, hcur]⟩
    simp only [Function.update_self]
    refine ⟨?_, fun href => (isRef_ne_isPrimDesc href hprim).elim⟩
    exact (h.kind v).imp (fun hk => ⟨hsame.1.trans hk.1, hsame.2.trans hk.2⟩)
      fun hk => ⟨hsame.1.trans hk.1, hsame.2.trans hk.2⟩
  | @object r lone hds hcur href huse hmove =>
    have hsrc : r.typeIn s.types = r.typeIn F.types := h.refSource hF ⟨lone, hds⟩ href
    have hlast : F.types v = r.typeIn s.types := by
      rw [hsrc] at href ⊢
      exact object_final hF hs ⟨lone, hds⟩ hcur href huse hmove
    simp only [Function.update_self]
    rw [hlast]
    exact ⟨.inr ⟨rfl, rfl⟩, fun _ => .inr rfl⟩
  | @prim r kind lone hds hkind hcur hprim huse hmove =>
    have hstart : s.types v = p.types v := prim_start hs hds hkind hcur
    have hsrc : isPrimDesc (r.typeIn F.types) = true := h.primSource hF hds hkind hprim
    have hnot : isRef (F.types v) = false :=
      not_ref_of_quiet (hF.quiet v) hds hkind hsrc huse hmove
    have hlast : isPrimDesc (F.types v) = true := by
      obtain hsame | hlast := hF.other v fun r' => not_byObject_of_prim hds hkind
      · rw [hsame, ← hstart, hcur] at hnot
        cases hnot
      · exact hlast
    simp only [Function.update_self]
    refine ⟨.inr ⟨?_, by rw [hprim, hlast]⟩, fun href => (isRef_ne_isPrimDesc href hprim).elim⟩
    rw [not_isRef_of_isPrimDesc hprim, hnot]

/-- Two runs that end by themselves agree on the references. -/
theorem KindsBetween.antisymm {F₁ F₂ : MoveState} (h₁ : KindsBetween p F₂ F₁)
    (h₂ : KindsBetween p F₁ F₂) (u : Vid) : SameKind (F₁.types u) (F₂.types u) ∧
      (isRef (F₁.types u) = true → F₁.types u = F₂.types u) := by
  have hkind : SameKind (F₁.types u) (F₂.types u) := by
    obtain hstart₁ | hsame := h₁.kind u
    · obtain hstart₂ | hsame := h₂.kind u
      · exact ⟨hstart₁.1.trans hstart₂.1.symm, hstart₁.2.trans hstart₂.2.symm⟩
      · exact ⟨hsame.1.symm, hsame.2.symm⟩
    · exact hsame
  refine ⟨hkind, fun href => ?_⟩
  obtain hstart₁ | hsame := h₁.ref u href
  · obtain hstart₂ | hsame := h₂.ref u (hkind.1 ▸ href)
    · exact hstart₁.trans hstart₂.symm
    · exact hsame.symm
  · exact hsame

theorem Step.widthRetyped_subset (h : Step p s v s') : s.widthRetyped ⊆ s'.widthRetyped := by
  cases h with
  | width _ _ _ => exact List.subset_cons_self v s.widthRetyped
  | object _ _ _ _ _ => exact List.Subset.refl _
  | prim _ _ _ _ _ _ => exact List.Subset.refl _

theorem Step.widthsUnread (h : Step p s v s') (hunread : WidthsUnread p s') : WidthsUnread p s :=
  fun u hu => hunread u (h.widthRetyped_subset hu)

/-- A primitive that a plain or wide move copies stays as it is. -/
theorem Step.fixed {u : Vid} (h : Step p s v s') (hunread : WidthsUnread p s')
    (hsrc : p.moveprimSrc u = true) (hprim : isPrimDesc (s.types u) = true) :
    s'.types u = s.types u := by
  by_cases hne : u = v
  · subst hne
    cases h with
    | width _ _ _ => simp [hunread u List.mem_cons_self] at hsrc
    | object _ _ _ _ hmove => simp [hsrc] at hmove
    | prim _ _ hcur _ _ _ => exact (isRef_ne_isPrimDesc hcur hprim).elim
  · exact h.types_of_ne hne

theorem moveprimSrc_of_defined {d : MoveDef} {kind : MoveKind} {sid : Vid}
    (hds : p.defined v = some ds) (hd : d ∈ ds) (hmove : d.kind = some kind)
    (hkind : kind = .plain ∨ kind = .wide) (hrhs : d.rhs = some (.ident sid)) :
    p.moveprimSrc sid = true :=
  isSource_of_defined hds hd hrhs hmove (by simpa using hkind)

theorem Step.fixed_typeIn {u : Vid} {d : MoveDef} {kind : MoveKind} {r : BoolRhs}
    (h : Step p s v s') (hunread : WidthsUnread p s') (hds : p.defined u = some ds) (hd : d ∈ ds)
    (hmove : d.kind = some kind) (hkind : kind = .plain ∨ kind = .wide) (hrhs : d.rhs = some r)
    (hprim : isPrimDesc (r.typeIn s.types) = true) : r.typeIn s'.types = r.typeIn s.types := by
  cases r with
  | ident sid => exact h.fixed hunread (moveprimSrc_of_defined hds hd hmove hkind hrhs) hprim
  | const _ _ => rfl
  | other _ => rfl

theorem Step.fixed_widthType {u : Vid} (h : Step p s v s') (hunread : WidthsUnread p s')
    (hds : p.defined u = some ds) (hw : p.widthType s.types u ds cur = some w) :
    p.widthType s'.types u ds cur = some w := by
  rw [← hw]
  refine widthType_congr fun d hd r hrhs => ?_
  obtain ⟨hmove, r', hrhs', hprim⟩ := (widthType_spec hw).1 d hd
  cases hrhs.symm.trans hrhs'
  exact h.fixed_typeIn hunread hds hd hmove (.inl rfl) hrhs hprim

/-- What a run keeps as long as no version whose width it re-types is copied. -/
structure Settled (p : MovePass) (s : MoveState) : Prop where
  source : ∀ u, p.moveprimSrc u = true → isPrimDesc (p.types u) = true → s.types u = p.types u
  width : ∀ u ∈ s.widthRetyped, ∃ ds cur, p.defined u = some ds ∧
    p.widthType s.types u ds cur = some (s.types u)
  copied : ∀ {u r kind lone}, p.defined u = some [⟨some r, some kind, lone⟩] →
    kind = .plain ∨ kind = .wide → isRef (p.types u) = true →
    s.types u = p.types u ∨
      isPrimDesc (r.typeIn s.types) = true ∧ s.types u = r.typeIn s.types
  unchanged : ∀ {u ds}, p.defined u = some ds → (∀ d ∈ ds, d.kind = some .plain) →
    u ∉ s.widthRetyped → isPrimDesc (p.types u) = true → s.types u = p.types u

theorem Settled.start : Settled p ⟨p.types, []⟩ where
  source _ _ _ := rfl
  width _ hu := by cases hu
  copied _ _ _ := .inl rfl
  unchanged _ _ _ _ := rfl

/-- A version whose width has been re-typed stays as it is. -/
theorem Settled.width_step {u : Vid} (hs : Settled p s) (h : Step p s v s')
    (hu : u ∈ s.widthRetyped) : s'.types u = s.types u := by
  obtain ⟨ds, cur, hds, hw⟩ := hs.width u hu
  by_cases hne : u = v
  · subst hne
    cases h with
    | width _ hfresh _ => exact (hfresh hu).elim
    | object hds' _ _ _ _ => exact (not_byObject_of_width hds hw _ ⟨_, hds'⟩).elim
    | prim _ _ hcur _ _ _ => exact (isRef_ne_isPrimDesc hcur (widthType_spec hw).2.1).elim
  · exact h.types_of_ne hne

theorem Settled.step (hs : Settled p s) (h : Step p s v s') (hunread : WidthsUnread p s') :
    Settled p s' where
  source u hsrc hprim := by
    have hsame : s.types u = p.types u := hs.source u hsrc hprim
    rw [h.fixed hunread hsrc (hsame ▸ hprim), hsame]
  width u hu := by
    by_cases hold : u ∈ s.widthRetyped
    · obtain ⟨ds, cur, hds, hw⟩ := hs.width u hold
      rw [hs.width_step h hold]
      exact ⟨ds, cur, hds, h.fixed_widthType hunread hds hw⟩
    · cases h with
      | @width ds w hds hfresh hw =>
        obtain rfl : u = v := (List.mem_cons.mp hu).resolve_right hold
        have hstep : Step p s u _ := .width hds hfresh hw
        refine ⟨ds, s.types u, hds, ?_⟩
        rw [hstep.fixed_widthType hunread hds hw]
        simp only [Function.update_self]
      | object _ _ _ _ _ => exact (hold hu).elim
      | prim _ _ _ _ _ _ => exact (hold hu).elim
  copied {u r kind lone} hds hkind href := by
    have hfixed (hprim : isPrimDesc (r.typeIn s.types) = true) :
        r.typeIn s'.types = r.typeIn s.types :=
      h.fixed_typeIn hunread hds List.mem_cons_self rfl hkind rfl hprim
    have hold := hs.copied hds hkind href
    by_cases hne : u = v
    · subst hne
      cases h with
      | width hds' _ hw =>
        cases hds.symm.trans hds'
        obtain hstart | ⟨-, hcopy⟩ := hold
        · exact (isRef_ne_isPrimDesc href (hstart ▸ (widthType_spec hw).2.2)).elim
        · rw [hcopy, widthType_single] at hw
          cases hw
      | object hds' _ _ _ _ => exact (not_byObject_of_prim hds hkind ⟨_, hds'⟩).elim
      | prim hds' _ _ hprim _ _ =>
        cases hds.symm.trans hds'
        rw [hfixed hprim]
        exact .inr ⟨hprim, Function.update_self _ _ _⟩
    · rw [h.types_of_ne hne]
      refine hold.imp_right fun ⟨hprim, hcopy⟩ => ?_
      rw [hfixed hprim]
      exact ⟨hprim, hcopy⟩
  unchanged {u ds} hds hplain hu hprim := by
    have hsame : s.types u = p.types u :=
      hs.unchanged hds hplain (fun hold => hu (h.widthRetyped_subset hold)) hprim
    by_cases hne : u = v
    · subst hne
      cases h with
      | width _ _ _ => exact (hu List.mem_cons_self).elim
      | object hds' _ _ _ _ =>
        cases hds.symm.trans hds'
        cases hplain _ List.mem_cons_self
      | prim _ _ hcur _ _ _ => exact (isRef_ne_isPrimDesc hcur (hsame ▸ hprim)).elim
    · rw [h.types_of_ne hne]
      exact hsame

/-- Every version has the type it starts with or ends with. -/
structure TypesBetween (p : MovePass) (F s : MoveState) : Prop where
  types : ∀ u, s.types u = p.types u ∨ s.types u = F.types u
  widths : s.widthRetyped ⊆ F.widthRetyped

theorem TypesBetween.start : TypesBetween p F ⟨p.types, []⟩ where
  types _ := .inl rfl
  widths := List.nil_subset _

/-- A primitive that a plain or wide move copies has its last type. -/
theorem TypesBetween.source {d : MoveDef} {kind : MoveKind} {r : BoolRhs}
    (h : TypesBetween p F s) (hF : Settled p F) (hds : p.defined v = some ds) (hd : d ∈ ds)
    (hmove : d.kind = some kind) (hkind : kind = .plain ∨ kind = .wide) (hrhs : d.rhs = some r)
    (hprim : isPrimDesc (r.typeIn s.types) = true) : r.typeIn s.types = r.typeIn F.types := by
  cases r with
  | ident u =>
    have hsrc : p.moveprimSrc u = true := moveprimSrc_of_defined hds hd hmove hkind hrhs
    obtain hstart | hlast := h.types u
    · have hprim : isPrimDesc (p.types u) = true := hstart ▸ hprim
      exact hstart.trans (hF.source u hsrc hprim).symm
    · exact hlast
  | const _ _ => rfl
  | other _ => rfl

theorem TypesBetween.refs (h : TypesBetween p F s) : KindsBetween p F s where
  kind u := by
    obtain hstart | hlast := h.types u
    · rw [hstart]
      exact .inl ⟨rfl, rfl⟩
    · rw [hlast]
      exact .inr ⟨rfl, rfl⟩
  ref u _ := h.types u

/-- A version whose width is re-typed gets its last type. -/
theorem TypesBetween.width_final (h : TypesBetween p F s) (hF : Final p F) (hset : Settled p F)
    (hds : p.defined v = some ds) (hw : p.widthType s.types v ds (s.types v) = some w) :
    F.types v = w ∧ v ∈ F.widthRetyped := by
  obtain ⟨hplain, -, hcur⟩ := widthType_spec hw
  have hwF : p.widthType F.types v ds (s.types v) = some w := by
    rw [← hw]
    refine widthType_congr fun d hd r hrhs => ?_
    obtain ⟨hmove, r', hrhs', hprim⟩ := hplain d hd
    cases hrhs.symm.trans hrhs'
    exact (h.source hset hds hd hmove (.inl rfl) hrhs hprim).symm
  by_cases hmem : v ∈ F.widthRetyped
  · obtain ⟨ds', cur, hds', hlast⟩ := hset.width v hmem
    cases hds.symm.trans hds'
    exact ⟨widthType_unique hlast hwF, hmem⟩
  · have hsame : s.types v = F.types v := by
      obtain hstart | hlast := h.types v
      · exact hstart.trans
          (hset.unchanged hds (fun d hd => (hplain d hd).1) hmem (hstart ▸ hcur)).symm
      · exact hlast
    have hnone := widthType_of_quiet (hF.quiet v) hds hmem
    rw [← hsame, hwF] at hnone
    cases hnone

theorem TypesBetween.step (h : TypesBetween p F s) (hF : Final p F) (hset : Settled p F)
    (hs : Kept p s) (hstep : Step p s v s') : TypesBetween p F s' := by
  suffices hv : s'.types v = F.types v ∧ s'.widthRetyped ⊆ F.widthRetyped by
    refine ⟨fun u => ?_, hv.2⟩
    by_cases hne : u = v
    · exact hne ▸ .inr hv.1
    · rw [hstep.types_of_ne hne]
      exact h.types u
  cases hstep with
  | width hds hfresh hw =>
    obtain ⟨hlast, hmem⟩ := h.width_final hF hset hds hw
    simp only [Function.update_self]
    exact ⟨hlast.symm, List.cons_subset.mpr ⟨hmem, h.widths⟩⟩
  | @object r lone hds hcur href huse hmove =>
    have hsrc : r.typeIn s.types = r.typeIn F.types := h.refs.refSource hF ⟨lone, hds⟩ href
    simp only [Function.update_self]
    refine ⟨?_, h.widths⟩
    rw [hsrc] at href ⊢
    exact (object_final hF hs ⟨lone, hds⟩ hcur href huse hmove).symm
  | @prim r kind lone hds hkind hcur hprim huse hmove =>
    have hsrc : r.typeIn s.types = r.typeIn F.types :=
      h.source hset hds List.mem_cons_self rfl hkind rfl hprim
    have hstart : s.types v = p.types v := prim_start hs hds hkind hcur
    simp only [Function.update_self]
    refine ⟨?_, h.widths⟩
    rw [hsrc] at hprim ⊢
    have hnot : isRef (F.types v) = false :=
      not_ref_of_quiet (hF.quiet v) hds hkind hprim huse hmove
    obtain hsame | ⟨-, hlast⟩ := hset.copied hds hkind (hstart ▸ hcur)
    · rw [hsame, ← hstart, hcur] at hnot
      cases hnot
    · exact hlast.symm

theorem TypesBetween.antisymm {F₁ F₂ : MoveState} (h₁ : TypesBetween p F₂ F₁)
    (h₂ : TypesBetween p F₁ F₂) (u : Vid) : F₁.types u = F₂.types u := by
  obtain hstart₁ | hsame := h₁.types u
  · obtain hstart₂ | hsame := h₂.types u
    · exact hstart₁.trans hstart₂.symm
    · exact hsame.symm
  · exact hsame

section Runs

variable {order order₁ order₂ : List Vid} {cap cap₁ cap₂ : Nat}

theorem visit_of_not_version (h : v ∉ p.versions) : p.visit s v = none := by
  have hdefined : p.defined v = none := by
    by_contra hne
    obtain ⟨ds, hds⟩ := Option.ne_none_iff_exists'.mp hne
    exact h (List.mem_map_of_mem (defined_mem hds))
  rw [visit, hdefined]

theorem retyped_invariant (inv : MoveState → Prop) (hstart : inv ⟨p.types, []⟩)
    (hstep : ∀ {s v s'}, inv s → Step p s v s' → inv s') : inv (p.retyped order cap).1 :=
  RoundLoop.run_invariant inv hstart fun _ hinv hvisit => hstep hinv (step_of_visit hvisit)

theorem retyped_kept : Kept p (p.retyped order cap).1 :=
  retyped_invariant (Kept p) .start fun hkept hstep => hkept.step hstep

theorem retyped_final (horder : order.Perm p.versions)
    (h : (p.retyped order cap).2 = false) : Final p (p.retyped order cap).1 where
  toKept := retyped_kept
  quiet v := by
    by_cases hv : v ∈ p.versions
    · exact RoundLoop.quiet_of_run h v (horder.mem_iff.mpr hv)
    · exact visit_of_not_version hv

theorem retyped_settled (hunread : WidthsUnread p (p.retyped order cap).1) :
    Settled p (p.retyped order cap).1 := by
  have hrun : WidthsUnread p (p.retyped order cap).1 → Settled p (p.retyped order cap).1 :=
    retyped_invariant (fun s => WidthsUnread p s → Settled p s) (fun _ => .start)
      fun hset hstep hunread => (hset (hstep.widthsUnread hunread)).step hstep hunread
  exact hrun hunread

theorem retyped_kindsBetween (hF : Final p F) : KindsBetween p F (p.retyped order cap).1 := by
  have hrun : Kept p (p.retyped order cap).1 ∧ KindsBetween p F (p.retyped order cap).1 :=
    retyped_invariant (fun s => Kept p s ∧ KindsBetween p F s) ⟨.start, .start⟩
      fun h hstep => ⟨h.1.step hstep, h.2.step hF h.1 hstep⟩
  exact hrun.2

theorem retyped_typesBetween (hF : Final p F) (hset : Settled p F) :
    TypesBetween p F (p.retyped order cap).1 := by
  have hrun : Kept p (p.retyped order cap).1 ∧ TypesBetween p F (p.retyped order cap).1 :=
    retyped_invariant (fun s => Kept p s ∧ TypesBetween p F s) ⟨.start, .start⟩
      fun h hstep => ⟨h.1.step hstep, h.2.step hF hset h.1 hstep⟩
  exact hrun.2

theorem Step.openRetypes_of_ne {u : Vid} (h : Step p s v s') (hne : u ≠ v) :
    p.openRetypes s' u = p.openRetypes s u := by
  have hmem : u ∈ s'.widthRetyped ↔ u ∈ s.widthRetyped := by
    cases h with
    | width _ _ _ => simp [hne]
    | object _ _ _ _ _ => rfl
    | prim _ _ _ _ _ _ => rfl
  unfold openRetypes
  simp only [h.types_of_ne hne, hmem]

/-- Each visit that re-types a version closes one of its re-types. -/
theorem Step.openRetypes_lt (h : Step p s v s') : p.openRetypes s' v < p.openRetypes s v := by
  cases h with
  | @width ds w hds hfresh hw =>
    obtain ⟨hplain, hprim, -⟩ := widthType_spec hw
    have hall : (ds.all fun d => d.kind = some .plain) = true := by
      simpa using fun d hd => (hplain d hd).1
    have hkind : openKind w ds ≤ openKind (s.types v) ds := by
      unfold openKind
      split
      · cases (hplain _ List.mem_cons_self).1
      · simp [not_isRef_of_isPrimDesc hprim]
      · cases (hplain _ List.mem_cons_self).1
      · exact Nat.zero_le _
    have hmem : v ∈ v :: s.widthRetyped := List.mem_cons_self
    simp only [openRetypes, hds, hall, hfresh, hmem, Function.update_self, not_true_eq_false,
      not_false_eq_true, and_false, and_self, if_true, if_false]
    omega
  | object hds hcur href _ _ =>
    have hnot : isPrimDesc (_ : Text) = false :=
      Bool.eq_false_iff.mpr fun hprim => isRef_ne_isPrimDesc href hprim
    simp [openRetypes, hds, openKind, hcur, hnot]
  | prim hds hkind hcur hprim _ _ =>
    have hnot := not_isRef_of_isPrimDesc hprim
    rcases hkind with rfl | rfl <;> simp [openRetypes, hds, openKind, hcur, hnot]

/-- With rounds for all the re-types that the versions are open to, the loop stops by itself. -/
theorem retyped_ends (horder : order.Perm p.versions)
    (hcap : p.openAtStart < cap) :
    (p.retyped order cap).2 = false := by
  apply RoundLoop.run_ends (fun s => (p.versions.map (p.openRetypes s)).sum) _ hcap
  intro s v s' hv hvisit
  have hstep : Step p s v s' := step_of_visit hvisit
  refine List.sum_lt_sum _ _ (fun u _ => ?_) ⟨v, horder.mem_iff.mp hv, hstep.openRetypes_lt⟩
  by_cases hne : u = v
  · exact hne ▸ hstep.openRetypes_lt.le
  · exact (hstep.openRetypes_of_ne hne).le

/-- The order does not decide which versions are references, nor their types. -/
theorem references_confluent (h₁ : order₁.Perm p.versions) (h₂ : order₂.Perm p.versions)
    (hend₁ : (p.retyped order₁ cap₁).2 = false) (hend₂ : (p.retyped order₂ cap₂).2 = false)
    (u : Vid) :
    SameKind ((p.retyped order₁ cap₁).1.types u) ((p.retyped order₂ cap₂).1.types u) ∧
      (isRef ((p.retyped order₁ cap₁).1.types u) = true →
        (p.retyped order₁ cap₁).1.types u = (p.retyped order₂ cap₂).1.types u) :=
  (retyped_kindsBetween (retyped_final h₂ hend₂)).antisymm
    (retyped_kindsBetween (retyped_final h₁ hend₁)) u

/-- The order decides nothing where the widths that one run re-types are not copied. -/
theorem types_confluent (h₁ : order₁.Perm p.versions) (h₂ : order₂.Perm p.versions)
    (hend₁ : (p.retyped order₁ cap₁).2 = false) (hend₂ : (p.retyped order₂ cap₂).2 = false)
    (hunread : WidthsUnread p (p.retyped order₁ cap₁).1) (u : Vid) :
    (p.retyped order₁ cap₁).1.types u = (p.retyped order₂ cap₂).1.types u := by
  have hbetween : TypesBetween p (p.retyped order₁ cap₁).1 (p.retyped order₂ cap₂).1 :=
    retyped_typesBetween (retyped_final h₁ hend₁) (retyped_settled hunread)
  have hunread₂ : WidthsUnread p (p.retyped order₂ cap₂).1 :=
    fun u hu => hunread u (hbetween.widths hu)
  exact (retyped_typesBetween (retyped_final h₂ hend₂) (retyped_settled hunread₂)).antisymm
    hbetween u

end Runs

end MovePass

/-- With rounds for all the re-types that the versions are open to, the loop stops because
nothing changes. Where two orders let it stop so, the same versions are references, of the
same types, and the same are primitives; and all types are the same if one of the two runs
re-types the width of no version that is itself the source of a plain or wide move. -/
theorem move_types_settle (p : MovePass) (order₁ order₂ : List Vid)
    (h₁ : order₁.Perm p.versions) (h₂ : order₂.Perm p.versions) (cap₁ cap₂ : Nat) :
    (p.openAtStart < cap₁ → (p.retyped order₁ cap₁).2 = false) ∧
      ((p.retyped order₁ cap₁).2 = false → (p.retyped order₂ cap₂).2 = false → ∀ u,
        SameKind ((p.retyped order₁ cap₁).1.types u) ((p.retyped order₂ cap₂).1.types u) ∧
          (isRef ((p.retyped order₁ cap₁).1.types u) = true ∨
              p.WidthsUnread (p.retyped order₁ cap₁).1 →
            (p.retyped order₁ cap₁).1.types u = (p.retyped order₂ cap₂).1.types u)) := by
  refine ⟨MovePass.retyped_ends h₁, fun hend₁ hend₂ u => ?_⟩
  obtain ⟨hkind, href⟩ := MovePass.references_confluent h₁ h₂ hend₁ hend₂ u
  refine ⟨hkind, fun hor => hor.elim href fun hunread => ?_⟩
  exact MovePass.types_confluent h₁ h₂ hend₁ hend₂ hunread u

section Examples

/-- A method whose versions are all locals, with no use but their moves. -/
def movesOnly (defsOf : List (Vid × List MoveDef)) (hnodup : (defsOf.map Prod.fst).Nodup)
    (types : Vid → Text) : MovePass where
  flags :=
    { defsOf := defsOf.map fun e => (e.1, e.2.map MoveDef.toBool)
      nodup := by rw [List.map_map]; exact hnodup
      var := fun vid => some (.local, types vid)
      declaredParams := []
      boolUse := fun _ => false
      intUse := fun _ => false
      intRequired := fun _ => false
      primUse := fun _ => false
      objectVids := fun _ => false
      positions := fun _ => []
      earlier := fun _ => .reached
      later := fun _ => none }
  defsOf := defsOf
  defs_eq := rfl
  types := types

/-- The version `v<k>`. -/
def version (k : Nat) : Vid := ascii "v" ++ [UInt8.ofNat k]

/-- `v1 = v0; v2 = v1; …`, by moves of one kind. -/
def moveChain (kind : MoveKind) (links : Nat) : List (Vid × List MoveDef) :=
  (List.range links).map fun k => (version (k + 1), [⟨some (.ident (version k)), some kind, false⟩])

/-- `float v0; int v1 = v0; float v2 = v1`. -/
def staleChain : MovePass :=
  movesOnly (moveChain .plain 2) (by decide) fun v => if v = version 1 then typeI else ascii "F"

/-- `L v0; int v1 = v0; int v2 = v1; …`. -/
def objectChain (links : Nat) (hnodup : ((moveChain .object links).map Prod.fst).Nodup) :
    MovePass :=
  movesOnly (moveChain .object links) hnodup fun v => if v = version 0 then ascii "La;" else typeI

theorem move_types_settle_objects :
    ((objectChain 3 (by decide)).retyped (objectChain 3 (by decide)).versions.reverse
      maxRounds).1.types (version 3) =
      ((objectChain 3 (by decide)).retyped (objectChain 3 (by decide)).versions
        maxRounds).1.types (version 3) :=
  ((move_types_settle (objectChain 3 (by decide)) _ _ (List.reverse_perm _) (.refl _)
    maxRounds maxRounds).2 (by decide) (by decide) (version 3)).2 (.inl (by decide))

set_option maxRecDepth 20000 in
/-- A version that is visited before its source keeps the width its source had then; and
the rounds run out on a chain that is visited from its end. -/
theorem move_types_unsettled :
    (staleChain.retyped staleChain.versions maxRounds).1.types (version 2) = ascii "F" ∧
      (staleChain.retyped staleChain.versions.reverse maxRounds).1.types (version 2) = typeI ∧
      ((objectChain 33 (by decide)).retyped (objectChain 33 (by decide)).versions.reverse
        maxRounds).2 = true :=
  ⟨by decide, by decide, by decide⟩

end Examples

end Dad

end Dexllm
