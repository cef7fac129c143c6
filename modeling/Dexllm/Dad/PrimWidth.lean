import Dexllm.Dad.GroundTypes
import Mathlib.Data.Finset.Card

/-!
The primitive width that the definitions of a version agree on. The walk enters
every version once; an empty width stands for a reference, for no producer and
for a disagreement alike, and a move from such a version has no say. So the
result is the width of every definition, and of all that the moves lead to where
no version further down disagrees.
-/

namespace Dexllm

open SimplePaths

namespace Dad

/-- The loop of `resolve_prim_width` over the definitions of one version. -/
def agreeWidths (resolve : RhsForm → List Vid → Text × List Vid) :
    List (Option RhsForm) → Text → List Vid → Text × List Vid
  | [], agreed, seen => (agreed, seen)
  | none :: ds, agreed, seen => agreeWidths resolve ds agreed seen
  | some r :: ds, agreed, seen =>
    let (w, seen) := resolve r seen
    if w = [] then agreeWidths resolve ds agreed seen
    else if agreed = [] then agreeWidths resolve ds w seen
    else if agreed ≠ w then ([], seen)
    else agreeWidths resolve ds agreed seen

/-- The width a right-hand side has of its own. -/
def Versions.primWidth (vs : Versions) : RhsForm → Text
  | .alloc _ => []
  | rhs => if isPrimDesc (vs.rhsType rhs) then vs.rhsType rhs else []

/-- `resolve_prim_width`, for `fuel` versions inside each other. -/
def resolvePrimWidth (vs : Versions) : (fuel : Nat) → RhsForm → List Vid → Text × List Vid
  | 0, _, seen => ([], seen)
  | fuel + 1, rhs, seen =>
    match rhs with
    | .ident sid =>
      if sid ∈ seen then ([], seen)
      else match vs.defsOf.lookup sid with
        | none => (vs.primWidth (.ident sid), sid :: seen)
        | some ds => agreeWidths (resolvePrimWidth vs fuel) ds [] (sid :: seen)
    | rhs => (vs.primWidth rhs, seen)

/-- The loop of `agreed_prim_width`. A version inside another is one of
`defs_of` that was not seen, so that the fuel does not run out. -/
def agreedPrimWidthFrom (vs : Versions) (vid : Vid) : List (Option RhsForm) → Text → Text
  | [], w => w
  | none :: _, _ => []
  | some r :: ds, w =>
    let dw := (resolvePrimWidth vs (vs.defsOf.length + 1) r [vid]).1
    if dw = [] ∨ (w ≠ [] ∧ w ≠ dw) then []
    else agreedPrimWidthFrom vs vid ds (if w = [] then dw else w)

/-- `agreed_prim_width`, of the definitions that `defs_of` has for the version. -/
def agreedPrimWidth (vs : Versions) (vid : Vid) : Text :=
  agreedPrimWidthFrom vs vid ((vs.defsOf.lookup vid).getD []) []

section Walk

variable {vs : Versions} {avoid : List Vid}

/-- The producers that the moves lead to from `rhs` have one width. -/
def Unanimous (vs : Versions) (avoid : List Vid) (rhs : RhsForm) : Prop :=
  ∀ p q, ReachedOutside vs avoid rhs p → ReachedOutside vs avoid rhs q →
    vs.primWidth p ≠ [] → vs.primWidth q ≠ [] → vs.primWidth p = vs.primWidth q

/-- A producer that the walk from `seen` to `seen'` over `rs` came by. -/
inductive NewProducer (vs : Versions) (seen : List Vid) (rs : List RhsForm) (seen' : List Vid)
    (p : RhsForm) : Prop where
  | here (hp : p ∈ rs) (hmove : ∀ vid, p ≠ .ident vid)
  | defines {x : Vid} (hx : x ∈ seen') (hnew : x ∉ seen) (hp : DefinedBy vs p x)
      (hmove : ∀ vid, p ≠ .ident vid)
  | undefined {y : Vid} (hy : y ∈ seen') (hnew : y ∉ seen) (hp : p = .ident y)
      (hnone : vs.defsOf.lookup y = none)

/-- The walk over `rs`, outside `avoid`, entered all that the moves lead to, and
`w` is the width of all the producers it came by. -/
structure Explored (vs : Versions) (avoid seen : List Vid) (rs : List RhsForm) (w : Text)
    (seen' : List Vid) : Prop where
  grows : seen ⊆ seen'
  entered : ∀ vid, .ident vid ∈ rs → vid ∈ seen'
  closed : ∀ x ∈ seen', x ∉ seen → ∀ y, MovedFrom vs x y → y ∈ seen'
  sound : w ≠ [] → ∃ r ∈ rs, ∃ p, ReachedOutside vs avoid r p ∧ vs.primWidth p = w
  covered : ∀ p, NewProducer vs seen rs seen' p → vs.primWidth p ≠ [] → w = vs.primWidth p

theorem Explored.start (vs : Versions) (avoid seen : List Vid) :
    Explored vs avoid seen [] [] seen where
  grows := List.Subset.refl _
  entered := by simp
  closed x hx hnew := absurd hx hnew
  sound h := absurd rfl h
  covered p hp := by
    cases hp with
    | here hp _ => simp at hp
    | defines hx hnew _ _ => exact absurd hx hnew
    | undefined hy hnew _ _ => exact absurd hy hnew

/-- Two walks after each other, whose widths do not disagree. -/
theorem Explored.append {seen seen' seen'' : List Vid} {rs : List RhsForm} {r : RhsForm}
    {w w' : Text} (h : Explored vs avoid seen rs w seen')
    (h' : Explored vs avoid seen' [r] w' seen'') (hagree : w = [] ∨ w' = [] ∨ w = w') :
    Explored vs avoid seen (rs ++ [r]) (if w = [] then w' else w) seen'' where
  grows := List.Subset.trans h.grows h'.grows
  entered vid hvid := by
    obtain hvid | hvid := List.mem_append.mp hvid
    · exact h'.grows (h.entered vid hvid)
    · exact h'.entered vid hvid
  closed x hx hnew y hmove := by
    by_cases hx' : x ∈ seen'
    · exact h'.grows (h.closed x hx' hnew y hmove)
    · exact h'.closed x hx hx' y hmove
  sound hne := by
    by_cases hw : w = []
    · rw [if_pos hw] at hne ⊢
      obtain ⟨q, hq, hsound⟩ := h'.sound hne
      exact ⟨q, List.mem_append_right _ hq, hsound⟩
    · rw [if_neg hw]
      obtain ⟨q, hq, hsound⟩ := h.sound hw
      exact ⟨q, List.mem_append_left _ hq, hsound⟩
  covered p hp hwidth := by
    have hfirst (hp : NewProducer vs seen rs seen' p) :
        (if w = [] then w' else w) = vs.primWidth p := by
      have heq := h.covered p hp hwidth
      rw [if_neg (heq ▸ hwidth), heq]
    have hsecond (hp : NewProducer vs seen' [r] seen'' p) :
        (if w = [] then w' else w) = vs.primWidth p := by
      have heq := h'.covered p hp hwidth
      have hne : w' ≠ [] := heq ▸ hwidth
      split
      · exact heq
      · obtain hw | hw | hw := hagree
        · contradiction
        · contradiction
        · exact hw.trans heq
    cases hp with
    | here hp hmove =>
      obtain hp | hp := List.mem_append.mp hp
      · exact hfirst (.here hp hmove)
      · exact hsecond (.here hp hmove)
    | @defines x hx hnew hp hmove =>
      by_cases hx' : x ∈ seen'
      · exact hfirst (.defines hx' hnew hp hmove)
      · exact hsecond (.defines hx hx' hp hmove)
    | @undefined y hy hnew hp hnone =>
      by_cases hy' : y ∈ seen'
      · exact hfirst (.undefined hy' hnew hp hnone)
      · exact hsecond (.undefined hy hy' hp hnone)

/-- The loop over the definitions has walked them all, or has come by two
different widths. -/
theorem agreeWidths_explored {resolve : RhsForm → List Vid → Text × List Vid}
    {ds : List (Option RhsForm)} {start : List Vid} {rs : List RhsForm} {agreed : Text}
    {seen : List Vid}
    (hresolve : ∀ r, some r ∈ ds → ∀ seen, start ⊆ seen →
      Explored vs avoid seen [r] (resolve r seen).1 (resolve r seen).2)
    (h : Explored vs avoid start rs agreed seen) :
    Explored vs avoid start (rs ++ ds.filterMap id) (agreeWidths resolve ds agreed seen).1
        (agreeWidths resolve ds agreed seen).2 ∨
      (agreeWidths resolve ds agreed seen).1 = [] ∧
        ∃ r ∈ rs ++ ds.filterMap id, ∃ r' ∈ rs ++ ds.filterMap id, ∃ p q,
          ReachedOutside vs avoid r p ∧ ReachedOutside vs avoid r' q ∧ vs.primWidth p ≠ [] ∧
            vs.primWidth q ≠ [] ∧ vs.primWidth p ≠ vs.primWidth q := by
  induction ds generalizing rs agreed seen with
  | nil => exact .inl (by simpa [agreeWidths] using h)
  | cons d ds ih =>
    cases d with
    | none =>
      simpa [agreeWidths] using ih (fun r hr => hresolve r (List.mem_cons_of_mem _ hr)) h
    | some r =>
      have hr := hresolve r (List.mem_cons_self) seen h.grows
      have hrest (r' : RhsForm) (hr' : some r' ∈ ds) := hresolve r' (List.mem_cons_of_mem _ hr')
      rw [List.filterMap_cons_some (f := id) rfl, List.append_cons, agreeWidths]
      by_cases hw : (resolve r seen).1 = []
      · have happend := h.append hr (.inr (.inl hw))
        have hkeep : (if agreed = [] then (resolve r seen).1 else agreed) = agreed := by
          split
          · rename_i hagreed
            rw [hw, hagreed]
          · rfl
        rw [hkeep] at happend
        simpa only [hw, if_true] using ih hrest happend
      by_cases hagreed : agreed = []
      · have happend := h.append hr (.inl hagreed)
        rw [if_pos hagreed] at happend
        simpa only [hw, hagreed, if_true, if_false] using ih hrest happend
      by_cases heq : agreed = (resolve r seen).1
      · have happend := h.append hr (.inr (.inr heq))
        rw [if_neg hagreed] at happend
        simpa only [hw, hagreed, ne_eq, heq, not_true_eq_false, if_false] using ih hrest happend
      -- the disagreement leaves the loop
      obtain ⟨r1, hr1, p, hp, hwidth⟩ := h.sound hagreed
      obtain ⟨r2, hr2, q, hq, hwidth'⟩ := hr.sound hw
      refine .inr ⟨by simp only [hw, hagreed, ne_eq, heq, not_false_eq_true, if_true, if_false], r1,
        by simp [hr1], r2, ?_, p, q, hp, hq, hwidth ▸ hagreed, hwidth' ▸ hw, ?_⟩
      · simp [List.mem_singleton.mp hr2]
      · rwa [hwidth, hwidth']

/-- The walk came by every producer that the moves lead to. -/
theorem Explored.newProducer {seen seen' : List Vid} {rs : List RhsForm} {w : Text}
    (h : Explored vs avoid seen rs w seen') (hseen : ∀ a ∈ seen, vs.defsOf.lookup a ≠ none)
    {x : Vid} {p : RhsForm} (hp : Reaches (MovedFrom vs) (DefinedBy vs p) seen x)
    (hx : x ∈ seen') : NewProducer vs seen rs seen' p := by
  induction hp with
  | @here x hnew hdefined =>
    cases p with
    | ident y =>
      obtain ⟨ds, hds, hy, hnone⟩ := hdefined
      exact .undefined (h.closed x hx hnew y ⟨ds, hds, hy⟩) (fun hmem => hseen y hmem hnone) rfl
        hnone
    | _ => exact .defines hx hnew hdefined (by simp)
  | @next x b hnew hmove _ ih => exact ih (h.closed x hx hnew b hmove)

/-- The versions of `defs_of` that were not seen. -/
def unseen (vs : Versions) (seen : List Vid) : Nat :=
  ((vs.defsOf.map Prod.fst).toFinset \ seen.toFinset).card

theorem unseen_cons {sid : Vid} {seen : List Vid} {ds : List (Option RhsForm)}
    (hds : vs.defsOf.lookup sid = some ds) (hsid : sid ∉ seen) :
    unseen vs (sid :: seen) < unseen vs seen := by
  have hkey : (sid, ds) ∈ vs.defsOf := by
    obtain ⟨before, after, heq, -⟩ := List.lookup_eq_some_iff.mp hds
    simp [heq]
  refine Finset.card_lt_card (Finset.ssubset_iff_of_subset ?_ |>.mpr ⟨sid, ?_, ?_⟩)
  · exact Finset.sdiff_subset_sdiff le_rfl fun x hx => by simp_all
  · simpa using ⟨⟨ds, hkey⟩, hsid⟩
  · simp

theorem unseen_anti (vs : Versions) {seen seen' : List Vid} (h : seen ⊆ seen') :
    unseen vs seen' ≤ unseen vs seen :=
  Finset.card_le_card (Finset.sdiff_subset_sdiff le_rfl fun x hx => by
    simpa using h (List.mem_toFinset.mp hx))

/-- A move from a child leads where one from the version does. -/
theorem ReachedOutside.next {sid : Vid} {ds : List (Option RhsForm)} {r p : RhsForm}
    (hds : vs.defsOf.lookup sid = some ds) (hsid : sid ∉ avoid) (hr : some r ∈ ds)
    (h : ReachedOutside vs avoid r p) : ReachedOutside vs avoid (.ident sid) p := by
  refine .inr ⟨sid, rfl, ?_⟩
  obtain ⟨hproduces, rfl⟩ | ⟨vid, rfl, hreaches⟩ := h
  · exact .here hsid ⟨ds, hds, hr, hproduces⟩
  · exact .next hsid ⟨ds, hds, hr⟩ hreaches

/-- The walk from one right-hand side whose producers have one width. -/
theorem resolvePrimWidth_explored (fuel : Nat) (rhs : RhsForm) (seen : List Vid)
    (havoid : avoid ⊆ seen) (hfuel : unseen vs seen < fuel) (hunanimous : Unanimous vs avoid rhs) :
    Explored vs avoid seen [rhs] (resolvePrimWidth vs fuel rhs seen).1
      (resolvePrimWidth vs fuel rhs seen).2 := by
  induction fuel generalizing rhs seen with
  | zero => exact absurd hfuel (Nat.not_lt_zero _)
  | succ fuel ih =>
    have hown (hrhs : ∀ vid, rhs ≠ .ident vid) :
        Explored vs avoid seen [rhs] (vs.primWidth rhs) seen := by
      have hproduces : vs.Produces rhs := by
        cases rhs with
        | ident vid => exact absurd rfl (hrhs vid)
        | _ => trivial
      refine ⟨List.Subset.refl _, fun vid hvid => ?_, fun x hx hnew => absurd hx hnew, fun _ =>
        ⟨rhs, List.mem_singleton_self _, rhs, .inl ⟨hproduces, rfl⟩, rfl⟩, fun p hp _ => ?_⟩
      · exact absurd (List.mem_singleton.mp hvid).symm (hrhs vid)
      · cases hp with
        | here hp _ => rw [List.mem_singleton.mp hp]
        | defines hx hnew _ _ => exact absurd hx hnew
        | undefined hy hnew _ _ => exact absurd hy hnew
    cases rhs with
    | ident sid =>
      rw [resolvePrimWidth]
      by_cases hseen : sid ∈ seen
      · rw [if_pos hseen]
        refine ⟨List.Subset.refl _, fun vid hvid => ?_, fun x hx hnew => absurd hx hnew,
          fun h => absurd rfl h, fun p hp _ => ?_⟩
        · obtain rfl := RhsForm.ident.inj (List.mem_singleton.mp hvid)
          exact hseen
        · cases hp with
          | here hp hmove => exact absurd (List.mem_singleton.mp hp) (hmove sid)
          | defines hx hnew _ _ => exact absurd hx hnew
          | undefined hy hnew _ _ => exact absurd hy hnew
      rw [if_neg hseen]
      cases hds : vs.defsOf.lookup sid with
      | none =>
        have hnew {x : Vid} (hx : x ∈ sid :: seen) (hnew : x ∉ seen) : x = sid :=
          (List.mem_cons.mp hx).resolve_right hnew
        refine ⟨List.subset_cons_self _ _, fun vid hvid => ?_, ?_, fun _ => ⟨_,
          List.mem_singleton_self _, _, .inl ⟨hds, rfl⟩, rfl⟩, fun p hp _ => ?_⟩
        · obtain rfl := RhsForm.ident.inj (List.mem_singleton.mp hvid)
          exact List.mem_cons_self
        · rintro x hx hx' y ⟨ds, hsome, -⟩
          obtain rfl := hnew hx hx'
          rw [hds] at hsome
          cases hsome
        · cases hp with
          | here hp hmove => exact absurd (List.mem_singleton.mp hp) (hmove sid)
          | defines hx hx' hp _ =>
            obtain ⟨ds, hsome, -⟩ := hp
            obtain rfl := hnew hx hx'
            rw [hds] at hsome
            cases hsome
          | undefined hy hy' hp _ =>
            obtain rfl := hnew hy hy'
            rw [hp]
      | some ds =>
        have hsid : sid ∉ avoid := fun hmem => hseen (havoid hmem)
        have hless := unseen_cons hds hseen
        have hchild (r : RhsForm) (hr : some r ∈ ds) : Unanimous vs avoid r :=
          fun p q hp hq => hunanimous p q (hp.next hds hsid hr) (hq.next hds hsid hr)
        obtain h | ⟨-, r, hr, r', hr', p, q, hp, hq, hp', hq', hne⟩ := agreeWidths_explored
          (fun r hr seen' hgrows => ih r seen'
            (List.Subset.trans havoid (List.Subset.trans (List.subset_cons_self sid seen) hgrows))
            (by have := unseen_anti vs hgrows; omega) (hchild r hr))
          (Explored.start vs avoid (sid :: seen))
        · have hnew {x : Vid} (hx : x ∉ seen) (hne : x ≠ sid) : x ∉ sid :: seen := by
            simp [hx, hne]
          have hmem {r : RhsForm} : r ∈ ds.filterMap id ↔ some r ∈ ds := by simp
          refine ⟨List.Subset.trans (List.subset_cons_self _ _) h.grows, fun vid hvid => ?_, ?_,
            fun hne => ?_, fun p hp hwidth => ?_⟩
          · obtain rfl := RhsForm.ident.inj (List.mem_singleton.mp hvid)
            exact h.grows List.mem_cons_self
          · intro x hx hx' y hmove
            by_cases heq : x = sid
            · subst heq
              obtain ⟨ds', hds', hy⟩ := hmove
              obtain rfl := Option.some.inj (hds.symm.trans hds')
              exact h.entered y (hmem.mpr hy)
            · exact h.closed x hx (hnew hx' heq) y hmove
          · obtain ⟨r, hr, p, hp, hwidth⟩ := h.sound hne
            exact ⟨_, List.mem_singleton_self _, p, hp.next hds hsid (hmem.mp hr), hwidth⟩
          · refine h.covered p ?_ hwidth
            cases hp with
            | here hp hmove => exact absurd (List.mem_singleton.mp hp) (hmove sid)
            | @defines x hx hx' hp hmove =>
              by_cases heq : x = sid
              · subst heq
                obtain ⟨ds', hds', hp, -⟩ := hp
                obtain rfl := Option.some.inj (hds.symm.trans hds')
                exact .here (hmem.mpr hp) hmove
              · exact .defines hx (hnew hx' heq) hp hmove
            | @undefined y hy hy' hp hnone =>
              refine .undefined hy (hnew hy' ?_) hp hnone
              rintro rfl
              rw [hds] at hnone
              cases hnone
        · have hmem {r : RhsForm} (hr : r ∈ ds.filterMap id) : some r ∈ ds := by simpa using hr
          exact absurd (hunanimous p q (hp.next hds hsid (hmem hr)) (hq.next hds hsid (hmem hr'))
            hp' hq') hne
    | _ => exact hown (by simp)

end Walk

section Main

variable {vs : Versions}

/-- No version two or more moves away from `v` disagrees: outside `v` and the
version `s` moved into it, the producers that a move into `s` leads to have one
width. -/
def AgreedBelow (vs : Versions) (v : Vid) : Prop :=
  ∀ s t, MovedFrom vs v s → MovedFrom vs s t → Unanimous vs [s, v] (.ident t)

/-- The walk from a version moved into `v`. -/
theorem resolvePrimWidth_covers {v s : Vid} {w : Text} (hagreed : AgreedBelow vs v)
    (hmove : MovedFrom vs v s)
    (hw : (resolvePrimWidth vs (vs.defsOf.length + 1) (.ident s) [v]).1 = w) (hne : w ≠ [])
    {p : RhsForm} (hp : ReachedOutside vs [v] (.ident s) p) (hwidth : vs.primWidth p ≠ []) :
    vs.primWidth p = w := by
  obtain ⟨dv, hdv, hs⟩ := hmove
  rw [resolvePrimWidth] at hw
  by_cases hsv : s ∈ [v]
  · rw [if_pos hsv] at hw
    exact absurd hw.symm hne
  rw [if_neg hsv] at hw
  cases hds : vs.defsOf.lookup s with
  | none =>
    rw [hds] at hw
    obtain ⟨-, rfl⟩ | ⟨vid, heq, hreaches⟩ := hp
    · exact hw
    obtain rfl := RhsForm.ident.inj heq
    cases hreaches with
    | here _ hdefined =>
      obtain ⟨ds, hsome, -⟩ := hdefined
      cases hds.symm.trans hsome
    | next _ hstep _ =>
      obtain ⟨ds, hsome, -⟩ := hstep
      cases hds.symm.trans hsome
  | some ds =>
    rw [hds] at hw
    have hdefined : ∀ a ∈ [s, v], vs.defsOf.lookup a ≠ none := by
      intro a ha
      obtain rfl | rfl : a = s ∨ a = v := by simpa using ha
      · rw [hds]
        exact Option.some_ne_none ds
      · rw [hdv]
        exact Option.some_ne_none dv
    have hunseen : unseen vs [s, v] < vs.defsOf.length := by
      have hless := unseen_cons hds hsv
      have hless' := unseen_cons hdv (List.not_mem_nil)
      have hle : unseen vs [] ≤ vs.defsOf.length := by
        have := List.toFinset_card_le (vs.defsOf.map Prod.fst)
        simpa [unseen] using this
      omega
    have hchild (r : RhsForm) (hr : some r ∈ ds) : Unanimous vs [s, v] r := by
      cases r with
      | ident t => exact hagreed s t ⟨dv, hdv, hs⟩ ⟨ds, hds, hr⟩
      | _ =>
        rintro q q' (⟨-, rfl⟩ | ⟨_, heq, -⟩) (⟨-, rfl⟩ | ⟨_, heq', -⟩)
        all_goals first | exact fun _ _ => rfl | cases heq | cases heq'
    obtain h | ⟨hempty, -⟩ := agreeWidths_explored
      (fun r hr seen' hgrows => resolvePrimWidth_explored vs.defsOf.length r seen' hgrows
        (Nat.lt_of_le_of_lt (unseen_anti vs hgrows) hunseen) (hchild r hr))
      (Explored.start vs [s, v] [s, v])
    · have hmem {r : RhsForm} : r ∈ ds.filterMap id ↔ some r ∈ ds := by simp
      rw [hw] at h
      refine (h.covered p ?_ hwidth).symm
      obtain ⟨hproduces, rfl⟩ | ⟨vid, heq, hreaches⟩ := hp
      · cases hds.symm.trans hproduces
      obtain rfl := RhsForm.ident.inj heq
      cases hreaches.simple with
      | here _ hgoal =>
        obtain ⟨ds', hds', hp, hproduces⟩ := hgoal
        obtain rfl := Option.some.inj (hds.symm.trans hds')
        cases p with
        | ident y =>
          exact .undefined (h.entered y (hmem.mpr hp)) (fun hy => hdefined y hy hproduces) rfl
            hproduces
        | _ => exact .here (hmem.mpr hp) (by simp)
      | @next _ _ b _ hstep hrest =>
        obtain ⟨ds', hds', hb⟩ := hstep
        obtain rfl := Option.some.inj (hds.symm.trans hds')
        exact h.newProducer hdefined hrest.reaches (h.entered b (hmem.mpr hb))
    · exact absurd (hw.symm.trans hempty) hne

/-- The loop returns the width it starts with, or one of a definition. -/
theorem agreeWidths_sound {resolve : RhsForm → List Vid → Text × List Vid} {start : List Vid}
    {W : Text → Prop} {ds : List (Option RhsForm)}
    (hresolve : ∀ r, some r ∈ ds → ∀ seen, start ⊆ seen → seen ⊆ (resolve r seen).2 ∧
      ((resolve r seen).1 ≠ [] → W (resolve r seen).1))
    (agreed : Text) {seen : List Vid} (hseen : start ⊆ seen) :
    seen ⊆ (agreeWidths resolve ds agreed seen).2 ∧
      ((agreeWidths resolve ds agreed seen).1 ≠ [] →
        (agreeWidths resolve ds agreed seen).1 = agreed ∨
          W (agreeWidths resolve ds agreed seen).1) := by
  induction ds generalizing agreed seen with
  | nil => exact ⟨List.Subset.refl _, fun _ => .inl rfl⟩
  | cons d ds ih =>
    have hrest (r : RhsForm) (hr : some r ∈ ds) := hresolve r (List.mem_cons_of_mem d hr)
    cases d with
    | none => exact ih hrest agreed hseen
    | some r =>
      obtain ⟨hgrows, hsound⟩ := hresolve r List.mem_cons_self seen hseen
      have hnext (agreed : Text) := ih hrest agreed (List.Subset.trans hseen hgrows)
      rw [agreeWidths]
      by_cases hw : (resolve r seen).1 = []
      · simp only [hw, if_true]
        exact ⟨List.Subset.trans hgrows (hnext agreed).1, (hnext agreed).2⟩
      simp only [hw, if_false]
      by_cases hagreed : agreed = []
      · simp only [hagreed, if_true]
        refine ⟨List.Subset.trans hgrows (hnext _).1, fun hne => ?_⟩
        obtain heq | hfound := (hnext _).2 hne
        · rw [heq]
          exact .inr (hsound hw)
        · exact .inr hfound
      simp only [hagreed, if_false]
      split
      · exact ⟨hgrows, fun hne => absurd rfl hne⟩
      · exact ⟨List.Subset.trans hgrows (hnext agreed).1, (hnext agreed).2⟩

/-- The width of a walk is that of a producer, whatever else it came by. -/
theorem resolvePrimWidth_sound (vs : Versions) (fuel : Nat) (rhs : RhsForm) (seen : List Vid)
    {avoid : List Vid} (havoid : avoid ⊆ seen) :
    seen ⊆ (resolvePrimWidth vs fuel rhs seen).2 ∧
      ((resolvePrimWidth vs fuel rhs seen).1 ≠ [] → ∃ p, ReachedOutside vs avoid rhs p ∧
        vs.primWidth p = (resolvePrimWidth vs fuel rhs seen).1) := by
  induction fuel generalizing rhs seen with
  | zero => exact ⟨List.Subset.refl _, fun hne => absurd rfl hne⟩
  | succ fuel ih =>
    cases rhs with
    | ident sid =>
      rw [resolvePrimWidth]
      by_cases hseen : sid ∈ seen
      · rw [if_pos hseen]
        exact ⟨List.Subset.refl _, fun hne => absurd rfl hne⟩
      rw [if_neg hseen]
      cases hds : vs.defsOf.lookup sid with
      | none => exact ⟨List.subset_cons_self _ _, fun _ => ⟨_, .inl ⟨hds, rfl⟩, rfl⟩⟩
      | some ds =>
        have hsid : sid ∉ avoid := fun hmem => hseen (havoid hmem)
        have hchild (r : RhsForm) (hr : some r ∈ ds) (seen' : List Vid)
            (hgrows : sid :: seen ⊆ seen') := ih r seen' (List.Subset.trans havoid
              (List.Subset.trans (List.subset_cons_self sid seen) hgrows))
        obtain ⟨hgrows, hsound⟩ := agreeWidths_sound (W := fun w => ∃ p,
            ReachedOutside vs avoid (.ident sid) p ∧ vs.primWidth p = w)
          (fun r hr seen' hgrows => ⟨(hchild r hr seen' hgrows).1, fun hne => by
            obtain ⟨p, hp, hwidth⟩ := (hchild r hr seen' hgrows).2 hne
            exact ⟨p, hp.next hds hsid hr, hwidth⟩⟩) [] (List.Subset.refl (sid :: seen))
        refine ⟨List.Subset.trans (List.subset_cons_self _ _) hgrows, fun hne => ?_⟩
        exact (hsound hne).resolve_left hne
    | _ => exact ⟨List.Subset.refl _, fun _ => ⟨_, .inl ⟨trivial, rfl⟩, rfl⟩⟩

/-- A width that is agreed on is that of every definition. -/
theorem agreedPrimWidthFrom_eq {v : Vid} {ds : List (Option RhsForm)} {w w' : Text}
    (hw : agreedPrimWidthFrom vs v ds w' = w) (hne : w ≠ []) :
    (w' = [] ∨ w' = w) ∧ (w' = [] → ds ≠ []) ∧ ∀ d ∈ ds, ∃ r, d = some r ∧
      (resolvePrimWidth vs (vs.defsOf.length + 1) r [v]).1 = w := by
  induction ds generalizing w' with
  | nil =>
    obtain rfl : w' = w := hw
    exact ⟨.inr rfl, fun h => absurd h hne, by simp⟩
  | cons d ds ih =>
    cases d with
    | none => exact absurd hw.symm hne
    | some r =>
      rw [agreedPrimWidthFrom] at hw
      split at hw
      · exact absurd hw.symm hne
      rename_i hagree
      obtain ⟨hdw, hagree⟩ := not_or.mp hagree
      obtain ⟨hstart, -, hrest⟩ := ih hw
      have heq : (resolvePrimWidth vs (vs.defsOf.length + 1) r [v]).1 = w ∧ (w' = [] ∨ w' = w) := by
        by_cases hw' : w' = []
        · rw [if_pos hw'] at hstart
          exact ⟨hstart.resolve_left hdw, .inl hw'⟩
        · rw [if_neg hw'] at hstart
          have hsame : w' = (resolvePrimWidth vs (vs.defsOf.length + 1) r [v]).1 :=
            not_not.mp fun hdiff => hagree ⟨hw', hdiff⟩
          have hw := hstart.resolve_left hw'
          exact ⟨hsame ▸ hw, .inr hw⟩
      exact ⟨heq.2, by simp, List.forall_mem_cons.mpr ⟨⟨r, rfl, heq.1⟩, hrest⟩⟩

/-- The width that the definitions of a version agree on is that of each of
them, and of a producer behind each move; where no version further down
disagrees it is that of every primitive producer that the moves lead to. -/
theorem agreed_prim_width_unanimous (vs : Versions) (v : Vid) (w : Text)
    (hw : agreedPrimWidth vs v = w) (hne : w ≠ []) :
    (∃ ds, vs.defsOf.lookup v = some ds ∧ ds ≠ [] ∧ ∀ d ∈ ds, ∃ r, d = some r ∧
      (vs.Produces r → vs.primWidth r = w) ∧
        ∃ p, ReachedOutside vs [v] r p ∧ vs.primWidth p = w) ∧
    (AgreedBelow vs v → ∀ p, Reached vs (.ident v) p → vs.primWidth p ≠ [] →
      vs.primWidth p = w) := by
  obtain ⟨-, hdefined, hds⟩ := agreedPrimWidthFrom_eq hw hne
  cases hlookup : vs.defsOf.lookup v with
  | none =>
    rw [hlookup] at hdefined
    exact absurd rfl (hdefined rfl)
  | some ds =>
    rw [hlookup, Option.getD_some] at hdefined hds
    have hown {r : RhsForm} (hr : some r ∈ ds) (hproduces : vs.Produces r) :
        vs.primWidth r = w := by
      obtain ⟨_, ⟨⟩, hwidth⟩ := hds _ hr
      rw [← hwidth]
      cases r with
      | ident y =>
        have hy : y ∉ [v] := by
          rintro hy
          rw [List.mem_singleton.mp hy] at hproduces
          cases hlookup.symm.trans hproduces
        have hnone : vs.defsOf.lookup y = none := hproduces
        rw [resolvePrimWidth, if_neg hy, hnone]
      | _ => rfl
    refine ⟨⟨ds, rfl, hdefined rfl, fun d hd => ?_⟩, fun hagreed p hp hwidth => ?_⟩
    · obtain ⟨r, rfl, heq⟩ := hds d hd
      have hsound := (resolvePrimWidth_sound vs (vs.defsOf.length + 1) r [v]
        (List.Subset.refl [v])).2
      rw [heq] at hsound
      exact ⟨r, rfl, hown hd, hsound hne⟩
    · obtain ⟨hproduces, -⟩ | ⟨vid, heq, hreaches⟩ := hp
      · cases hlookup.symm.trans hproduces
      obtain rfl := RhsForm.ident.inj heq
      cases hreaches.simple with
      | here _ hgoal =>
        obtain ⟨ds', hds', hp, hproduces⟩ := hgoal
        obtain rfl := Option.some.inj (hlookup.symm.trans hds')
        exact hown hp hproduces
      | @next _ _ s _ hstep hrest =>
        obtain ⟨ds', hds', hs⟩ := hstep
        obtain rfl := Option.some.inj (hlookup.symm.trans hds')
        obtain ⟨_, ⟨⟩, heq⟩ := hds _ hs
        exact resolvePrimWidth_covers hagreed ⟨ds, hlookup, hs⟩ heq hne
          (.inr ⟨s, rfl, hrest.reaches⟩) hwidth

/-- A version moved from one that holds an integer or a new object. -/
def hiddenAlloc : Versions where
  defsOf := [
    ([0x61], [some (.ident [0x62])]),
    ([0x62], [some (.const (ascii "I") 5), some (.alloc (ascii "LA;"))])]
  typeOf _ := ascii "I"

theorem agreed_prim_width_unanimous_hiddenAlloc :
    agreedPrimWidth hiddenAlloc [0x61] = ascii "I" ∧
      ∃ ds, hiddenAlloc.defsOf.lookup [0x61] = some ds ∧ ds ≠ [] ∧ ∀ d ∈ ds, ∃ r, d = some r ∧
        (hiddenAlloc.Produces r → hiddenAlloc.primWidth r = ascii "I") ∧
          ∃ p, ReachedOutside hiddenAlloc [[0x61]] r p ∧ hiddenAlloc.primWidth p = ascii "I" := by
  have hw : agreedPrimWidth hiddenAlloc [0x61] = ascii "I" := by decide
  exact ⟨hw, (agreed_prim_width_unanimous hiddenAlloc [0x61] _ hw (by decide)).1⟩

/-- The object behind the move is skipped. -/
theorem hiddenAlloc_not_unanimous :
    ¬∀ (vs : Versions) (v : Vid) (w : Text), agreedPrimWidth vs v = w → w ≠ [] →
      (∀ p, Reached vs (.ident v) p → vs.primWidth p ≠ [] → vs.primWidth p = w) ∧
        (∃ p, Reached vs (.ident v) p ∧ vs.primWidth p = w) ∧
          ∀ p, Reached vs (.ident v) p → ¬vs.IsReference p := by
  intro hall
  obtain ⟨-, -, hnone⟩ := hall hiddenAlloc [0x61] (ascii "I") (by decide) (by decide)
  refine hnone (.alloc (ascii "LA;")) (.inr ⟨[0x61], rfl, ?_⟩) trivial
  refine .next (List.not_mem_nil) ⟨_, rfl, List.mem_singleton_self _⟩ ?_
  exact .here (List.not_mem_nil) ⟨_, rfl, by simp, trivial⟩

end Main

end Dad

end Dexllm
