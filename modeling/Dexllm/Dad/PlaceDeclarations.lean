import Dexllm.Dad.CommonDom

/-!
`PlaceDeclarations` declares a variable at the nearest common dominator of the
blocks that define it. The blocks are met in the order of an unordered set,
which is a parameter.
-/

namespace Dexllm.Dad

open DepthFirst

variable {α : Type} [DecidableEq α]

inductive FormKind
  | variable
  | param
  | other
  deriving DecidableEq, Repr

/-- An entry of `dvars`: the shared form and what it is. -/
structure Form where
  id : Nat
  kind : FormKind
  deriving DecidableEq, Repr

structure LocRange (α : Type) where
  start : Int
  end_ : Int
  node : α

/-- What the pass reads of the blocks: the locations with the variables their
instruction uses, if there is one, and the range of locations of a block. -/
structure Blocks (α : Type) where
  locWithIns : α → List (Int × Option (List String))
  inCatch : α → Bool
  insRange : α → Option (Int × Int)
  locToNode : List (LocRange α)

/-- The order in which the definitions of a variable used at a location of a
node are gone through. -/
structure DefOrder (α : Type) where
  order : α → Int → String → List α → List α
  perm : ∀ node loc var l, (order node loc var l).Perm l

def getNodeFromLoc (ranges : List (LocRange α)) (loc : Int) : Option α :=
  (ranges.find? fun r => r.start ≤ loc ∧ loc ≤ r.end_).map LocRange.node

/-- The block of a definition, unless it is part of a catch or not reached. -/
def defNode (g : Graph α) (blocks : Blocks α) (idom : α → Option α) (defLoc : Int) : Option α :=
  match getNodeFromLoc blocks.locToNode defLoc with
  | none => none
  | some dn =>
    if blocks.inCatch dn then none
    else if idom dn = none ∧ g.entry ≠ some dn then none
    else some dn

/-- Meets the definitions one after the other. -/
def meetDefs (idom : α → Option α) (num : α → Int) (fuel : Nat) : List α → Option (Option α)
  | [] => some none
  | dn :: dns => dns.foldl (fun common dn => common.bind fun common =>
      commonDom idom num fuel common (some dn)) (some (some dn))

/-- Declares the form in a block, unless a definition lies in its range. -/
def declareAt (blocks : Blocks α) (varDefsLocs : List Int) (form : Form)
    (varToDeclare : α → List Form) : Option α → α → List Form
  | none => varToDeclare
  | some cd =>
    match blocks.insRange cd with
    | none => varToDeclare
    | some (lo, hi) =>
      if varDefsLocs.any fun defLoc => lo ≤ defLoc ∧ defLoc < hi then varToDeclare
      else Function.update varToDeclare cd (pushNew (varToDeclare cd) form)

/-- Places the declaration of one variable used at a location. -/
def placeUse (g : Graph α) (blocks : Blocks α) (idom : α → Option α) (fuel : Nat)
    (dvars : String → Option Form) (ud : String × Int → Option (List Int)) (defOrder : DefOrder α)
    (node : α) (loc : Int) (varToDeclare : α → List Form) (var : String) :
    Option (α → List Form) :=
  match dvars var, ud (var, loc) with
  | some form, some varDefsLocs =>
    if form.kind ≠ .variable then some varToDeclare
    else
      let defNodes := (varDefsLocs.filterMap (defNode g blocks idom)).dedup
      (meetDefs idom g.num fuel (defOrder.order node loc var defNodes)).map
        (declareAt blocks varDefsLocs form varToDeclare)
  | _, _ => some varToDeclare

/-- The declarations of every block. Without a result `CommonDom` has run out of
rounds. -/
def placeDeclarations (orders : SetOrders α) (defOrder : DefOrder α) (g : Graph α)
    (blocks : Blocks α) (fuel : Nat) (dvars : String → Option Form)
    (ud : String × Int → Option (List Int)) (varToDeclare : α → List Form) :
    Option (α → List Form) :=
  let idom := domLt orders g
  g.postOrder.foldlM (fun varToDeclare node =>
    (blocks.locWithIns node).foldlM (fun varToDeclare (loc, ins) =>
      match ins with
      | none => some varToDeclare
      | some used => used.foldlM (placeUse g blocks idom fuel dvars ud defOrder node loc)
          varToDeclare) varToDeclare) varToDeclare

section

variable {g : Graph α} {e : α} {orders : SetOrders α} {fuel : Nat}

theorem reachable_of_defNode (hg : g.WellFormed) (he : g.entry = some e) {blocks : Blocks α}
    {defLoc : Int} {dn : α} (h : defNode g blocks (domLt orders g) defLoc = some dn) :
    g.Reachable dn := by
  unfold defNode at h
  split at h
  · cases h
  · split at h
    · cases h
    · split at h
      next => cases h
      next dn' _ _ hkeep =>
        obtain rfl := Option.some.inj h
        by_contra hnot
        apply hkeep
        refine ⟨domLt_unreachable orders hg he hnot, fun hentry => hnot ?_⟩
        exact ⟨dn', hentry, [dn'], Walk.stay dn'⟩

/-- The common dominator of a set of reachable nodes does not depend on the
order in which they are met. -/
theorem meetDefs_perm {sucs : α → List α} {root : α} {reached : α → Prop}
    {idom : α → Option α} {num : α → Int} {size : Nat}
    (h : Numbered sucs root reached idom num size) (hfuel : 2 * size ≤ fuel) {l l' : List α}
    (hperm : l.Perm l') (hreached : ∀ n ∈ l, reached n) :
    ∃ c, meetDefs idom num fuel l = some c ∧ meetDefs idom num fuel l' = some c := by
  have hreached' (n : α) (hn : n ∈ l') : reached n := hreached n (hperm.mem_iff.mpr hn)
  cases l with
  | nil =>
    rw [List.nil_perm.mp hperm]
    exact ⟨none, rfl, rfl⟩
  | cons a as =>
    cases l' with
    | nil => exact absurd (List.perm_nil.mp hperm) (by simp)
    | cons b bs =>
      obtain ⟨c, hc, hcr, hdom⟩ := h.commonDom_fold hfuel as
        (fun n hn => hreached n (List.mem_cons_of_mem _ hn)) (hreached a List.mem_cons_self)
      obtain ⟨c', hc', hcr', hdom'⟩ := h.commonDom_fold hfuel bs
        (fun n hn => hreached' n (List.mem_cons_of_mem _ hn)) (hreached' b List.mem_cons_self)
      have hsame : c = c' := by
        apply h.eq_of_dominators hcr hcr'
        intro d
        rw [hdom d, hdom' d, ← List.forall_mem_cons, ← List.forall_mem_cons]
        constructor
        · exact fun hall n hn => hall n (hperm.mem_iff.mpr hn)
        · exact fun hall n hn => hall n (hperm.mem_iff.mp hn)
      exact ⟨some c, hc, hsame ▸ hc'⟩

theorem placeUse_order (hg : g.WellFormed) (he : g.entry = some e)
    (hfuel : 2 * g.nodes.length ≤ fuel) (blocks : Blocks α) (dvars : String → Option Form)
    (ud : String × Int → Option (List Int)) (defOrder defOrder' : DefOrder α) (node : α) (loc : Int)
    (varToDeclare : α → List Form) (var : String) :
    ∃ result, placeUse g.computeRpo blocks (domLt orders g.computeRpo) fuel dvars ud defOrder node
        loc varToDeclare var = some result ∧
      placeUse g.computeRpo blocks (domLt orders g.computeRpo) fuel dvars ud defOrder' node
        loc varToDeclare var = some result := by
  unfold placeUse
  split
  next form locs _ _ =>
    split
    · exact ⟨varToDeclare, rfl, rfl⟩
    · have hreached (n : α) (hn : n ∈ defOrder.order node loc var
          (locs.filterMap (defNode g.computeRpo blocks (domLt orders g.computeRpo))).dedup) :
          g.Reachable n := by
        rw [(defOrder.perm node loc var _).mem_iff, List.mem_dedup, List.mem_filterMap] at hn
        obtain ⟨defLoc, _, hdef⟩ := hn
        exact reachable_of_defNode hg.computeRpo he hdef
      obtain ⟨c, hc, hc'⟩ := meetDefs_perm (numbered_domLt hg he orders) hfuel
        ((defOrder.perm node loc var _).trans (defOrder'.perm node loc var _).symm) hreached
      dsimp only
      rw [hc, hc']
      exact ⟨_, rfl, rfl⟩
  · exact ⟨varToDeclare, rfl, rfl⟩

theorem foldlM_agree {β γ : Type} {f f' : β → γ → Option β}
    (h : ∀ b x, ∃ r, f b x = some r ∧ f' b x = some r) (l : List γ) (b : β) :
    ∃ r, l.foldlM f b = some r ∧ l.foldlM f' b = some r := by
  induction l generalizing b with
  | nil => exact ⟨b, rfl, rfl⟩
  | cons x l ih =>
    obtain ⟨r, hr, hr'⟩ := h b x
    rw [List.foldlM_cons, List.foldlM_cons, hr, hr']
    exact ih r

/-- `PlaceDeclarations` ends, with the same declarations for all orders of the
definitions. -/
theorem placeDeclarations_order (orders : SetOrders α) (hg : g.WellFormed)
    (hfuel : 2 * g.nodes.length ≤ fuel)
    (blocks : Blocks α) (dvars : String → Option Form) (ud : String × Int → Option (List Int))
    (varToDeclare : α → List Form) (defOrder defOrder' : DefOrder α) :
    ∃ result, placeDeclarations orders defOrder g.computeRpo blocks fuel dvars ud varToDeclare =
        some result ∧
      placeDeclarations orders defOrder' g.computeRpo blocks fuel dvars ud varToDeclare =
        some result := by
  unfold placeDeclarations
  cases he : g.entry with
  | none =>
    have hpo : g.computeRpo.postOrder = [] := by
      unfold Graph.postOrder
      rw [Graph.entry_computeRpo, he]
    rw [hpo]
    exact ⟨varToDeclare, rfl, rfl⟩
  | some e =>
    apply foldlM_agree
    intro varToDeclare node
    apply foldlM_agree
    rintro varToDeclare ⟨loc, ins⟩
    cases ins with
    | none => exact ⟨varToDeclare, rfl, rfl⟩
    | some used =>
      exact foldlM_agree (fun varToDeclare var => placeUse_order hg he hfuel blocks dvars ud
        defOrder defOrder' node loc varToDeclare var) used varToDeclare

/-- `CommonDom` over `DomLt` ends at the nearest common dominator; it commutes
and associates, and the blocks of the declarations do not depend on the order of
the definitions. -/
theorem commonDom_nearest (orders : SetOrders α) (hg : g.WellFormed)
    (hfuel : 2 * g.nodes.length ≤ fuel) :
    (∀ e a b, g.entry = some e → g.Reachable a → g.Reachable b →
      ∃ c, commonDom (domLt orders g.computeRpo) g.computeRpo.num fuel (some a) (some b) =
          some (some c) ∧ NearestCommonDominator g.allSucs e c a b) ∧
    (∀ a b, g.Reachable a → g.Reachable b →
      commonDom (domLt orders g.computeRpo) g.computeRpo.num fuel (some a) (some b) =
        commonDom (domLt orders g.computeRpo) g.computeRpo.num fuel (some b) (some a)) ∧
    (∀ a b c, g.Reachable a → g.Reachable b → g.Reachable c →
      (commonDom (domLt orders g.computeRpo) g.computeRpo.num fuel (some a) (some b)).bind
        (fun ab => commonDom (domLt orders g.computeRpo) g.computeRpo.num fuel ab (some c)) =
      (commonDom (domLt orders g.computeRpo) g.computeRpo.num fuel (some b) (some c)).bind
        (fun bc => commonDom (domLt orders g.computeRpo) g.computeRpo.num fuel (some a) bc)) ∧
    ∀ blocks dvars ud varToDeclare, ∃ result, ∀ defOrder : DefOrder α,
      placeDeclarations orders defOrder g.computeRpo blocks fuel dvars ud varToDeclare =
        some result := by
  refine ⟨?_, ?_, ?_, ?_⟩
  · intro e a b he ha hb
    obtain ⟨c, hc, _, hnearest⟩ := (numbered_domLt hg he orders).commonDom hfuel ha hb
    exact ⟨c, hc, hnearest⟩
  · intro a b ha hb
    obtain ⟨e, he, _⟩ := id ha
    have hnum := numbered_domLt hg he orders
    obtain ⟨c, hc, hcr, hnearest⟩ := hnum.commonDom hfuel ha hb
    obtain ⟨c', hc', hcr', hnearest'⟩ := hnum.commonDom hfuel hb ha
    have hsame : c = c' := by
      apply hnum.eq_of_dominators hcr hcr'
      intro d
      rw [hnearest.dominates_iff, hnearest'.dominates_iff, and_comm]
    rw [hc, hc', hsame]
  · intro a b c ha hb hc
    obtain ⟨e, he, _⟩ := id ha
    have hnum := numbered_domLt hg he orders
    obtain ⟨ab, hab, habr, hnear⟩ := hnum.commonDom hfuel ha hb
    obtain ⟨bc, hbc, hbcr, hnear'⟩ := hnum.commonDom hfuel hb hc
    obtain ⟨x, hx, hxr, hnearx⟩ := hnum.commonDom hfuel habr hc
    obtain ⟨y, hy, hyr, hneary⟩ := hnum.commonDom hfuel ha hbcr
    have hsame : x = y := by
      apply hnum.eq_of_dominators hxr hyr
      intro d
      rw [hnearx.dominates_iff, hneary.dominates_iff, hnear.dominates_iff, hnear'.dominates_iff,
        and_assoc]
    rw [hab, hbc, Option.bind_some, Option.bind_some, hx, hy, hsame]
  · intro blocks dvars ud varToDeclare
    have hany (defOrder defOrder' : DefOrder α) := placeDeclarations_order orders hg hfuel blocks
      dvars ud varToDeclare defOrder defOrder'
    obtain ⟨result, hresult, _⟩ := hany
      ⟨fun _ _ _ l => l, fun _ _ _ l => List.Perm.refl l⟩
      ⟨fun _ _ _ l => l, fun _ _ _ l => List.Perm.refl l⟩
    refine ⟨result, fun defOrder => ?_⟩
    obtain ⟨result', hresult', hsame⟩ := hany defOrder
      ⟨fun _ _ _ l => l, fun _ _ _ l => List.Perm.refl l⟩
    rw [hresult', ← hsame, hresult]

end

theorem commonDom_nearest_loopGraph :
    ∃ c, commonDom (domLt SetOrders.filled loopGraph.computeRpo) loopGraph.computeRpo.num 8
        (some 1) (some 3) = some (some c) ∧
      NearestCommonDominator loopGraph.allSucs 0 c 1 3 :=
  (commonDom_nearest SetOrders.filled loopGraph_wellFormed (by decide)).1 0 1 3 rfl
    ⟨0, rfl, [0, 1], Walk.go (by decide) (Walk.stay 1)⟩ loopGraph_reachable

end Dexllm.Dad
