import Dexllm.Dad.PlaceDeclarations
import Mathlib.Order.WellFounded

/-!
The scope of the declarations. Every use chooses the nearest common dominator of the blocks
of its own definitions. The choices of uses that share a block of definitions lie on one
chain of dominators, so in a linked group of uses one of them is above all others.
-/

namespace Dexllm.Dad

open DepthFirst Relation

section Chains

variable {ι β : Type} {above : β → β → Prop} {rank : β → Nat} {place : ι → β}

/-- Linked places on chains that a rank orders have a highest one. -/
theorem exists_highest [Nonempty ι] (hrefl : ∀ i, above (place i) (place i))
    (htrans : ∀ a b c, above a b → above b c → above a c)
    (hchain : ∀ i j v, above (place i) v → above (place j) v →
      above (place i) (place j) ∨ above (place j) (place i))
    (hrank : ∀ i j, above (place i) (place j) →
      place i = place j ∨ rank (place i) < rank (place j))
    (hlinked : ∀ i j, ReflTransGen
      (fun i j => ∃ v, above (place i) v ∧ above (place j) v) i j) :
    ∃ i, ∀ j, above (place i) (place j) := by
  obtain ⟨i, -, hleast⟩ :=
    (measure fun i => rank (place i)).wf.has_min Set.univ Set.univ_nonempty
  have hnone {j : ι} (h : above (place j) (place i)) : place j = place i :=
    (hrank j i h).resolve_right (hleast j trivial)
  refine ⟨i, fun j => ?_⟩
  -- along the links from `i`: a place on a chain with the least one is below it
  induction hlinked i j with
  | refl => exact hrefl _
  | @tail k l hpath hlink ih =>
    obtain ⟨v, hkv, hlv⟩ := hlink
    obtain hil | hli := hchain i l v (htrans _ _ _ ih hkv) hlv
    · exact hil
    · exact hnone hli ▸ hrefl l

end Chains

section Dominators

variable {α : Type} [DecidableEq α] {sucs : α → List α} {root : α} {reached : α → Prop}
  {idom : α → Option α} {num : α → Int} {size : Nat}

omit [DecidableEq α] in
/-- The dominators of a node lie on one chain. -/
theorem Numbered.dominators_chain (h : Numbered sucs root reached idom num size) {a b v : α}
    (hv : reached v) (ha : Dominates sucs root a v) (hb : Dominates sucs root b v) :
    Dominates sucs root a b ∨ Dominates sucs root b a := by
  induction hn : (num v).toNat using Nat.strong_induction_on generalizing v with
  | _ n ih =>
    by_cases hav : a = v
    · exact .inr (hav ▸ hb)
    by_cases hbv : b = v
    · exact .inl (hbv ▸ ha)
    by_cases hroot : v = root
    · subst hroot
      obtain rfl := (List.mem_singleton.mp (ha [v] (Walk.stay v)))
      exact absurd rfl hav
    obtain ⟨z, -, hz⟩ := h.idom v hv hroot
    obtain ⟨hzr, hlt⟩ := h.dom z v hv hz.dominates
    have hlt := hlt.resolve_left hz.strict
    have hpos := h.pos z hzr
    exact ih (num z).toNat (by omega) hzr (hz.nearest a ha hav) (hz.nearest b hb hbv) rfl

end Dominators

section Folds

variable {β γ : Type} {f : γ → β → Option γ} {R : γ → γ → Prop}

/-- What every step keeps, a fold keeps from each of its steps on. -/
theorem foldlM_kept (hrefl : ∀ s, R s s) (htrans : ∀ s t u, R s t → R t u → R s u)
    (hstep : ∀ s x t, f s x = some t → R s t) {l : List β} {s t : γ}
    (h : l.foldlM f s = some t) :
    R s t ∧ ∀ x ∈ l, ∃ u v, f u x = some v ∧ R v t := by
  induction l generalizing s with
  | nil =>
    obtain rfl := Option.some.inj h
    exact ⟨hrefl s, nofun⟩
  | cons x l ih =>
    rw [List.foldlM_cons] at h
    obtain ⟨u, hu, h⟩ := Option.bind_eq_some_iff.mp h
    obtain ⟨hkept, hrest⟩ := ih h
    refine ⟨htrans _ _ _ (hstep _ _ _ hu) hkept, fun y hy => ?_⟩
    obtain rfl | hy := List.mem_cons.mp hy
    · exact ⟨s, u, hu, hkept⟩
    · exact hrest y hy

end Folds

section Declarations

variable {α : Type} [DecidableEq α] {g : Graph α} {blocks : Blocks α}
  {dvars : String → Option Form} {ud : String × Int → Option (List Int)} {var : String}
  {form : Form} {e : α} {orders : SetOrders α} {defOrder : DefOrder α} {fuel : Nat}

/-- An instruction of a block the search leaves uses the variable. -/
def UsedIn (g : Graph α) (blocks : Blocks α) (var : String) (u : α × Int) : Prop :=
  u.1 ∈ g.postOrder ∧ ∃ used, (u.2, some used) ∈ blocks.locWithIns u.1 ∧ var ∈ used

/-- A definition at this location reaches the use. -/
def DefinedAt (ud : String × Int → Option (List Int)) (var : String) (u : α × Int) (l : Int) :
    Prop := ∃ locs, ud (var, u.2) = some locs ∧ l ∈ locs

/-- A definition that reaches the use lies in the block. -/
def DefinedIn (blocks : Blocks α) (ud : String × Int → Option (List Int)) (var : String)
    (u : α × Int) (dn : α) : Prop :=
  ∃ l, DefinedAt ud var u l ∧ getNodeFromLoc blocks.locToNode l = some dn

/-- A definition that reaches the use lies in the block, which is not part of a catch. -/
def DefinedOutside (blocks : Blocks α) (ud : String × Int → Option (List Int)) (var : String)
    (u : α × Int) (dn : α) : Prop :=
  DefinedIn blocks ud var u dn ∧ blocks.inCatch dn = false

/-- Uses of a variable that have definitions outside the catches, linked by the blocks of
these. -/
structure UseGroup (g : Graph α) (blocks : Blocks α) (ud : String × Int → Option (List Int))
    (var : String) (S : Set (α × Int)) : Prop where
  nonempty : S.Nonempty
  used : ∀ u ∈ S, UsedIn g blocks var u
  defined : ∀ u ∈ S, ∃ dn, DefinedOutside blocks ud var u dn
  linked : ∀ u w : S, ReflTransGen (fun a b : S =>
    ∃ dn, DefinedOutside blocks ud var a dn ∧ DefinedOutside blocks ud var b dn) u w

/-- The block carries the declaration, or holds a definition that reaches the group, or has
no instructions. -/
def Declares (blocks : Blocks α) (ud : String × Int → Option (List Int)) (var : String)
    (form : Form) (out : α → List Form) (S : Set (α × Int)) (X : α) : Prop :=
  form ∈ out X ∨ blocks.insRange X = none ∨ ∃ u ∈ S, ∃ l lo hi, DefinedAt ud var u l ∧
    blocks.insRange X = some (lo, hi) ∧ lo ≤ l ∧ l < hi

theorem declareAt_kept {locs : List Int} {s : α → List Form} {cd : Option α} {X : α} {f : Form}
    (h : f ∈ s X) : f ∈ declareAt blocks locs form s cd X := by
  cases cd with
  | none => exact h
  | some c =>
    dsimp only [declareAt]
    cases blocks.insRange c with
    | none => exact h
    | some range =>
      dsimp only
      split
      · exact h
      · rw [Function.update_apply]
        split
        next heq => exact mem_pushNew.mpr (.inl (heq ▸ h))
        next => exact h

theorem declareAt_declares {locs : List Int} {s : α → List Form} {u : α × Int} {c : α}
    (h : ud (var, u.2) = some locs) :
    Declares blocks ud var form (declareAt blocks locs form s (some c)) {u} c := by
  dsimp only [declareAt, Declares]
  cases hrange : blocks.insRange c with
  | none => exact .inr (.inl rfl)
  | some range =>
    obtain ⟨lo, hi⟩ := range
    dsimp only
    split
    next hany =>
      obtain ⟨l, hl, hin⟩ := List.any_eq_true.mp hany
      obtain ⟨hlo, hhi⟩ := of_decide_eq_true hin
      exact .inr (.inr ⟨u, rfl, l, lo, hi, ⟨locs, h, hl⟩, rfl, hlo, hhi⟩)
    next =>
      rw [Function.update_self]
      exact .inl (mem_pushNew.mpr (.inr rfl))

theorem placeUse_kept {idom : α → Option α} {node : α} {loc : Int} {s t : α → List Form}
    (h : placeUse g blocks idom fuel dvars ud defOrder node loc s var = some t) (X : α)
    (f : Form) (hf : f ∈ s X) : f ∈ t X := by
  unfold placeUse at h
  split at h
  · split at h
    · exact Option.some.inj h ▸ hf
    · obtain ⟨c, -, rfl⟩ := Option.map_eq_some_iff.mp h
      exact declareAt_kept hf
  · exact Option.some.inj h ▸ hf

/-- Nothing that is declared is taken back. -/
def Keeps (s t : α → List Form) : Prop := ∀ X, ∀ f ∈ s X, f ∈ t X

omit [DecidableEq α] in
theorem Declares.mono {s t : α → List Form} {S : Set (α × Int)} {X : α}
    (h : Declares blocks ud var form s S X) (hkeep : Keeps s t) :
    Declares blocks ud var form t S X := h.imp (hkeep X form) id

/-- The run of the pass: what a use declares is there in the end. -/
theorem placeDeclarations_run {u : α × Int} {s out : α → List Form}
    (hused : UsedIn g blocks var u)
    (h : placeDeclarations orders defOrder g.computeRpo blocks fuel dvars ud s = some out) :
    ∃ t t', placeUse g.computeRpo blocks (domLt orders g.computeRpo) fuel dvars ud defOrder u.1
      u.2 t var = some t' ∧ Keeps t' out := by
  obtain ⟨hnode, used, hins, hvar⟩ := hused
  have hrefl (s : α → List Form) : Keeps s s := fun _ _ hf => hf
  have htrans (s t v : α → List Form) (hst : Keeps s t) (htv : Keeps t v) : Keeps s v :=
    fun X f hf => htv X f (hst X f hf)
  let visit (node : α) (s : α → List Form) (x : Int × Option (List String)) :
      Option (α → List Form) :=
    Option.casesOn (motive := fun _ => Option (α → List Form)) x.2 (some s) fun used =>
      used.foldlM (placeUse g.computeRpo blocks (domLt orders g.computeRpo) fuel dvars ud
        defOrder node x.1) s
  have hinstr (node : α) (s : α → List Form) (x : Int × Option (List String))
      (t : α → List Form) (hx : visit node s x = some t) : Keeps s t := by
    obtain ⟨loc, ins⟩ := x
    cases ins with
    | none => exact Option.some.inj hx ▸ hrefl s
    | some used => exact (foldlM_kept hrefl htrans (fun _ _ _ h => placeUse_kept h) hx).1
  have hrun : g.computeRpo.postOrder.foldlM (fun s node =>
      (blocks.locWithIns node).foldlM (visit node) s) s = some out := by
    rw [← h]
    unfold placeDeclarations
    congr 1
    funext s node
    congr 1
    funext s x
    obtain ⟨loc, ins⟩ := x
    cases ins <;> rfl
  obtain ⟨-, hnodes⟩ := foldlM_kept hrefl htrans
    (fun s node t h => (foldlM_kept hrefl htrans (hinstr node) h).1) hrun
  obtain ⟨s₁, t₁, h₁, hkeep₁⟩ := hnodes u.1 hnode
  obtain ⟨s₂, t₂, h₂, hkeep₂⟩ := (foldlM_kept hrefl htrans (hinstr u.1) h₁).2 _ hins
  obtain ⟨s₃, t₃, h₃, hkeep₃⟩ :=
    (foldlM_kept hrefl htrans (fun _ _ _ h => placeUse_kept h) h₂).2 var hvar
  exact ⟨s₃, t₃, h₃, htrans _ _ _ hkeep₃ (htrans _ _ _ hkeep₂ hkeep₁)⟩

section Reached

variable (hg : g.WellFormed) (he : g.entry = some e) (hall : ∀ v ∈ g.nodes, g.Reachable v)
  (hlocs : ∀ r ∈ blocks.locToNode, r.node ∈ g.nodes)

include hg he hall hlocs

theorem defNode_eq {l : Int} {dn : α} :
    defNode g.computeRpo blocks (domLt orders g.computeRpo) l = some dn ↔
      getNodeFromLoc blocks.locToNode l = some dn ∧ blocks.inCatch dn = false := by
  unfold defNode
  cases hnode : getNodeFromLoc blocks.locToNode l with
  | none => exact ⟨nofun, fun h => absurd h.1 nofun⟩
  | some n =>
    have hmem : n ∈ g.nodes := by
      obtain ⟨r, hr, rfl⟩ := Option.map_eq_some_iff.mp hnode
      exact hlocs r (List.mem_of_find?_eq_some hr)
    have hkept : ¬(domLt orders g.computeRpo n = none ∧ g.computeRpo.entry ≠ some n) := by
      rintro ⟨hnone, hentry⟩
      rw [Graph.entry_computeRpo, he] at hentry
      have hne : n ≠ e := fun heq => hentry (heq ▸ rfl)
      obtain ⟨z, hz, -⟩ := (numbered_domLt hg he orders).idom n (hall n hmem) hne
      cases hnone.symm.trans hz
    dsimp only
    cases hcatch : blocks.inCatch n with
    | true =>
      rw [if_pos rfl]
      exact ⟨nofun, fun h => by cases Option.some.inj h.1; cases hcatch.symm.trans h.2⟩
    | false =>
      rw [if_neg Bool.false_ne_true, if_neg hkept]
      exact ⟨fun h => ⟨h, Option.some.inj h ▸ hcatch⟩, And.left⟩

/-- What a use declares: something at the nearest common dominator of its definitions. -/
theorem placeUse_spec (hfuel : 2 * g.nodes.length ≤ fuel) {u : α × Int} {s t : α → List Form}
    (hform : dvars var = some form) (hkind : form.kind = .variable)
    (hdefined : ∃ dn, DefinedOutside blocks ud var u dn)
    (h : placeUse g.computeRpo blocks (domLt orders g.computeRpo) fuel dvars ud defOrder u.1 u.2
      s var = some t) :
    ∃ c, g.Reachable c ∧ (∀ d, Dominates g.allSucs e d c ↔
        ∀ dn, DefinedOutside blocks ud var u dn → Dominates g.allSucs e d dn) ∧
      Declares blocks ud var form t {u} c := by
  obtain ⟨dn, ⟨l, ⟨locs, hlocs', hl⟩, hdn⟩, hcatch⟩ := hdefined
  unfold placeUse at h
  simp only [hform, hlocs'] at h
  rw [if_neg (by simp [hkind])] at h
  generalize hnodes : defOrder.order u.1 u.2 var (locs.filterMap
    (defNode g.computeRpo blocks (domLt orders g.computeRpo))).dedup = nodes at h
  have hmem (n : α) : n ∈ nodes ↔ DefinedOutside blocks ud var u n := by
    rw [← hnodes, (defOrder.perm u.1 u.2 var _).mem_iff, List.mem_dedup, List.mem_filterMap]
    constructor
    · rintro ⟨l, hl, hn⟩
      obtain ⟨hn, hout⟩ := (defNode_eq hg he hall hlocs).mp hn
      exact ⟨⟨l, ⟨locs, hlocs', hl⟩, hn⟩, hout⟩
    · rintro ⟨⟨l, ⟨locs', hlocs'', hl⟩, hn⟩, hout⟩
      obtain rfl := Option.some.inj (hlocs'.symm.trans hlocs'')
      exact ⟨l, hl, (defNode_eq hg he hall hlocs).mpr ⟨hn, hout⟩⟩
  obtain ⟨c, hc, rfl⟩ := Option.map_eq_some_iff.mp h
  have hreached (n : α) (hn : n ∈ nodes) : g.Reachable n := by
    obtain ⟨⟨l, -, hn⟩, -⟩ := (hmem n).mp hn
    obtain ⟨r, hr, rfl⟩ := Option.map_eq_some_iff.mp hn
    exact hall _ (hlocs r (List.mem_of_find?_eq_some hr))
  cases nodes with
  | nil => exact absurd ((hmem dn).mpr ⟨⟨l, ⟨locs, hlocs', hl⟩, hdn⟩, hcatch⟩) List.not_mem_nil
  | cons n nodes =>
    obtain ⟨c', hc', hreach, hdom⟩ := (numbered_domLt hg he orders).commonDom_fold hfuel nodes
      (fun m hm => hreached m (List.mem_cons_of_mem _ hm)) (hreached n List.mem_cons_self)
    obtain rfl := Option.some.inj (hc.symm.trans hc')
    refine ⟨c', hreach, fun d => ?_, ?_⟩
    · rw [hdom d, ← List.forall_mem_cons]
      exact forall_congr' fun m => imp_congr_left (hmem m)
    · exact declareAt_declares hlocs'

/-- The uses of a linked group have one block above all their definitions. -/
theorem group_declared (hfuel : 2 * g.nodes.length ≤ fuel) {s out : α → List Form}
    {S : Set (α × Int)} (hform : dvars var = some form) (hkind : form.kind = .variable)
    (hS : UseGroup g blocks ud var S)
    (h : placeDeclarations orders defOrder g.computeRpo blocks fuel dvars ud s = some out) :
    ∃ X, (∀ u ∈ S, ∀ dn, DefinedOutside blocks ud var u dn → Dominates g.allSucs e X dn) ∧
      Declares blocks ud var form out S X := by
  have huse (u : S) : ∃ c, g.Reachable c ∧ (∀ d, Dominates g.allSucs e d c ↔
      ∀ dn, DefinedOutside blocks ud var u.1 dn → Dominates g.allSucs e d dn) ∧
      Declares blocks ud var form out S c := by
    obtain ⟨t, t', hplace, hkeep⟩ := placeDeclarations_run (hS.used u.1 u.2) h
    obtain ⟨c, hreach, hdom, hdecl⟩ :=
      placeUse_spec hg he hall hlocs hfuel hform hkind (hS.defined u.1 u.2) hplace
    refine ⟨c, hreach, hdom, (hdecl.mono hkeep).imp_right (Or.imp_right ?_)⟩
    rintro ⟨w, rfl, hw⟩
    exact ⟨u.1, u.2, hw⟩
  choose place hreach hdom hdecl using huse
  have hnum := numbered_domLt hg he orders
  have habove (u : S) {dn : α} (hdn : DefinedOutside blocks ud var u.1 dn) :
      Dominates g.allSucs e (place u) dn := (hdom u _).mp (dominates_self _) dn hdn
  have hreached {dn : α} {u : α × Int} (hdn : DefinedOutside blocks ud var u dn) :
      g.Reachable dn := by
    obtain ⟨⟨l, -, hn⟩, -⟩ := hdn
    obtain ⟨r, hr, rfl⟩ := Option.map_eq_some_iff.mp hn
    exact hall _ (hlocs r (List.mem_of_find?_eq_some hr))
  have hne : Nonempty S := hS.nonempty.to_subtype
  let above (a v : α) : Prop := g.Reachable v ∧ Dominates g.allSucs e a v
  have hchain (u w : S) (v : α) (hu : above (place u) v) (hw : above (place w) v) :
      above (place u) (place w) ∨ above (place w) (place u) :=
    (hnum.dominators_chain hu.1 hu.2 hw.2).imp (⟨hreach w, ·⟩) (⟨hreach u, ·⟩)
  have hrank (u w : S) (huw : above (place u) (place w)) : place u = place w ∨
      (g.computeRpo.num (place u)).toNat < (g.computeRpo.num (place w)).toNat := by
    obtain ⟨-, heq | hlt⟩ := hnum.dom _ _ (hreach w) huw.2
    · exact .inl heq
    · have hpos := hnum.pos _ (hreach u)
      exact .inr (by omega)
  have hlinked (u w : S) : ReflTransGen
      (fun u w => ∃ v, above (place u) v ∧ above (place w) v) u w :=
    (hS.linked u w).lift id fun a b ⟨dn, ha, hb⟩ =>
      ⟨dn, ⟨hreached ha, habove a ha⟩, hreached hb, habove b hb⟩
  obtain ⟨top, htop⟩ := @exists_highest S α above (fun v => (g.computeRpo.num v).toNat) place hne
    (fun u => ⟨hreach u, dominates_self _⟩)
    (fun a b v hab hbv => ⟨hbv.1, dominates_trans hab.2 hbv.2⟩) hchain hrank hlinked
  exact ⟨place top, fun u hu dn hdn =>
    dominates_trans (htop ⟨u, hu⟩).2 (habove ⟨u, hu⟩ hdn), hdecl top⟩

end Reached

/-- Every path to the use passes a definition outside the catches that reaches it. -/
def Behind (g : Graph α) (e : α) (blocks : Blocks α) (ud : String × Int → Option (List Int))
    (var : String) (u : α × Int) : Prop :=
  ∀ p, Walk g.allSucs e u.1 p → ∃ dn ∈ p, DefinedOutside blocks ud var u dn

/-- One block is above all definitions and uses of a variable, and declares it. -/
def DeclarationsDominate (g : Graph α) (e : α) (blocks : Blocks α)
    (dvars : String → Option Form) (ud : String × Int → Option (List Int))
    (out : α → List Form) : Prop :=
  ∀ var form, dvars var = some form → form.kind = .variable →
    (∃ u, UsedIn g blocks var u) →
    ∃ X, (∀ u, UsedIn g blocks var u → Dominates g.allSucs e X u.1 ∧
        ∀ dn, DefinedIn blocks ud var u dn → Dominates g.allSucs e X dn) ∧
      (form ∈ out X ∨ ∃ u, UsedIn g blocks var u ∧ DefinedIn blocks ud var u X)

end Declarations

section Undominated

/-- One instruction to a block, and a last one that uses the variable. -/
def lineBlocks (last : Nat) (catches bare : List Nat) : Blocks Nat where
  locWithIns n := [((n : Int), some (if n = last then ["x"] else []))]
  inCatch n := n ∈ catches
  insRange n := if n ∈ bare then none else some (n, n + 1)
  locToNode := (List.range (last + 1)).map fun (n : Nat) => ⟨(n : Int), (n : Int), n⟩

def keptOrder : DefOrder Nat := ⟨fun _ _ _ l => l, fun _ _ _ l => List.Perm.refl l⟩

/-- The pass leaves the variable used in block `last` without a block that is above its
definitions and this use and declares it. -/
structure Undominated (g : Graph Nat) (last : Nat) (catches bare : List Nat) (defs : List Int) :
    Prop where
  wellFormed : g.WellFormed
  entry : g.entry = some 0
  reachable : ∀ v ∈ g.nodes, g.Reachable v
  undominated : ∃ out, placeDeclarations SetOrders.filled keptOrder g.computeRpo
      (lineBlocks last catches bare) (2 * g.nodes.length) (fun _ => some ⟨0, .variable⟩)
      (fun use => if use.2 = last then some defs else none) (fun _ => []) = some out ∧
    ¬DeclarationsDominate g 0 (lineBlocks last catches bare) (fun _ => some ⟨0, .variable⟩)
      (fun use => if use.2 = last then some defs else none) out

variable {g : Graph Nat} {last : Nat} {catches bare : List Nat} {defs : List Int}

/-- Only the entry is above all, and nothing is declared or defined there. -/
theorem not_dominate {out : Nat → List Form} (hused : last ∈ g.postOrder)
    (hentry : ∀ X, Dominates g.allSucs 0 X last → (∀ l ∈ defs, ∀ dn,
      getNodeFromLoc (lineBlocks last catches bare).locToNode l = some dn →
        Dominates g.allSucs 0 X dn) → X = 0)
    (hout : out 0 = [])
    (hdefs : ∀ l ∈ defs, getNodeFromLoc (lineBlocks last catches bare).locToNode l ≠ some 0) :
    ¬DeclarationsDominate g 0 (lineBlocks last catches bare) (fun _ => some ⟨0, .variable⟩)
      (fun use => if use.2 = last then some defs else none) out := by
  intro h
  have huse : UsedIn g (lineBlocks last catches bare) "x" (last, (last : Int)) :=
    ⟨hused, ["x"], by simp [lineBlocks], List.mem_singleton.mpr rfl⟩
  obtain ⟨X, habove, hdecl⟩ := h "x" ⟨0, .variable⟩ rfl rfl ⟨_, huse⟩
  obtain ⟨hlast, hdn⟩ := habove _ huse
  have hX : X = 0 := hentry X hlast fun l hl dn hnode =>
    hdn dn ⟨l, ⟨defs, if_pos rfl, hl⟩, hnode⟩
  subst hX
  obtain hform | ⟨w, -, l, ⟨locs, hlocs, hl⟩, hnode⟩ := hdecl
  · rw [hout] at hform
    cases hform
  · dsimp only at hlocs
    split at hlocs
    · obtain rfl := Option.some.inj hlocs
      exact hdefs l hl hnode
    · cases hlocs

def lineNodes : Graph Nat :=
  { ((((({} : Graph Nat).addNode 0).addNode 1).addNode 2).addNode 3).addNode 4 with
    entry := some 0 }

/-- `if (p) g(); x = f();` in a try whose handler, block 3, is `x = 2`. -/
def tryGraph : Graph Nat :=
  ((((((lineNodes.addEdge 0 1).addEdge 0 2).addEdge 1 2).addEdge 2 4).addEdge 3 4).addCatchEdge
    1 3).addCatchEdge 2 3

theorem reachable_of_left (hg : g.WellFormed) (he : g.entry = some 0)
    (h : ∀ v ∈ g.nodes, v ∈ (g.dfs 0).left) : ∀ v ∈ g.nodes, g.Reachable v :=
  fun v hv => ((hg.mem_left he).trans (hg.entered_iff he)).mp (h v hv)

theorem lineNodes_wellFormed : lineNodes.WellFormed := by
  apply Graph.WellFormed.setEntry _ (by decide)
  iterate 5 apply Graph.WellFormed.addNode _ (by decide)
  exact Graph.wellFormed_empty

theorem tryGraph_wellFormed : tryGraph.WellFormed := by
  iterate 2 apply Graph.WellFormed.addCatchEdge _ (by decide) (by decide)
  iterate 5 apply Graph.WellFormed.addEdge _ (by decide) (by decide)
  exact lineNodes_wellFormed

theorem tryGraph_undominated : Undominated tryGraph 4 [3] [] [2, 3] where
  wellFormed := tryGraph_wellFormed
  entry := rfl
  reachable := reachable_of_left tryGraph_wellFormed rfl (by decide)
  undominated := by
    have hsome : ((placeDeclarations SetOrders.filled keptOrder tryGraph.computeRpo
        (lineBlocks 4 [3] []) 10 (fun _ => some ⟨0, .variable⟩)
        (fun use => if use.2 = 4 then some [2, 3] else none) (fun _ => [])).any
          fun out => decide (out 0 = [])) = true := by decide
    obtain ⟨out, hout, h⟩ := (Option.any_eq_true _ _).mp hsome
    refine ⟨out, hout, not_dominate (by decide) (fun X hlast hdefs => ?_) (of_decide_eq_true h)
      (by decide)⟩
    have htry : X ∈ [0, 2] := hdefs 2 (by decide) 2 (by decide) [0, 2]
      (Walk.go (by decide) (Walk.stay 2))
    have hcatch : X ∈ [0, 1, 3] := hdefs 3 (by decide) 3 (by decide) [0, 1, 3]
      (Walk.go (by decide) (Walk.go (by decide) (Walk.stay 3)))
    simp only [List.mem_cons, List.not_mem_nil, or_false] at htry hcatch
    omega

/-- The entry enters a monitor and holds no other instruction; its handler is block 2. -/
def bareGraph : Graph Nat :=
  (((((lineNodes.addEdge 0 1).addEdge 1 3).addEdge 1 4).addEdge 2 3).addEdge 3 4).addCatchEdge 0 2

theorem bareGraph_wellFormed : bareGraph.WellFormed := by
  apply Graph.WellFormed.addCatchEdge _ (by decide) (by decide)
  iterate 5 apply Graph.WellFormed.addEdge _ (by decide) (by decide)
  exact lineNodes_wellFormed

theorem bareGraph_undominated : Undominated bareGraph 4 [2] [0] [1, 3] where
  wellFormed := bareGraph_wellFormed
  entry := rfl
  reachable := reachable_of_left bareGraph_wellFormed rfl (by decide)
  undominated := by
    have hsome : ((placeDeclarations SetOrders.filled keptOrder bareGraph.computeRpo
        (lineBlocks 4 [2] [0]) 10 (fun _ => some ⟨0, .variable⟩)
        (fun use => if use.2 = 4 then some [1, 3] else none) (fun _ => [])).any
          fun out => decide (out 0 = [])) = true := by decide
    obtain ⟨out, hout, h⟩ := (Option.any_eq_true _ _).mp hsome
    refine ⟨out, hout, not_dominate (by decide) (fun X hlast hdefs => ?_) (of_decide_eq_true h)
      (by decide)⟩
    have hfirst : X ∈ [0, 1] := hdefs 1 (by decide) 1 (by decide) [0, 1]
      (Walk.go (by decide) (Walk.stay 1))
    have hcatch : X ∈ [0, 2, 3] := hdefs 3 (by decide) 3 (by decide) [0, 2, 3]
      (Walk.go (by decide) (Walk.go (by decide) (Walk.stay 3)))
    simp only [List.mem_cons, List.not_mem_nil, or_false] at hfirst hcatch
    omega

/-- `if (p) x = f();` and a use of `x` behind. -/
def unassignedGraph : Graph Nat :=
  (((({ ((({} : Graph Nat).addNode 0).addNode 1).addNode 2 with entry := some 0 }).addEdge 0
    1).addEdge 0 2).addEdge 1 2)

theorem unassignedGraph_wellFormed : unassignedGraph.WellFormed := by
  iterate 3 apply Graph.WellFormed.addEdge _ (by decide) (by decide)
  apply Graph.WellFormed.setEntry _ (by decide)
  iterate 3 apply Graph.WellFormed.addNode _ (by decide)
  exact Graph.wellFormed_empty

theorem unassignedGraph_undominated : Undominated unassignedGraph 2 [] [] [1] where
  wellFormed := unassignedGraph_wellFormed
  entry := rfl
  reachable := reachable_of_left unassignedGraph_wellFormed rfl (by decide)
  undominated := by
    have hsome : ((placeDeclarations SetOrders.filled keptOrder unassignedGraph.computeRpo
        (lineBlocks 2 [] []) 6 (fun _ => some ⟨0, .variable⟩)
        (fun use => if use.2 = 2 then some [1] else none) (fun _ => [])).any
          fun out => decide (out 0 = [])) = true := by decide
    obtain ⟨out, hout, h⟩ := (Option.any_eq_true _ _).mp hsome
    refine ⟨out, hout, not_dominate (by decide) (fun X hlast hdefs => ?_) (of_decide_eq_true h)
      (by decide)⟩
    have hfirst : X ∈ [0, 1] := hdefs 1 (by decide) 1 (by decide) [0, 1]
      (Walk.go (by decide) (Walk.stay 1))
    have huse : X ∈ [0, 2] := hlast [0, 2] (Walk.go (by decide) (Walk.stay 2))
    simp only [List.mem_cons, List.not_mem_nil, or_false] at hfirst huse
    omega

/-- The use behind the try, as a group of its own. -/
theorem tryGraph_useGroup : UseGroup tryGraph (lineBlocks 4 [3] [])
    (fun use => if use.2 = 4 then some [2, 3] else none) "x" {(4, 4)} where
  nonempty := Set.singleton_nonempty _
  used := by
    rintro u rfl
    exact ⟨by decide, ["x"], by simp [lineBlocks], List.mem_singleton.mpr rfl⟩
  defined := by
    rintro u rfl
    exact ⟨2, ⟨2, ⟨[2, 3], rfl, by decide⟩, by decide⟩, by decide⟩
  linked := by
    rintro ⟨u, rfl⟩ ⟨w, rfl⟩
    exact .refl

end Undominated

end Dexllm.Dad
