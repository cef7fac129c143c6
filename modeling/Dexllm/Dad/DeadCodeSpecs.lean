import Dexllm.Dad.DeadCode

/-!
What `DeadCodeElimination` removes. An edge links a definition to a use it may
reach; a definition without effects is dead when every use it reaches is in a
dead definition. The elimination removes exactly the dead definitions: those
entered so far have lost their uses, and a definition that has lost its uses has
been entered.
-/

namespace Dexllm.Dad

variable {α V : Type}

section ChainMap

variable [DecidableEq V]

namespace ChainMap

variable {chains : ChainMap V} {var v : V} {loc l x : Int}

theorem locs_dropLoc : (chains.dropLoc (var, loc) x).locs v l =
    if v = var ∧ l = loc then (chains.locs var loc).erase x else chains.locs v l := by
  unfold dropLoc locs
  split
  next h =>
    obtain ⟨rfl, rfl⟩ := h
    simp
  next h =>
    have hne : (v, l) ≠ (var, loc) := fun heq => h (Prod.mk.inj heq)
    rw [Function.update_of_ne hne]

theorem locs_eraseKey (h : chains.locs var loc = []) :
    (chains.eraseKey (var, loc)).locs v l = chains.locs v l := by
  unfold eraseKey
  by_cases heq : (v, l) = (var, loc)
  · obtain ⟨rfl, rfl⟩ := Prod.mk.inj heq
    rw [h]
    unfold locs
    simp
  · unfold locs
    rw [Function.update_of_ne heq]

theorem locs_eraseEmpty : (chains.eraseEmpty (var, loc)).locs v l = chains.locs v l := by
  unfold eraseEmpty
  split
  next h => exact locs_eraseKey (by simp [locs, h])
  next => rfl

end ChainMap

end ChainMap

theorem mem_uniq {locs : List Int} {d : Int} : d ∈ uniq locs ↔ d ∈ locs := by
  unfold uniq
  rw [List.mem_insertionSort, List.mem_dedup]

theorem nodup_uniq {locs : List Int} : (uniq locs).Nodup :=
  (List.perm_insertionSort _ _).nodup_iff.mpr (List.nodup_dedup locs)

namespace IRForm

/-- A definition the elimination may remove. -/
def Removable (ins : IRForm V) : Prop := ins.isCall = false ∧ ins.hasSideEffect = false

theorem isCall_removeDefinedVar {ins : IRForm V} :
    ins.removeDefinedVar.isCall = ins.isCall := by
  unfold removeDefinedVar
  split <;> rfl

end IRForm

/-- A definition without effects all of whose uses are in dead definitions. -/
inductive Dead (code : Int → Option (IRForm V)) (edge : V → Int → Int → Prop) : Int → Prop
  | intro {d : Int} {ins : IRForm V} {var : V} (hins : code d = some ins)
      (hlhs : ins.lhs = some var) (hpure : ins.Removable)
      (huses : ∀ u, edge var d u → Dead code edge u) : Dead code edge d

theorem Dead.removable {code : Int → Option (IRForm V)} {edge : V → Int → Int → Prop} {d : Int}
    (h : Dead code edge d) : ∃ ins, code d = some ins ∧ ins.Removable := by
  cases h with
  | intro hins _ hpure _ => exact ⟨_, hins, hpure⟩

/-- What the chains have in common with the code they are built from. -/
structure ChainsOk (code : Int → Option (IRForm V)) (edge : V → Int → Int → Prop) : Prop where
  located : ∀ d ins, code d = some ins → 0 ≤ d
  used : ∀ v d u, edge v d u → ∃ ins, code u = some ins ∧ v ∈ ins.usedVars
  defined : ∀ v d u, edge v d u → 0 ≤ d → ∃ ins, code d = some ins ∧ ins.lhs = some v

namespace Elim

/-- The chains of a state, and the set `K` of instructions that have been entered. -/
structure Chained (blocks : α → List Int) (code : Int → Option (IRForm V)) (edge : V → Int → Int → Prop)
    (K : Finset Int) (st : Elim α V) : Prop where
  mirrored : ∀ v d u, d ∈ st.ud.locs v u ↔ u ∈ st.du.locs v d
  udNodup : ∀ v u, (st.ud.locs v u).Nodup
  duNodup : ∀ v d, (st.du.locs v d).Nodup
  duNonempty : ∀ v d, 0 ≤ d → st.du (v, d) ≠ some []
  sub : ∀ v d u, d ∈ st.ud.locs v u → edge v d u
  kept : ∀ v d u, edge v d u → u ∉ K → d ∈ st.ud.locs v u
  closed : ∀ v d, d ∈ K → st.du.locs v d = []
  dead : ∀ d ∈ K, Dead code edge d
  present : ∀ d, d ∉ K → (code d).isSome → d ∈ st.locToIns
  heap : ∀ d ins, code d = some ins → st.heap d = some ins ∨
    (ins.isCall = true ∧ st.heap d = some ins.removeDefinedVar)
  coded : ∀ node, ∀ i ∈ st.locIns node, (code i).isSome
  listed : ∀ node, ∀ i ∈ blocks node, i ∈ st.locToIns → i ∈ st.locIns node

/-- A removable definition that has lost its uses has been entered. -/
def Starved (code : Int → Option (IRForm V)) (edge : V → Int → Int → Prop)
    (K : Finset Int) (st : Elim α V) : Prop :=
  ∀ v d u ins, code d = some ins → ins.lhs = some v → ins.Removable → edge v d u →
    st.du.locs v d = [] → d ∈ K

def Finished (st : Elim α V) (u : Int) : Prop :=
  u ∉ st.locToIns ∧ ∀ v, st.ud.locs v u = []

variable {blocks : α → List Int} {code : Int → Option (IRForm V)} {edge : V → Int → Int → Prop} {K K1 K2 : Finset Int}
  {st st1 st2 : Elim α V} {d i loc : Int} {var v : V} {ins : IRForm V}

theorem heap_removable (h : Chained blocks code edge K st) (hcode : code d = some ins)
    (hpure : ins.Removable) : st.heap d = some ins := by
  rcases h.heap d ins hcode with hheap | ⟨hcall, _⟩
  · exact hheap
  · rw [hpure.1] at hcall
    cases hcall

/-- An instruction that is entered has been found dead. -/
theorem Chained.enter (hok : ChainsOk code edge) (h : Chained blocks code edge K st)
    (hcode : code d = some ins) (hlhs : ins.lhs = some var) (hpure : ins.Removable)
    (hempty : st.du.locs var d = []) : Chained blocks code edge (insert d K) st where
  mirrored := h.mirrored
  udNodup := h.udNodup
  duNodup := h.duNodup
  duNonempty := h.duNonempty
  sub := h.sub
  kept := fun v e u hedge hu => h.kept v e u hedge fun hK => hu (Finset.mem_insert_of_mem hK)
  closed := by
    intro v e he
    rcases Finset.mem_insert.mp he with rfl | he
    · rw [List.eq_nil_iff_forall_not_mem]
      intro u hu
      obtain ⟨ins', hcode', hlhs'⟩ :=
        hok.defined v e u (h.sub v e u ((h.mirrored v e u).mpr hu)) (hok.located e ins hcode)
      obtain rfl := Option.some.inj (hcode.symm.trans hcode')
      obtain rfl := Option.some.inj (hlhs.symm.trans hlhs')
      rw [hempty] at hu
      cases hu
    · exact h.closed v e he
  dead := by
    intro e he
    rcases Finset.mem_insert.mp he with rfl | he
    · apply Dead.intro hcode hlhs hpure
      intro u hedge
      by_contra hdead
      have hu : u ∉ K := fun hK => hdead (h.dead u hK)
      have hmem := (h.mirrored var e u).mp (h.kept var e u hedge hu)
      rw [hempty] at hmem
      cases hmem
    · exact h.dead e he
  present := fun e he hsome => h.present e (fun hK => he (Finset.mem_insert_of_mem hK)) hsome
  heap := h.heap
  coded := h.coded
  listed := h.listed

theorem mem_of_mem_removeIns [DecidableEq α] {node : α}
    (h : d ∈ (st.removeIns i).locIns node) : d ∈ st.locIns node := by
  unfold removeIns at h
  cases howner : getNodeFromLoc st.locToNode i with
  | none =>
    rw [howner] at h
    exact h
  | some owner =>
    simp only [howner] at h
    rcases eq_or_ne node owner with rfl | hne
    · rw [Function.update_self] at h
      exact List.mem_of_mem_erase h
    · rwa [Function.update_of_ne hne] at h

theorem mem_removeIns [DecidableEq α] {node : α} (hne : d ≠ i) (h : d ∈ st.locIns node) :
    d ∈ (st.removeIns i).locIns node := by
  unfold removeIns
  cases howner : getNodeFromLoc st.locToNode i with
  | none => exact h
  | some owner =>
    dsimp only
    rcases eq_or_ne node owner with rfl | hother
    · rw [Function.update_self]
      exact (List.mem_erase_of_ne hne).mpr h
    · rwa [Function.update_of_ne hother]

theorem Chained.removeIns [DecidableEq α] (h : Chained blocks code edge K st) (hi : i ∈ K) :
    Chained blocks code edge K (st.removeIns i) where
  mirrored := h.mirrored
  udNodup := h.udNodup
  duNodup := h.duNodup
  duNonempty := h.duNonempty
  sub := h.sub
  kept := h.kept
  closed := h.closed
  dead := h.dead
  present := by
    intro d hd hsome
    have hne : d ≠ i := fun heq => hd (heq ▸ hi)
    exact List.mem_filter.mpr ⟨h.present d hd hsome, by simpa using hne⟩
  heap := h.heap
  coded := by
    intro node d hd
    exact h.coded node d (mem_of_mem_removeIns hd)
  listed := by
    intro node d hd hpresent
    obtain ⟨hpresent, hne⟩ := List.mem_filter.mp hpresent
    exact mem_removeIns (by simpa using hne) (h.listed node d hd hpresent)

theorem Chained.removeDefinedVar (h : Chained blocks code edge K st) (hcode : code i = some ins)
    (hcall : ins.isCall = true) : Chained blocks code edge K (st.removeDefinedVar i) where
  mirrored := h.mirrored
  udNodup := h.udNodup
  duNodup := h.duNodup
  duNonempty := h.duNonempty
  sub := h.sub
  kept := h.kept
  closed := h.closed
  dead := h.dead
  present := h.present
  heap := by
    intro d ins' hcode'
    unfold Elim.removeDefinedVar
    rcases eq_or_ne d i with rfl | hne
    · obtain rfl := Option.some.inj (hcode.symm.trans hcode')
      refine Or.inr ⟨hcall, ?_⟩
      rcases h.heap d ins hcode with hheap | ⟨_, hheap⟩
      · simp [hheap]
      · unfold IRForm.removeDefinedVar at hheap ⊢
        simp only [Function.update_self, hheap, Option.map_some]
        split <;> simp_all
    · simpa [hne] using h.heap d ins' hcode'
  coded := h.coded
  listed := h.listed

/-- A removable definition without uses that the loop has gone over is entered. -/
def Seen (code : Int → Option (IRForm V)) (edge : V → Int → Int → Prop) (K : Finset Int)
    (i : Int) : Prop :=
  ∀ ins v, code i = some ins → ins.lhs = some v → ins.Removable → (∀ u, ¬ edge v i u) → i ∈ K

theorem Seen.mono (hsub : K ⊆ K1) (h : Seen code edge K i) : Seen code edge K1 i :=
  fun ins v hcode hlhs hpure hnone => hsub (h ins v hcode hlhs hpure hnone)

theorem Seen.of_not_removable (hcode : code i = some ins) (h : ¬ ins.Removable) :
    Seen code edge K i := by
  intro ins' v hcode' _ hpure _
  obtain rfl := Option.some.inj (hcode.symm.trans hcode')
  exact absurd hpure h

/-- What the elimination keeps true between two calls. -/
structure Inv (blocks : α → List Int) (code : Int → Option (IRForm V)) (edge : V → Int → Int → Prop) (K : Finset Int)
    (st : Elim α V) : Prop where
  chained : Chained blocks code edge K st
  starved : Starved code edge K st

/-- What a call that works on the uses of `loc` leaves: the instructions entered
by it are finished, and those entered before are as they were. -/
structure Extends (blocks : α → List Int) (code : Int → Option (IRForm V)) (edge : V → Int → Int → Prop) (loc : Int)
    (K : Finset Int) (st : Elim α V) (K' : Finset Int) (st' : Elim α V) : Prop where
  sub : K ⊆ K'
  inv : Inv blocks code edge K' st'
  finished : ∀ u ∈ K', u ∉ K → st'.Finished u
  frame : ∀ u ∈ K, u ≠ loc → ∀ v, st'.ud.locs v u = st.ud.locs v u
  present : ∀ u ∈ K, u ∈ st'.locToIns ↔ u ∈ st.locToIns

theorem Extends.refl (h : Inv blocks code edge K st) : Extends blocks code edge loc K st K st where
  sub := Finset.Subset.refl K
  inv := h
  finished := fun _ hu hnot => absurd hu hnot
  frame := fun _ _ _ _ => rfl
  present := fun _ _ => Iff.rfl

theorem Extends.trans (h : Extends blocks code edge loc K st K1 st1)
    (h' : Extends blocks code edge loc K1 st1 K2 st2) (hloc : loc ∈ K) :
    Extends blocks code edge loc K st K2 st2 where
  sub := h.sub.trans h'.sub
  inv := h'.inv
  finished := by
    intro u hu hnot
    by_cases hu1 : u ∈ K1
    · have hne : u ≠ loc := fun heq => hnot (heq ▸ hloc)
      have hfin := h.finished u hu1 hnot
      refine ⟨fun hmem => hfin.1 ((h'.present u hu1).mp hmem), ?_⟩
      intro v
      rw [h'.frame u hu1 hne v]
      exact hfin.2 v
    · exact h'.finished u hu hu1
  frame := by
    intro u hu hne v
    rw [h'.frame u (h.sub hu) hne v, h.frame u hu hne v]
  present := fun u hu => (h'.present u (h.sub hu)).trans (h.present u hu)

variable [DecidableEq V]

/-- A state that has lost one edge, to an instruction that has been entered. -/
structure Unlinked (st st1 : Elim α V) (var : V) (loc d : Int) : Prop where
  ud : ∀ v w, st1.ud.locs v w =
    if v = var ∧ w = loc then (st.ud.locs var loc).erase d else st.ud.locs v w
  du : ∀ v w, st1.du.locs v w =
    if v = var ∧ w = d then (st.du.locs var d).erase loc else st.du.locs v w
  locToIns : st1.locToIns = st.locToIns

theorem Unlinked.mem_ud (h : Unlinked st st1 var loc d) (hch : Chained blocks code edge K st) {w e : Int} :
    e ∈ st1.ud.locs v w ↔ e ∈ st.ud.locs v w ∧ ¬ (v = var ∧ w = loc ∧ e = d) := by
  rw [h.ud]
  split
  next heq =>
    obtain ⟨rfl, rfl⟩ := heq
    rw [(hch.udNodup v w).mem_erase_iff]
    tauto
  next => tauto

theorem Unlinked.mem_du (h : Unlinked st st1 var loc d) (hch : Chained blocks code edge K st) {w u : Int} :
    u ∈ st1.du.locs v w ↔ u ∈ st.du.locs v w ∧ ¬ (v = var ∧ u = loc ∧ w = d) := by
  rw [h.du]
  split
  next heq =>
    obtain ⟨rfl, rfl⟩ := heq
    rw [(hch.duNodup v w).mem_erase_iff]
    tauto
  next => tauto

theorem Chained.unlink (h : Chained blocks code edge K st) (hst : Unlinked st st1 var loc d)
    (hheap : st1.heap = st.heap) (hins : st1.locIns = st.locIns) (hloc : loc ∈ K)
    (hempty : ∀ v w, 0 ≤ w → st1.du (v, w) ≠ some []) : Chained blocks code edge K st1 where
  mirrored := by
    intro v e u
    rw [hst.mem_ud h, hst.mem_du h, h.mirrored]
  udNodup := by
    intro v u
    rw [hst.ud]
    split
    · exact (h.udNodup _ _).erase _
    · exact h.udNodup v u
  duNodup := by
    intro v e
    rw [hst.du]
    split
    · exact (h.duNodup _ _).erase _
    · exact h.duNodup v e
  duNonempty := hempty
  sub := fun v e u he => h.sub v e u ((hst.mem_ud h).mp he).1
  kept := by
    intro v e u hedge hu
    apply (hst.mem_ud h).mpr
    refine ⟨h.kept v e u hedge hu, ?_⟩
    rintro ⟨-, rfl, -⟩
    exact hu hloc
  closed := by
    intro v e he
    rw [List.eq_nil_iff_forall_not_mem]
    intro u hu
    have hold := ((hst.mem_du h).mp hu).1
    rw [h.closed v e he] at hold
    cases hold
  dead := h.dead
  present := hst.locToIns ▸ h.present
  heap := hheap ▸ h.heap
  coded := hins ▸ h.coded
  listed := by
    intro node i hi hpresent
    rw [hins]
    exact h.listed node i hi (hst.locToIns ▸ hpresent)

/-- The state after one use of `loc` has been taken out of the chains. -/
def dropEdge (st : Elim α V) (var : V) (loc defLoc : Int) : Elim α V :=
  { st with
    du := st.du.dropLoc (var, defLoc) loc
    ud := (st.ud.dropLoc (var, loc) defLoc).eraseEmpty (var, loc) }

/-- The state after the last use of a definition has been taken out. -/
def dropLastEdge (st : Elim α V) (var : V) (loc defLoc : Int) : Elim α V :=
  { st.dropEdge var loc defLoc with
    du := (st.dropEdge var loc defLoc).du.eraseKey (var, defLoc) }

theorem locs_dropEdge_ud {w : Int} : (st.dropEdge var loc d).ud.locs v w =
    if v = var ∧ w = loc then (st.ud.locs var loc).erase d else st.ud.locs v w := by
  unfold dropEdge
  dsimp only
  rw [ChainMap.locs_eraseEmpty, ChainMap.locs_dropLoc]

theorem locs_dropEdge_du {w : Int} : (st.dropEdge var loc d).du.locs v w =
    if v = var ∧ w = d then (st.du.locs var d).erase loc else st.du.locs v w :=
  ChainMap.locs_dropLoc

theorem unlinked_dropEdge : Unlinked st (st.dropEdge var loc d) var loc d where
  ud := fun _ _ => locs_dropEdge_ud
  du := fun _ _ => locs_dropEdge_du
  locToIns := rfl

theorem unlinked_dropLastEdge (hempty : (st.dropEdge var loc d).du.locs var d = []) :
    Unlinked st (st.dropLastEdge var loc d) var loc d where
  ud := fun _ _ => locs_dropEdge_ud
  du := fun _ _ => (ChainMap.locs_eraseKey hempty).trans locs_dropEdge_du
  locToIns := rfl

theorem dropEdge_du_ne (h : Chained blocks code edge K st) {w : Int} (hw : 0 ≤ w)
    (hne : (v, w) ≠ (var, d)) : (st.dropEdge var loc d).du (v, w) ≠ some [] := by
  unfold dropEdge ChainMap.dropLoc
  dsimp only
  rw [Function.update_of_ne hne]
  exact h.duNonempty v w hw

/-- A state that has lost an edge is not short of entered definitions unless the
definition has lost its last use. -/
theorem Inv.unlink (h : Inv blocks code edge K st) (hst : Unlinked st st1 var loc d)
    (hch : Chained blocks code edge K1 st1) (hsub : K ⊆ K1)
    (hlast : ∀ ins, code d = some ins → ins.lhs = some var → ins.Removable →
      st1.du.locs var d = [] → d ∈ K1) : Inv blocks code edge K1 st1 where
  chained := hch
  starved := by
    intro v e u ins hcode hlhs hpure hedge hempty
    by_cases heq : v = var ∧ e = d
    · obtain ⟨rfl, rfl⟩ := heq
      exact hlast ins hcode hlhs hpure hempty
    · rw [hst.du, if_neg heq] at hempty
      exact hsub (h.starved v e u ins hcode hlhs hpure hedge hempty)

/-- A state that has lost an edge and nothing else. -/
theorem Extends.unlink (hst : Unlinked st st1 var loc d)
    (hinv : Inv blocks code edge K st1) : Extends blocks code edge loc K st K st1 where
  sub := Finset.Subset.refl K
  inv := hinv
  finished := fun _ hu hnot => absurd hu hnot
  frame := by
    intro u _ hne v
    rw [hst.ud, if_neg fun heq => hne heq.2]
  present := by
    intro u _
    rw [hst.locToIns]

variable [DecidableEq α]

/-- What entering an instruction does, the recursion being deep enough for the
instructions that have not been entered. -/
def Enters (blocks : α → List Int) (code : Int → Option (IRForm V)) (edge : V → Int → Int → Prop) (all : Finset Int)
    (fuel : Nat) (enter : Int → Elim α V → Option (Elim α V)) : Prop :=
  ∀ K st loc, Inv blocks code edge K st → loc ∈ K → (all \ K).card < fuel →
    ∃ K' st', enter loc st = some st' ∧ Extends blocks code edge loc K st K' st' ∧
      (loc ∈ st.locToIns → ∀ v, st'.ud.locs v loc = [])

variable {all : Finset Int} {fuel : Nat} {enter : Int → Elim α V → Option (Elim α V)}

/-- The uses of a definition that has lost its last use are given up, and it is
removed. -/
theorem exists_enter (hok : ChainsOk code edge) (hall : ∀ d ins, code d = some ins → d ∈ all)
    (henter : Enters blocks code edge all fuel enter) (h : Inv blocks code edge K st) (hloc : loc ∈ K)
    (hfuel : (all \ K).card ≤ fuel) (hst : Unlinked st st1 var loc d)
    (hch : Chained blocks code edge K st1) (hd : d ∉ K) (hcode : code d = some ins)
    (hlhs : ins.lhs = some var) (hpure : ins.Removable) (hempty : st1.du.locs var d = []) :
    ∃ K' st', (enter d st1).map (fun st => st.removeIns d) = some st' ∧
      Extends blocks code edge loc K st K' st' ∧ st'.ud.locs = fun v w =>
        if w = loc then st1.ud.locs v w else st'.ud.locs v w := by
  have hinv : Inv blocks code edge (insert d K) st1 :=
    h.unlink hst (hch.enter hok hcode hlhs hpure hempty) (Finset.subset_insert d K)
      fun _ _ _ _ _ => Finset.mem_insert_self d K
  have hless : (all \ insert d K).card < fuel := by
    apply lt_of_lt_of_le _ hfuel
    apply Finset.card_lt_card
    refine ⟨Finset.sdiff_subset_sdiff (Finset.Subset.refl all) (Finset.subset_insert d K), ?_⟩
    intro hback
    have hmem := hback (Finset.mem_sdiff.mpr ⟨hall d ins hcode, hd⟩)
    exact (Finset.mem_sdiff.mp hmem).2 (Finset.mem_insert_self d K)
  obtain ⟨K2, st2, hrun, hext, hdone⟩ := henter _ _ d hinv (Finset.mem_insert_self d K) hless
  have hd2 : d ∈ K2 := hext.sub (Finset.mem_insert_self d K)
  have hne {u : Int} (hu : u ∈ K) : u ≠ d := fun heq => hd (heq ▸ hu)
  have hpresent : d ∈ st1.locToIns := hch.present d hd (by rw [hcode]; rfl)
  refine ⟨K2, st2.removeIns d, by rw [hrun]; rfl, ⟨?_, ?_, ?_, ?_, ?_⟩, ?_⟩
  · exact (Finset.subset_insert d K).trans hext.sub
  · exact ⟨hext.inv.chained.removeIns hd2, hext.inv.starved⟩
  · intro u hu hnot
    by_cases heq : u = d
    · subst heq
      exact ⟨fun hmem => by simpa using (List.mem_filter.mp hmem).2, hdone hpresent⟩
    · have hfin := hext.finished u hu fun hmem =>
        (Finset.mem_insert.mp hmem).elim heq hnot
      exact ⟨fun hmem => hfin.1 (List.mem_filter.mp hmem).1, hfin.2⟩
  · intro u hu hul v
    calc (st2.removeIns d).ud.locs v u
        = st1.ud.locs v u := hext.frame u (Finset.mem_insert_of_mem hu) (hne hu) v
      _ = st.ud.locs v u := by rw [hst.ud, if_neg fun heq => hul heq.2]
  · intro u hu
    rw [← hst.locToIns, ← hext.present u (Finset.mem_insert_of_mem hu)]
    exact ⟨fun hmem => (List.mem_filter.mp hmem).1,
      fun hmem => List.mem_filter.mpr ⟨hmem, by simpa using hne hu⟩⟩
  · funext v w
    split
    next heq =>
      subst heq
      exact hext.frame w (Finset.mem_insert_of_mem hloc) (hne hloc) v
    next => rfl

theorem dropUse_eq : st.dropUse enter var loc d =
    if 0 ≤ d ∧ (st.dropEdge var loc d).du.locs var d = [] then
      match (st.dropLastEdge var loc d).getInsFromLoc d with
      | none => some (st.dropLastEdge var loc d)
      | some defIns =>
        if defIns.isCall then some ((st.dropLastEdge var loc d).removeDefinedVar d)
        else if defIns.hasSideEffect then some (st.dropLastEdge var loc d)
        else (enter d (st.dropLastEdge var loc d)).map fun st => st.removeIns d
    else some (st.dropEdge var loc d) := rfl

theorem exists_dropUse (hok : ChainsOk code edge) (hall : ∀ d ins, code d = some ins → d ∈ all)
    (henter : Enters blocks code edge all fuel enter) (h : Inv blocks code edge K st) (hloc : loc ∈ K)
    (hfuel : (all \ K).card ≤ fuel) (hd : d ∈ st.ud.locs var loc) :
    ∃ K' st', st.dropUse enter var loc d = some st' ∧ Extends blocks code edge loc K st K' st' ∧
      ∀ v e, e ∈ st'.ud.locs v loc ↔ e ∈ st.ud.locs v loc ∧ ¬ (v = var ∧ e = d) := by
  have hmem {st1 : Elim α V} (hst : Unlinked st st1 var loc d) (v : V) (e : Int) :
      e ∈ st1.ud.locs v loc ↔ e ∈ st.ud.locs v loc ∧ ¬ (v = var ∧ e = d) := by
    rw [hst.mem_ud h.chained]
    simp
  rw [dropUse_eq]
  by_cases hlast : 0 ≤ d ∧ (st.dropEdge var loc d).du.locs var d = []
  · rw [if_pos hlast]
    have hst := unlinked_dropLastEdge hlast.2
    have hch : Chained blocks code edge K (st.dropLastEdge var loc d) := by
      apply h.chained.unlink hst rfl rfl hloc
      intro v w hw
      unfold dropLastEdge ChainMap.eraseKey
      dsimp only
      by_cases heq : (v, w) = (var, d)
      · rw [heq, Function.update_self]
        simp
      · rw [Function.update_of_ne heq]
        exact dropEdge_du_ne h.chained hw heq
    generalize st.dropLastEdge var loc d = st1 at hst hch
    have hdK : d ∉ K := by
      intro hK
      have huse := (h.chained.mirrored var d loc).mp hd
      rw [h.chained.closed var d hK] at huse
      cases huse
    obtain ⟨ins, hcode, hlhs⟩ :=
      hok.defined var d loc (h.chained.sub var d loc hd) hlast.1
    have hpresent : d ∈ st1.locToIns := hch.present d hdK (by rw [hcode]; rfl)
    have hget : st1.getInsFromLoc d = st1.heap d := if_pos hpresent
    have hempty : st1.du.locs var d = [] := by
      rw [hst.du, if_pos ⟨rfl, rfl⟩, ← locs_dropEdge_du.trans (if_pos ⟨rfl, rfl⟩)]
      exact hlast.2
    rw [hget]
    by_cases hpure : ins.Removable
    · rw [heap_removable hch hcode hpure]
      simp only [hpure.1, hpure.2, Bool.false_eq_true, ↓reduceIte]
      obtain ⟨K', st', hrun, hext, hud⟩ :=
        exists_enter hok hall henter h hloc hfuel hst hch hdK hcode hlhs hpure hempty
      refine ⟨K', st', hrun, hext, ?_⟩
      intro v e
      rw [hud]
      dsimp only
      rw [if_pos rfl]
      exact hmem hst v e
    · have hkeep {st2 : Elim α V} (hst2 : Unlinked st st2 var loc d)
          (hch2 : Chained blocks code edge K st2) : Extends blocks code edge loc K st K st2 := by
        apply Extends.unlink hst2
        apply h.unlink hst2 hch2 (Finset.Subset.refl K)
        intro ins' hcode' _ hpure'
        obtain rfl := Option.some.inj (hcode.symm.trans hcode')
        exact absurd hpure' hpure
      by_cases hcall : ins.isCall = true
      · have hsame : ∃ ins', st1.heap d = some ins' ∧ ins'.isCall = true := by
          rcases hch.heap d ins hcode with hheap | ⟨_, hheap⟩
          · exact ⟨ins, hheap, hcall⟩
          · exact ⟨_, hheap, IRForm.isCall_removeDefinedVar.trans hcall⟩
        obtain ⟨ins', hheap, hcall'⟩ := hsame
        rw [hheap]
        simp only [hcall', ↓reduceIte]
        have hst2 : Unlinked st (st1.removeDefinedVar d) var loc d :=
          ⟨hst.ud, hst.du, hst.locToIns⟩
        exact ⟨K, _, rfl, hkeep hst2 (hch.removeDefinedVar hcode hcall), hmem hst2⟩
      · have hheap : st1.heap d = some ins := by
          rcases hch.heap d ins hcode with hheap | ⟨hcall', _⟩
          · exact hheap
          · exact absurd hcall' hcall
        have hside : ins.hasSideEffect = true := by
          by_contra hside
          exact hpure ⟨by simpa using hcall, by simpa using hside⟩
        rw [hheap]
        simp only [hcall, hside, Bool.false_eq_true, ↓reduceIte]
        exact ⟨K, st1, rfl, hkeep hst hch, hmem hst⟩
  · rw [if_neg hlast]
    have hst : Unlinked st (st.dropEdge var loc d) var loc d := unlinked_dropEdge
    have hch : Chained blocks code edge K (st.dropEdge var loc d) := by
      apply h.chained.unlink hst rfl rfl hloc
      intro v w hw
      by_cases heq : (v, w) = (var, d)
      · obtain ⟨rfl, rfl⟩ := Prod.mk.inj heq
        intro hsome
        apply hlast
        refine ⟨hw, ?_⟩
        unfold ChainMap.locs
        rw [hsome]
        rfl
      · exact dropEdge_du_ne h.chained hw heq
    have hinv : Inv blocks code edge K (st.dropEdge var loc d) := by
      apply h.unlink hst hch (Finset.Subset.refl K)
      intro ins hcode _ _ hempty
      exact absurd ⟨hok.located d ins hcode, hempty⟩ hlast
    exact ⟨K, _, rfl, Extends.unlink hst hinv, hmem hst⟩

theorem exists_dropUses (hok : ChainsOk code edge) (hall : ∀ d ins, code d = some ins → d ∈ all)
    (henter : Enters blocks code edge all fuel enter) {ds : List Int} (hnodup : ds.Nodup)
    (h : Inv blocks code edge K st) (hloc : loc ∈ K) (hfuel : (all \ K).card ≤ fuel)
    (hds : ∀ e ∈ ds, e ∈ st.ud.locs var loc) :
    ∃ K' st', ds.foldlM (fun st defLoc => st.dropUse enter var loc defLoc) st = some st' ∧
      Extends blocks code edge loc K st K' st' ∧
      ∀ v e, e ∈ st'.ud.locs v loc ↔ e ∈ st.ud.locs v loc ∧ ¬ (v = var ∧ e ∈ ds) := by
  induction ds generalizing K st with
  | nil => exact ⟨K, st, rfl, Extends.refl h, by simp⟩
  | cons d ds ih =>
    obtain ⟨hd, hnodup⟩ := List.nodup_cons.mp hnodup
    obtain ⟨K1, st1, hrun1, hext1, hmem1⟩ :=
      exists_dropUse hok hall henter h hloc hfuel (hds d List.mem_cons_self)
    have hfuel1 : (all \ K1).card ≤ fuel := (GenKill.Problem.card_sdiff_le hext1.sub).trans hfuel
    have hds1 : ∀ e ∈ ds, e ∈ st1.ud.locs var loc := by
      intro e he
      apply (hmem1 var e).mpr
      refine ⟨hds e (List.mem_cons_of_mem d he), ?_⟩
      rintro ⟨-, rfl⟩
      exact hd he
    obtain ⟨K2, st2, hrun2, hext2, hmem2⟩ :=
      ih hnodup hext1.inv (hext1.sub hloc) hfuel1 hds1
    refine ⟨K2, st2, ?_, hext1.trans hext2 hloc, ?_⟩
    · rw [List.foldlM_cons, hrun1]
      exact hrun2
    · intro v e
      rw [hmem2, hmem1, List.mem_cons]
      tauto

theorem exists_dropVars (hok : ChainsOk code edge) (hall : ∀ d ins, code d = some ins → d ∈ all)
    (henter : Enters blocks code edge all fuel enter) (vars : List V)
    (h : Inv blocks code edge K st) (hloc : loc ∈ K) (hfuel : (all \ K).card ≤ fuel) :
    ∃ K' st', vars.foldlM (fun st var =>
        (uniq (st.ud.locs var loc)).foldlM (fun st defLoc =>
          st.dropUse enter var loc defLoc) st) st = some st' ∧
      Extends blocks code edge loc K st K' st' ∧
      ∀ v e, e ∈ st'.ud.locs v loc ↔ e ∈ st.ud.locs v loc ∧ v ∉ vars := by
  induction vars generalizing K st with
  | nil => exact ⟨K, st, rfl, Extends.refl h, by simp⟩
  | cons var vars ih =>
    have hds : ∀ e ∈ uniq (st.ud.locs var loc), e ∈ st.ud.locs var loc :=
      fun e he => mem_uniq.mp he
    obtain ⟨K1, st1, hrun1, hext1, hmem1⟩ :=
      exists_dropUses hok hall henter nodup_uniq h hloc hfuel hds
    have hfuel1 : (all \ K1).card ≤ fuel := (GenKill.Problem.card_sdiff_le hext1.sub).trans hfuel
    obtain ⟨K2, st2, hrun2, hext2, hmem2⟩ := ih hext1.inv (hext1.sub hloc) hfuel1
    refine ⟨K2, st2, ?_, hext1.trans hext2 hloc, ?_⟩
    · rw [List.foldlM_cons, hrun1]
      exact hrun2
    · intro v e
      rw [hmem2, hmem1, mem_uniq, List.mem_cons]
      constructor
      · rintro ⟨⟨he, hnot⟩, hv⟩
        refine ⟨he, ?_⟩
        rintro (rfl | hmem)
        · exact hnot ⟨rfl, he⟩
        · exact hv hmem
      · rintro ⟨he, hnot⟩
        exact ⟨⟨he, fun hv => hnot (Or.inl hv.1)⟩, fun hv => hnot (Or.inr hv)⟩

/-- `UpdateChain` takes every use of the instruction out of the chains, and
enters and removes what has lost its uses by it. -/
theorem enters_updateChain (hok : ChainsOk code edge)
    (hall : ∀ d ins, code d = some ins → d ∈ all) :
    Enters blocks code edge all fuel (updateChain (α := α) (V := V) fuel) := by
  induction fuel with
  | zero =>
    intro K st loc _ _ hfuel
    exact absurd hfuel (Nat.not_lt_zero _)
  | succ fuel ih =>
    intro K st loc h hloc hfuel
    obtain ⟨ins, hcode, hpure⟩ := (h.chained.dead loc hloc).removable
    have hheap := heap_removable h.chained hcode hpure
    unfold updateChain getInsFromLoc
    by_cases hpresent : loc ∈ st.locToIns
    · rw [if_pos hpresent, hheap]
      obtain ⟨K', st', hrun, hext, hmem⟩ :=
        exists_dropVars hok hall ih ins.usedVars h hloc (Nat.lt_succ_iff.mp hfuel)
      refine ⟨K', st', hrun, hext, ?_⟩
      intro _ v
      rw [List.eq_nil_iff_forall_not_mem]
      intro e he
      obtain ⟨hold, hunused⟩ := (hmem v e).mp he
      obtain ⟨ins', hcode', hused⟩ := hok.used v e loc (h.chained.sub v e loc hold)
      obtain rfl := Option.some.inj (hcode.symm.trans hcode')
      exact hunused hused
    · rw [if_neg hpresent]
      exact ⟨K, st, rfl, Extends.refl h, fun hmem => absurd hmem hpresent⟩

/-- Between two instructions of the loop everything entered is finished. -/
structure Settled (blocks : α → List Int) (code : Int → Option (IRForm V)) (edge : V → Int → Int → Prop) (K : Finset Int)
    (st : Elim α V) : Prop where
  inv : Inv blocks code edge K st
  finished : ∀ u ∈ K, st.Finished u

/-- The case of `visit` that removes. -/
theorem exists_remove (hok : ChainsOk code edge) (hall : ∀ d ins, code d = some ins → d ∈ all)
    (hfuel : all.card < fuel) (h : Settled blocks code edge K st) (hcode : code i = some ins)
    (hlhs : ins.lhs = some var) (hpure : ins.Removable) (hnone : st.du (var, i) = none) :
    ∃ K' st', (updateChain fuel i st).map (fun st => st.removeIns i) = some st' ∧ K ⊆ K' ∧
      Settled blocks code edge K' st' ∧ i ∈ K' := by
  by_cases hi : i ∈ K
  · have hrun : updateChain fuel i st = some st := by
      obtain ⟨fuel, rfl⟩ := Nat.exists_eq_add_of_lt hfuel
      have hgone : st.getInsFromLoc i = none := if_neg (h.finished i hi).1
      rw [updateChain, hgone]
    refine ⟨K, st.removeIns i, by rw [hrun]; rfl, Finset.Subset.refl K, ⟨⟨?_, ?_⟩, ?_⟩, hi⟩
    · exact h.inv.chained.removeIns hi
    · exact h.inv.starved
    · intro u hu
      exact ⟨fun hmem => (h.finished u hu).1 (List.mem_filter.mp hmem).1, (h.finished u hu).2⟩
  · have hempty : st.du.locs var i = [] := by
      unfold ChainMap.locs
      rw [hnone]
      rfl
    have hinv : Inv blocks code edge (insert i K) st := by
      refine ⟨h.inv.chained.enter hok hcode hlhs hpure hempty, ?_⟩
      intro v d u ins' hcode' hlhs' hpure' hedge hempty'
      exact Finset.mem_insert_of_mem (h.inv.starved v d u ins' hcode' hlhs' hpure' hedge hempty')
    have hless : (all \ insert i K).card < fuel :=
      lt_of_le_of_lt (Finset.card_le_card Finset.sdiff_subset) hfuel
    obtain ⟨K', st', hrun, hext, hdone⟩ :=
      enters_updateChain hok hall _ _ i hinv (Finset.mem_insert_self i K) hless
    have hi' : i ∈ K' := hext.sub (Finset.mem_insert_self i K)
    refine ⟨K', st'.removeIns i, by rw [hrun]; rfl,
      (Finset.subset_insert i K).trans hext.sub, ⟨⟨?_, ?_⟩, ?_⟩, hi'⟩
    · exact hext.inv.chained.removeIns hi'
    · exact hext.inv.starved
    · intro u hu
      by_cases heq : u = i
      · subst heq
        refine ⟨fun hmem => by simpa using (List.mem_filter.mp hmem).2, hdone ?_⟩
        exact h.inv.chained.present u hi (by rw [hcode]; rfl)
      · have hfin : st'.Finished u := by
          by_cases huK : u ∈ K
          · have hu' : u ∈ insert i K := Finset.mem_insert_of_mem huK
            refine ⟨fun hmem => (h.finished u huK).1 ((hext.present u hu').mp hmem), ?_⟩
            intro v
            rw [hext.frame u hu' heq v]
            exact (h.finished u huK).2 v
          · apply hext.finished u hu
            intro hmem
            exact (Finset.mem_insert.mp hmem).elim heq huK
        exact ⟨fun hmem => hfin.1 (List.mem_filter.mp hmem).1, hfin.2⟩

theorem visit_some (hheap : st.heap i = some ins) : st.visit fuel i =
    match ins.lhs with
    | none => some st
    | some reg =>
      if (st.du (reg, i)).isSome then some st
      else if ins.isCall then some (st.removeDefinedVar i)
      else if ins.hasSideEffect then some st
      else (updateChain fuel i st).map fun st => st.removeIns i := by
  cases hlhs : ins.lhs with
  | none => simp [visit, hheap, hlhs]
  | some reg => simp [visit, hheap, hlhs]

theorem exists_visit (hok : ChainsOk code edge) (hall : ∀ d ins, code d = some ins → d ∈ all)
    (hfuel : all.card < fuel) (h : Settled blocks code edge K st) (hcode : code i = some ins) :
    ∃ K' st', st.visit fuel i = some st' ∧ K ⊆ K' ∧ Settled blocks code edge K' st' ∧
      Seen code edge K' i := by
  have hstay (hseen : Seen code edge K i) : ∃ K' st', some st = some st' ∧ K ⊆ K' ∧
      Settled blocks code edge K' st' ∧ Seen code edge K' i :=
    ⟨K, st, rfl, Finset.Subset.refl K, h, hseen⟩
  by_cases hpure : ins.Removable
  · rw [visit_some (heap_removable h.inv.chained hcode hpure)]
    cases hlhs : ins.lhs with
    | none =>
      apply hstay
      intro ins' v hcode' hlhs' _ _
      obtain rfl := Option.some.inj (hcode.symm.trans hcode')
      rw [hlhs] at hlhs'
      cases hlhs'
    | some var =>
      simp only [hpure.1, hpure.2, Bool.false_eq_true, ↓reduceIte]
      cases hdu : st.du (var, i) with
      | some uses =>
        apply hstay
        intro ins' v hcode' hlhs' _ hnone
        obtain rfl := Option.some.inj (hcode.symm.trans hcode')
        obtain rfl := Option.some.inj (hlhs.symm.trans hlhs')
        cases uses with
        | nil => exact absurd hdu (h.inv.chained.duNonempty var i (hok.located i ins hcode))
        | cons u uses =>
          have hu : u ∈ st.du.locs var i := by
            unfold ChainMap.locs
            rw [hdu]
            exact List.mem_cons_self
          exact absurd (h.inv.chained.sub var i u ((h.inv.chained.mirrored var i u).mpr hu))
            (hnone u)
      | none =>
        obtain ⟨K', st', hrun, hsub, hsettled, hi⟩ :=
          exists_remove hok hall hfuel h hcode hlhs hpure hdu
        exact ⟨K', st', hrun, hsub, hsettled, fun _ _ _ _ _ _ => hi⟩
  · have hseen : Seen code edge K i := Seen.of_not_removable hcode hpure
    by_cases hcall : ins.isCall = true
    · obtain ⟨ins', hheap, hcall'⟩ : ∃ ins', st.heap i = some ins' ∧ ins'.isCall = true := by
        rcases h.inv.chained.heap i ins hcode with hheap | ⟨_, hheap⟩
        · exact ⟨ins, hheap, hcall⟩
        · exact ⟨_, hheap, IRForm.isCall_removeDefinedVar.trans hcall⟩
      rw [visit_some hheap]
      cases ins'.lhs with
      | none => exact hstay hseen
      | some reg =>
        simp only [hcall', ↓reduceIte]
        split
        · exact hstay hseen
        · exact ⟨K, _, rfl, Finset.Subset.refl K, ⟨⟨h.inv.chained.removeDefinedVar hcode hcall,
            h.inv.starved⟩, h.finished⟩, hseen⟩
    · have hheap : st.heap i = some ins := by
        rcases h.inv.chained.heap i ins hcode with hheap | ⟨hcall', _⟩
        · exact hheap
        · exact absurd hcall' hcall
      have hside : ins.hasSideEffect = true := by
        by_contra hside
        exact hpure ⟨by simpa using hcall, by simpa using hside⟩
      rw [visit_some hheap]
      cases ins.lhs with
      | none => exact hstay hseen
      | some reg =>
        simp only [hcall, hside, Bool.false_eq_true, ↓reduceIte]
        split <;> exact hstay hseen

theorem exists_visits (hok : ChainsOk code edge) (hall : ∀ d ins, code d = some ins → d ∈ all)
    (hfuel : all.card < fuel) {is : List Int} (his : ∀ i ∈ is, (code i).isSome)
    (h : Settled blocks code edge K st) :
    ∃ K' st', is.foldlM (visit fuel) st = some st' ∧ K ⊆ K' ∧ Settled blocks code edge K' st' ∧
      ∀ i ∈ is, Seen code edge K' i := by
  induction is generalizing K st with
  | nil => exact ⟨K, st, rfl, Finset.Subset.refl K, h, by simp⟩
  | cons i is ih =>
    obtain ⟨ins, hcode⟩ := Option.isSome_iff_exists.mp (his i List.mem_cons_self)
    obtain ⟨K1, st1, hrun1, hsub1, hsettled1, hseen1⟩ := exists_visit hok hall hfuel h hcode
    obtain ⟨K2, st2, hrun2, hsub2, hsettled2, hseen2⟩ :=
      ih (fun j hj => his j (List.mem_cons_of_mem i hj)) hsettled1
    refine ⟨K2, st2, ?_, hsub1.trans hsub2, hsettled2, ?_⟩
    · rw [List.foldlM_cons, hrun1]
      exact hrun2
    · intro j hj
      rcases List.mem_cons.mp hj with rfl | hj
      · exact hseen1.mono hsub2
      · exact hseen2 j hj

/-- The loop over the nodes. What a node no longer lists when the loop comes to it
has been removed. -/
theorem exists_eliminate (hok : ChainsOk code edge)
    (hall : ∀ d ins, code d = some ins → d ∈ all) (hfuel : all.card < fuel) (nodes : List α)
    (hblocks : ∀ node, ∀ i ∈ blocks node, (code i).isSome)
    (h : Settled blocks code edge K st) :
    ∃ K' st', nodes.foldlM (fun st node => (st.locIns node).foldlM (visit fuel) st) st = some st' ∧
      K ⊆ K' ∧ Settled blocks code edge K' st' ∧
      ∀ node ∈ nodes, ∀ i ∈ blocks node, Seen code edge K' i := by
  induction nodes generalizing K st with
  | nil => exact ⟨K, st, rfl, Finset.Subset.refl K, h, by simp⟩
  | cons node nodes ih =>
    obtain ⟨K1, st1, hrun1, hsub1, hsettled1, hseen1⟩ :=
      exists_visits hok hall hfuel (h.inv.chained.coded node) h
    obtain ⟨K2, st2, hrun2, hsub2, hsettled2, hseen2⟩ := ih hsettled1
    refine ⟨K2, st2, ?_, hsub1.trans hsub2, hsettled2, ?_⟩
    · rw [List.foldlM_cons, hrun1]
      exact hrun2
    · intro v hv i hi
      rcases List.mem_cons.mp hv with rfl | hv
      · by_cases hK : i ∈ K
        · exact fun _ _ _ _ _ _ => hsub2 (hsub1 hK)
        · have hpresent := h.inv.chained.present i hK (hblocks v i hi)
          exact (hseen1 i (h.inv.chained.listed v i hi hpresent)).mono hsub2
      · exact hseen2 v hv i hi

omit [DecidableEq α] [DecidableEq V] in
/-- What has been gone over completely has lost exactly its dead definitions. -/
theorem Settled.removed_iff (h : Settled blocks code edge K st)
    (hseen : ∀ i, (code i).isSome → Seen code edge K i) (hcode : code d = some ins) :
    d ∉ st.locToIns ↔ Dead code edge d := by
  have hK : Dead code edge d → d ∈ K := by
    intro hdead
    clear hcode
    induction hdead with
    | @intro d ins var hins hlhs hpure huses ih =>
      by_cases hedge : ∃ u, edge var d u
      · obtain ⟨u, hu⟩ := hedge
        apply h.inv.starved var d u ins hins hlhs hpure hu
        rw [List.eq_nil_iff_forall_not_mem]
        intro w hw
        have hmem := (h.inv.chained.mirrored var d w).mpr hw
        have hfin := (h.finished w (ih w (h.inv.chained.sub var d w hmem))).2 var
        rw [hfin] at hmem
        cases hmem
      · apply hseen d (by rw [hins]; rfl) ins var hins hlhs hpure
        exact fun u hu => hedge ⟨u, hu⟩
  constructor
  · intro hgone
    by_contra hdead
    apply hgone
    apply h.inv.chained.present d _ (by rw [hcode]; rfl)
    exact fun hmem => hdead (h.inv.chained.dead d hmem)
  · exact fun hdead => (h.finished d (hK hdead)).1

end Elim

end Dexllm.Dad
