import Dexllm.Dad.ReachDefSpecs

/-!
The chains of `BuildDefUse` are exact: a use is linked to a definition when a
path of the block graph, on which exceptions leave blocks at their ends, leads
from the definition to the use and overwrites the variable nowhere.
-/

namespace Dexllm.Dad

variable {α V : Type} [DecidableEq α] [DecidableEq V]

namespace MethodCode

variable {m : MethodCode α V} {dummyEntry dummyExit : α} {params : List V} {var reg : V}
  {d u : Int} {v w : α} {j k : Nat}

section Distinct

omit [DecidableEq V] in
theorem pairwise_zipIdx {β : Type} {l : List β} :
    l.zipIdx.Pairwise fun a b => a.2 ≠ b.2 := by
  apply List.pairwise_map.mp
  rw [List.zipIdx_map_snd]
  exact List.nodup_range'

omit [DecidableEq V] in
theorem pairwise_getLocWithIns : (m.getLocWithIns v).Pairwise fun a b => a.1 ≠ b.1 := by
  unfold getLocWithIns
  split
  · exact List.Pairwise.nil
  · apply List.pairwise_map.mpr
    apply pairwise_zipIdx.imp
    intro a b hne heq
    dsimp only at heq
    omega

theorem nodup_defsIn : (defsIn reg (m.getLocWithIns v)).Nodup := by
  unfold defsIn List.Nodup
  rw [List.pairwise_filterMap]
  apply pairwise_getLocWithIns.imp
  intro a b hne x hx y hy
  dsimp only at hx hy
  split at hx <;> split at hy <;> simp_all

theorem nodup_paramDefs : (paramDefs reg params).Nodup := by
  unfold paramDefs
  rw [List.nodup_reverse]
  unfold List.Nodup
  rw [List.pairwise_filterMap]
  apply pairwise_zipIdx.imp
  intro a b hne x hx y hy
  dsimp only at hx hy
  split at hx <;> split at hy <;> simp_all
  omega

theorem nodup_defToLoc (hm : m.Ready dummyEntry dummyExit) :
    ((m.reachDef dummyEntry dummyExit params).defToLoc reg).Nodup := by
  have hnodup : m.graph.rpo.Nodup := hm.rpo.nodup_iff.mpr hm.wellFormed.nodup
  have hrpo : (m.reachDefGraph dummyEntry dummyExit).rpo.Nodup := by
    unfold reachDefGraph Graph.addEdge Graph.addNode
    dsimp only
    cases m.graph.exit <;> cases m.graph.entry <;>
      simp [hnodup, List.nodup_append]
    all_goals
      rintro a ha rfl
      exact hm.exit_not_mem ha
  unfold BasicReachDef.defToLoc reachDef
  dsimp only
  apply List.nodup_append.mpr
  refine ⟨nodup_paramDefs, List.nodup_flatMap.mpr ⟨fun _ _ => nodup_defsIn, ?_⟩, ?_⟩
  · apply List.Pairwise.imp_of_mem _ hrpo
    intro v w hv hw hne d hd hd'
    dsimp only at hd hd'
    rcases mem_rpo_reachDefGraph.mp hv with hv | ⟨rfl, _⟩
    · rcases mem_rpo_reachDefGraph.mp hw with hw | ⟨rfl, _⟩
      · obtain ⟨k, ins, hins, _, rfl⟩ := (mem_defsIn hv).mp hd
        obtain ⟨j, ins', hins', _, heq⟩ := (mem_defsIn hw).mp hd'
        exact hne (firstLoc_inj hv hw (lt_of_getElem? hins) (lt_of_getElem? hins') heq).1
      · rw [getLocWithIns_of_not_mem hm.exit_not_mem] at hd'
        cases hd'
    · rw [getLocWithIns_of_not_mem hm.exit_not_mem] at hd
      cases hd
  · rintro d hd d' hd' rfl
    obtain ⟨i, _, rfl⟩ := mem_paramDefs.mp hd
    obtain ⟨v, hv, hmem⟩ := List.mem_flatMap.mp hd'
    rcases mem_rpo_reachDefGraph.mp hv with hv | ⟨rfl, _⟩
    · obtain ⟨k, ins, _, _, heq⟩ := (mem_defsIn hv).mp hmem
      have := firstLoc_nonneg hv
      omega
    · rw [getLocWithIns_of_not_mem hm.exit_not_mem] at hmem
      cases hmem

theorem nodup_useDefs (hm : m.Ready dummyEntry dummyExit) {R : α → Finset Int} {i : Int}
    {locs : List Int}
    (h : (m.reachDef dummyEntry dummyExit params).useDefs R v i var = some locs) :
    locs.Nodup := by
  unfold BasicReachDef.useDefs at h
  split at h
  · cases h
  · dsimp only at h
    split at h
    · obtain rfl := Option.some.inj h
      exact List.nodup_singleton _
    · obtain rfl := Option.some.inj h
      exact (nodup_defToLoc hm).filter _

end Distinct

section Rows

variable {R : α → Finset Int} {row : (V × Int) × List Int}

theorem mem_udRows : row ∈ (m.reachDef dummyEntry dummyExit params).udRows R m.graph.rpo ↔
    ∃ w ∈ m.graph.rpo, ∃ (j : Nat) (use : IRForm V), (m.ins w)[j]? = some use ∧
      row.1.1 ∈ use.usedVars ∧ row.1.2 = m.firstLoc w + j ∧
      (m.reachDef dummyEntry dummyExit params).useDefs R w row.1.2 row.1.1 = some row.2 := by
  unfold BasicReachDef.udRows
  rw [List.mem_flatMap]
  constructor
  · rintro ⟨w, hw, hmem⟩
    obtain ⟨⟨i, use⟩, hins, hmem⟩ := List.mem_flatMap.mp hmem
    obtain ⟨var, hvar, hrow⟩ := List.mem_filterMap.mp hmem
    obtain ⟨locs, hlocs, rfl⟩ := Option.map_eq_some_iff.mp hrow
    obtain ⟨j, huse, hloc⟩ := (mem_getLocWithIns hw).mp hins
    exact ⟨w, hw, j, use, huse, hvar, hloc, hlocs⟩
  · rintro ⟨w, hw, j, use, huse, hvar, hloc, hlocs⟩
    refine ⟨w, hw, List.mem_flatMap.mpr ⟨(row.1.2, use), (mem_getLocWithIns hw).mpr
      ⟨j, huse, hloc⟩, List.mem_filterMap.mpr ⟨row.1.1, hvar, ?_⟩⟩⟩
    exact Option.map_eq_some_iff.mpr ⟨row.2, hlocs, rfl⟩

/-- Each use has one entry. -/
theorem nodup_udRows (hm : m.Ready dummyEntry dummyExit) :
    (((m.reachDef dummyEntry dummyExit params).udRows R m.graph.rpo).map Prod.fst).Nodup := by
  have hnodup : m.graph.rpo.Nodup := hm.rpo.nodup_iff.mpr hm.wellFormed.nodup
  unfold BasicReachDef.udRows
  apply List.pairwise_map.mpr
  apply List.pairwise_flatMap.mpr
  constructor
  · intro w hw
    apply List.pairwise_flatMap.mpr
    constructor
    · rintro ⟨i, use⟩ _
      rw [List.pairwise_filterMap]
      apply use.distinct.imp
      intro var reg hne x hx y hy heq
      obtain ⟨_, _, rfl⟩ := Option.map_eq_some_iff.mp hx
      obtain ⟨_, _, rfl⟩ := Option.map_eq_some_iff.mp hy
      exact hne (Prod.mk.inj heq).1
    · apply pairwise_getLocWithIns.imp
      intro a b hne x hx y hy heq
      obtain ⟨_, _, hx⟩ := List.mem_filterMap.mp hx
      obtain ⟨_, _, hy⟩ := List.mem_filterMap.mp hy
      obtain ⟨_, _, rfl⟩ := Option.map_eq_some_iff.mp hx
      obtain ⟨_, _, rfl⟩ := Option.map_eq_some_iff.mp hy
      exact hne (Prod.mk.inj heq).2
  · apply List.Pairwise.imp_of_mem _ hnodup
    intro v w hv hw hne x hx y hy heq
    have hrow {v : α} {x : (V × Int) × List Int} (hv : v ∈ m.graph.rpo)
        (hx : x ∈ (m.getLocWithIns v).flatMap fun l => l.2.usedVars.filterMap fun var =>
          ((m.reachDef dummyEntry dummyExit params).useDefs R v l.1 var).map fun locs =>
            ((var, l.1), locs)) :
        ∃ j : Nat, j < (m.ins v).length ∧ x.1.2 = m.firstLoc v + j := by
      obtain ⟨⟨i, use⟩, hins, hx⟩ := List.mem_flatMap.mp hx
      obtain ⟨_, _, hx⟩ := List.mem_filterMap.mp hx
      obtain ⟨_, _, rfl⟩ := Option.map_eq_some_iff.mp hx
      obtain ⟨j, huse, hloc⟩ := (mem_getLocWithIns hv).mp hins
      exact ⟨j, lt_of_getElem? huse, hloc⟩
    obtain ⟨j, hj, hlocj⟩ := hrow hv hx
    obtain ⟨k, hk, hlock⟩ := hrow hw hy
    apply hne
    apply (firstLoc_inj hv hw hj hk _).1
    rw [← hlocj, ← hlock, heq]

end Rows

/-- A use of the variable with the location of the instruction it is in. -/
def UsedAt (m : MethodCode α V) (var : V) (u : Int) (p : Point α) : Prop :=
  p.1 ∈ m.graph.rpo ∧ u = m.firstLoc p.1 + p.2 ∧
    ∃ use, (m.ins p.1)[p.2]? = some use ∧ var ∈ use.usedVars

omit [DecidableEq V] in
theorem UsedAt.unique {p q : Point α} (h : m.UsedAt var u p) (h' : m.UsedAt reg u q) : p = q := by
  obtain ⟨hp, hloc, use, huse, _⟩ := h
  obtain ⟨hq, hloc', use', huse', _⟩ := h'
  obtain ⟨hnode, hindex⟩ := firstLoc_inj hp hq (lt_of_getElem? huse) (lt_of_getElem? huse')
    (hloc.symm.trans hloc')
  exact Prod.ext hnode hindex

/-- The links of the chains. -/
theorem mem_ud (hm : m.Ready dummyEntry dummyExit) {fuel : Nat} {chains : DefUseChains V}
    (h : buildDefUse fuel m dummyEntry dummyExit params = some chains) :
    d ∈ chains.ud.locs var u ↔ ∃ p q, m.DefAt params var d p ∧ m.UsedAt var u q ∧
      m.Carries endExit var p q := by
  obtain ⟨sets, hrun, rfl⟩ := Option.map_eq_some_iff.mp h
  rw [mem_chainsOf_ud]
  constructor
  · rintro ⟨⟨⟨var', u'⟩, locs⟩, hrow, hkey, hd⟩
    obtain ⟨rfl, rfl⟩ := Prod.mk.inj hkey
    obtain ⟨w, hw, j, use, huse, hvar, hloc, hlocs⟩ := mem_udRows.mp hrow
    dsimp only at hvar hloc hlocs hd
    subst hloc
    have hmem : d ∈ ((m.reachDef dummyEntry dummyExit params).useDefs sets.before w (m.firstLoc w + j)
        var').getD [] ↔ ∃ p, m.DefAt params var' d p ∧ m.Carries endExit var' p (w, j) :=
      mem_useDefs hm hrun hw (lt_of_getElem? huse).le
    rw [hlocs, Option.getD_some] at hmem
    obtain ⟨p, hdef, hcarries⟩ := hmem.mp hd
    exact ⟨p, (w, j), hdef, ⟨hw, rfl, use, huse, hvar⟩, hcarries⟩
  · rintro ⟨p, ⟨w, j⟩, hdef, ⟨hw, rfl, use, huse, hvar⟩, hcarries⟩
    dsimp only at hw huse hvar ⊢
    have hmem := (mem_useDefs hm hrun hw (lt_of_getElem? huse).le).mpr ⟨p, hdef, hcarries⟩
    cases hlocs : (m.reachDef dummyEntry dummyExit params).useDefs sets.before w
        (m.firstLoc w + j) var with
    | none =>
      rw [hlocs] at hmem
      cases hmem
    | some locs =>
      rw [hlocs, Option.getD_some] at hmem
      exact ⟨((var, m.firstLoc w + j), locs),
        mem_udRows.mpr ⟨w, hw, j, use, huse, hvar, rfl, hlocs⟩, rfl, hmem⟩

/-- `BuildDefUse` comes to an end, links each use to the definitions a path of the
block graph carries to it, each once, and `du` is the transpose of `ud`. -/
theorem build_def_use_exact (hm : m.Ready dummyEntry dummyExit) :
    (∃ fuel chains, buildDefUse fuel m dummyEntry dummyExit params = some chains) ∧
    ∀ fuel chains, buildDefUse fuel m dummyEntry dummyExit params = some chains →
      ∀ var d u,
        (d ∈ chains.ud.locs var u ↔ ∃ p q, m.DefAt params var d p ∧ m.UsedAt var u q ∧
          m.Carries endExit var p q) ∧
        (u ∈ chains.du.locs var d ↔ d ∈ chains.ud.locs var u) ∧
        (chains.ud.locs var u).Nodup ∧ (chains.du.locs var d).Nodup := by
  constructor
  · obtain ⟨fuel, sets, hrun⟩ := exists_run hm params
    exact ⟨fuel, _, Option.map_eq_some_iff.mpr ⟨sets, hrun, rfl⟩⟩
  · intro fuel chains h var d u
    refine ⟨mem_ud hm h, ?_⟩
    obtain ⟨sets, hrun, rfl⟩ := Option.map_eq_some_iff.mp h
    have hkeys : (((m.reachDef dummyEntry dummyExit params).udRows sets.before
        m.graph.rpo).map Prod.fst).Nodup := nodup_udRows hm
    have hrows : ∀ row ∈ (m.reachDef dummyEntry dummyExit params).udRows sets.before m.graph.rpo,
        row.2.Nodup := by
      intro row hrow
      obtain ⟨_, _, _, _, _, _, _, hlocs⟩ := mem_udRows.mp hrow
      exact nodup_useDefs hm hlocs
    exact ⟨mem_chainsOf_du, nodup_chainsOf_ud hkeys hrows, nodup_chainsOf_du hkeys hrows⟩

omit [DecidableEq V] in
theorem ready_computeRpo {g : Graph α} {ins : α → List (IRForm V)} (hg : g.WellFormed)
    (hentry : ∃ e, g.entry = some e) (hexit : ∀ x, g.exit = some x → x ∈ g.nodes)
    (hnewEntry : dummyEntry ∉ g.nodes) (hnewExit : dummyExit ∉ g.nodes)
    (hne : dummyEntry ≠ dummyExit) :
    (MethodCode.mk g.computeRpo ins).Ready dummyEntry dummyExit where
  wellFormed := hg.computeRpo
  rpo := List.perm_insertionSort _ _
  entry := hentry
  exit := hexit
  newEntry := hnewEntry
  newExit := hnewExit
  distinct := hne

end MethodCode

section GuardedCode

def guardedNodes : Graph Nat :=
  { (((({} : Graph Nat).addNode 0).addNode 1).addNode 2) with entry := some 0 }

/-- A block with a handler: it sets a register, calls, and sets the register
again. Both the block after it and the handler read the register. -/
def guardedCode : MethodCode Nat Nat where
  graph := ((guardedNodes.addEdge 0 1).addCatchEdge 0 2).computeRpo
  ins
    | 0 => [{ lhs := some 7, usedVars := [], distinct := List.nodup_nil },
        { lhs := none, usedVars := [], distinct := List.nodup_nil, isCall := true,
          hasSideEffect := true },
        { lhs := some 7, usedVars := [], distinct := List.nodup_nil }]
    | 1 => [{ lhs := none, usedVars := [7], distinct := List.nodup_singleton 7 }]
    | 2 => [{ lhs := none, usedVars := [7], distinct := List.nodup_singleton 7 }]
    | _ => []

theorem guardedCode_ready : guardedCode.Ready 3 4 := by
  apply MethodCode.ready_computeRpo _ ⟨0, rfl⟩ _ (by decide) (by decide) (by decide)
  · apply Graph.WellFormed.addCatchEdge _ (by decide) (by decide)
    apply Graph.WellFormed.addEdge _ (by decide) (by decide)
    apply Graph.WellFormed.setEntry _ (by decide)
    repeat' apply Graph.WellFormed.addNode _ (by decide)
    exact Graph.wellFormed_empty
  · intro x hx
    cases hx

theorem build_def_use_exact_guardedCode :
    (∃ fuel chains, buildDefUse fuel guardedCode 3 4 [7, 8] = some chains) ∧
    ∀ fuel chains, buildDefUse fuel guardedCode 3 4 [7, 8] = some chains →
      ∀ var d u,
        (d ∈ chains.ud.locs var u ↔ ∃ p q, guardedCode.DefAt [7, 8] var d p ∧
          guardedCode.UsedAt var u q ∧ guardedCode.Carries endExit var p q) ∧
        (u ∈ chains.du.locs var d ↔ d ∈ chains.ud.locs var u) ∧
        (chains.ud.locs var u).Nodup ∧ (chains.du.locs var d).Nodup :=
  MethodCode.build_def_use_exact guardedCode_ready

example : (buildDefUse 20 guardedCode 3 4 [7, 8]).map (fun chains =>
    (chains.ud.locs 7 3, chains.ud.locs 7 4, chains.du.locs 7 0)) = some ([2], [2], []) := by
  decide

end GuardedCode

end Dexllm.Dad
