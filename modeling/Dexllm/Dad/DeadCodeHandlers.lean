import Dexllm.Dad.DefUseExact
import Dexllm.Dad.DeadCodeSpecs

/-!
`DeadCodeElimination` under exceptions. The chains let an exception leave a
block at its end, so a definition that the block overwrites later on counts as
unread by the handlers of the block.
-/

namespace Dexllm.Dad

open Relation

variable {α V : Type}

namespace MethodCode

/-- A definition without effects all of whose uses, along paths that leave blocks
at their ends, are in dead instructions. -/
inductive DeadAt (m : MethodCode α V) : Point α → Prop
  | intro {v : α} {k : Nat} {ins : IRForm V} {var : V} (hins : (m.ins v)[k]? = some ins)
      (hlhs : ins.lhs = some var) (hpure : ins.Removable)
      (huses : ∀ q use, (m.ins q.1)[q.2]? = some use → var ∈ use.usedVars →
        m.Carries endExit var (v, k + 1) q → m.DeadAt q) : m.DeadAt (v, k)

variable [DecidableEq α]

/-- The instruction at a point of the graph is no longer there. -/
def RemovedAt (m : MethodCode α V) (out : Elim α V) (p : Point α) : Prop :=
  m.firstLoc p.1 + p.2 ∉ out.locToIns

/-- No execution carries the value of a removed definition to an instruction that
is still there and reads it. -/
def RemovesUnread (m : MethodCode α V) (out : Elim α V) : Prop :=
  ∀ v k ins var, (m.ins v)[k]? = some ins → ins.lhs = some var → m.Executes (v, k) →
    m.RemovedAt out (v, k) → ∀ q use, (m.ins q.1)[q.2]? = some use → var ∈ use.usedVars →
      m.Carries anyExit var (v, k + 1) q → m.RemovedAt out q

/-- A value that a handler may find where the block goes on to overwrite it, and
that the handler lets a live instruction read, has a live use along the paths
that leave blocks at their ends as well. -/
def HandlersCovered (m : MethodCode α V) : Prop :=
  ∀ v k ins var, (m.ins v)[k]? = some ins → ins.lhs = some var → m.Executes (v, k) →
    ∀ b i h, m.Carries anyExit var (v, k + 1) (b, i) → h ∈ m.graph.catchEdges.sucs b → 0 < i →
      ¬ m.Quiet var b i (m.ins b).length → ∀ q use, m.Carries anyExit var (h, 0) q →
        (m.ins q.1)[q.2]? = some use → var ∈ use.usedVars → ¬ m.DeadAt q → ¬ m.DeadAt (v, k)

variable {m : MethodCode α V} {dummyEntry dummyExit : α} {params : List V} {var : V} {v : α}
  {k : Nat} {p q : Point α} {ins : IRForm V} {chains : DefUseChains V} {out : Elim α V}

omit [DecidableEq α] in
/-- A path on which an exception leaves a block before its end can be led through
the ends of blocks, unless the rest of a block overwrites the variable. -/
theorem Carries.reroute (h : m.Carries anyExit var p q) :
    m.Carries endExit var p q ∨ ∃ b i hdl, m.Carries anyExit var p (b, i) ∧
      hdl ∈ m.graph.catchEdges.sucs b ∧ 0 < i ∧ i ≤ (m.ins b).length ∧
      ¬ m.Quiet var b i (m.ins b).length ∧ m.Carries anyExit var (hdl, 0) q := by
  induction h with
  | refl => exact Or.inl ReflTransGen.refl
  | @tail q r hpath hstep ih =>
    rcases ih with hend | ⟨b, i, hdl, hto, hmem, hpos, hle, hover, hfrom⟩
    · cases hstep with
      | next hins hkeep => exact Or.inl (hend.tail (Step.next hins hkeep))
      | leave hw => exact Or.inl (hend.tail (Step.leave hw))
      | @caught b hdl i hh hi =>
        by_cases hquiet : m.Quiet var b i (m.ins b).length
        · left
          have hrest : m.Carries endExit var (b, i) (b, (m.ins b).length) :=
            hquiet.carries hi.2 le_rfl
          exact (hend.trans hrest).tail (Step.caught hh rfl)
        · exact Or.inr ⟨b, i, hdl, hpath, hh, hi.1, hi.2, hquiet, ReflTransGen.refl⟩
    · exact Or.inr ⟨b, i, hdl, hto, hmem, hpos, hle, hover, hfrom.tail hstep⟩

omit [DecidableEq α] in
theorem Ready.step_mem (hm : m.Ready dummyEntry dummyExit) {exits : Nat → Nat → Prop}
    {keep : IRForm V → Prop} (hp : p.1 ∈ m.graph.rpo)
    (h : ReflTransGen (m.Step exits keep) p q) : q.1 ∈ m.graph.rpo := by
  induction h with
  | refl => exact hp
  | tail _ hstep ih =>
    cases hstep with
    | next => exact ih
    | @leave v w hw =>
      have hall : w ∈ m.graph.allSucs v := List.mem_append_left _ hw
      exact (hm.mem_rpo hall).2
    | @caught v w k hh =>
      have hall : w ∈ m.graph.allSucs v := List.mem_append_right _ hh
      exact (hm.mem_rpo hall).2

omit [DecidableEq α] in
theorem Ready.executes_mem (hm : m.Ready dummyEntry dummyExit) (h : m.Executes p) :
    p.1 ∈ m.graph.rpo := by
  obtain ⟨e, he, hpath⟩ := h
  exact hm.step_mem (p := (e, 0)) (hm.rpo.mem_iff.mpr (hm.wellFormed.entryMem e he)) hpath

variable [DecidableEq V]

/-- The links of the chains, seen from a definition of the code. -/
theorem mem_ud_ins (hm : m.Ready dummyEntry dummyExit) {fuel : Nat}
    (h : buildDefUse fuel m dummyEntry dummyExit params = some chains)
    (hv : v ∈ m.graph.rpo) (hins : (m.ins v)[k]? = some ins) (hlhs : ins.lhs = some var)
    (u : Int) : m.firstLoc v + k ∈ chains.ud.locs var u ↔
      ∃ q, m.UsedAt var u q ∧ m.Carries endExit var (v, k + 1) q := by
  rw [mem_ud hm h]
  constructor
  · rintro ⟨p, q, hdef, huse, hcarries⟩
    obtain ⟨-, rfl⟩ := hdef.unique (DefAt.ins hv hins hlhs)
    exact ⟨q, huse, hcarries⟩
  · rintro ⟨q, huse, hcarries⟩
    exact ⟨(v, k + 1), q, DefAt.ins hv hins hlhs, huse, hcarries⟩

/-- Dead in the chains is dead along the paths that leave blocks at their ends. -/
theorem dead_iff (hm : m.Ready dummyEntry dummyExit) {fuel : Nat}
    (h : buildDefUse fuel m dummyEntry dummyExit params = some chains) (hp : p.1 ∈ m.graph.rpo)
    (hins : (m.ins p.1)[p.2]? = some ins) :
    Dead m.insAt (fun var d u => d ∈ chains.ud.locs var u) (m.firstLoc p.1 + p.2) ↔ m.DeadAt p := by
  constructor
  · intro hdead
    generalize hloc : m.firstLoc p.1 + (p.2 : Int) = d at hdead
    induction hdead generalizing p ins with
    | @intro d ins' var hcode hlhs hpure _ ih =>
      obtain ⟨v, k⟩ := p
      dsimp only at hp hins hloc
      subst hloc
      obtain rfl := Option.some.inj ((insAt_firstLoc hp hins).symm.trans hcode)
      apply DeadAt.intro hins hlhs hpure
      intro q use huse hvar hcarries
      have hq : q.1 ∈ m.graph.rpo := hm.step_mem (p := (v, k + 1)) hp hcarries
      exact ih _ ((mem_ud_ins hm h hp hins hlhs _).mpr
        ⟨q, ⟨hq, rfl, use, huse, hvar⟩, hcarries⟩) hq huse rfl
  · intro hdead
    induction hdead generalizing ins with
    | @intro v k ins' var hins' hlhs hpure _ ih =>
      dsimp only at hp
      apply Dead.intro (insAt_firstLoc hp hins') hlhs hpure
      intro u hu
      obtain ⟨q, ⟨hq, rfl, use, huse, hvar⟩, hcarries⟩ :=
        (mem_ud_ins hm h hp hins' hlhs u).mp hu
      exact ih q use huse hvar hcarries hq huse

/-- The state the elimination starts with. -/
theorem settled_elim (hm : m.Ready dummyEntry dummyExit) {fuel : Nat}
    (h : buildDefUse fuel m dummyEntry dummyExit params = some chains) :
    Elim.Settled (fun node => (m.getLocWithIns node).map Prod.fst) m.insAt
      (fun var d u => d ∈ chains.ud.locs var u) ∅ (m.elim chains) := by
  have hexact := build_def_use_exact hm |>.2 fuel chains h
  obtain ⟨sets, _, hchains⟩ := Option.map_eq_some_iff.mp h
  refine ⟨⟨?_, ?_⟩, fun u hu => absurd hu (Finset.notMem_empty u)⟩
  · exact {
      mirrored := fun var d u => (hexact var d u).2.1.symm
      udNodup := fun var u => (hexact var 0 u).2.2.1
      duNodup := fun var d => (hexact var d 0).2.2.2
      duNonempty := fun var d _ => hchains ▸ du_chainsOf_ne (var, d)
      sub := fun _ _ _ hd => hd
      kept := fun _ _ _ hd _ => hd
      closed := fun _ d hd => absurd hd (Finset.notMem_empty d)
      dead := fun d hd => absurd hd (Finset.notMem_empty d)
      present := by
        intro d _ hsome
        obtain ⟨ins, hins⟩ := Option.isSome_iff_exists.mp hsome
        obtain ⟨v, hv, k, hk, rfl⟩ := insAt_eq_some.mp hins
        exact List.mem_map.mpr ⟨(_, ins),
          List.mem_flatMap.mpr ⟨v, hv, (mem_getLocWithIns hv).mpr ⟨k, hk, rfl⟩⟩, rfl⟩
      heap := fun _ _ hins => Or.inl hins
      coded := by
        intro node i hi
        obtain ⟨⟨i, ins⟩, hmem, rfl⟩ := List.mem_map.mp hi
        by_cases hnode : node ∈ m.graph.rpo
        · obtain ⟨k, hins, rfl⟩ := (mem_getLocWithIns hnode).mp hmem
          rw [insAt_firstLoc hnode hins]
          rfl
        · rw [getLocWithIns_of_not_mem hnode] at hmem
          cases hmem
      listed := fun _ _ hi _ => hi }
  · intro var d u ins _ _ _ hd hempty
    have hmem := (hexact var d u).2.1.mpr hd
    change u ∈ (m.elim chains).du.locs var d at hmem
    rw [hempty] at hmem
    cases hmem

theorem chainsOk (hm : m.Ready dummyEntry dummyExit) {fuel : Nat}
    (h : buildDefUse fuel m dummyEntry dummyExit params = some chains) :
    ChainsOk m.insAt fun var d u => d ∈ chains.ud.locs var u where
  located := by
    intro d ins hins
    obtain ⟨v, hv, k, _, rfl⟩ := insAt_eq_some.mp hins
    have := firstLoc_nonneg hv
    omega
  used := by
    intro var d u hd
    obtain ⟨_, q, _, ⟨hq, rfl, use, huse, hvar⟩, _⟩ := (mem_ud hm h).mp hd
    exact ⟨use, insAt_firstLoc hq huse, hvar⟩
  defined := by
    intro var d u hd hnonneg
    obtain ⟨p, _, hdef, _⟩ := (mem_ud hm h).mp hd
    cases hdef with
    | ins hv hins hlhs => exact ⟨_, insAt_firstLoc hv hins, hlhs⟩
    | param => omega

/-- `DeadCodeElimination` comes to an end and removes the dead instructions. -/
theorem exists_deadCodeElimination (hm : m.Ready dummyEntry dummyExit) {fuel : Nat}
    (h : buildDefUse fuel m dummyEntry dummyExit params = some chains) :
    ∃ out, deadCodeElimination m chains = some out ∧
      ∀ p ins, p.1 ∈ m.graph.rpo → (m.ins p.1)[p.2]? = some ins →
        (m.RemovedAt out p ↔ m.DeadAt p) := by
  have hok := chainsOk hm h
  have hall : ∀ d ins, m.insAt d = some ins → d ∈ (m.located.map Prod.fst).toFinset := by
    intro d ins hins
    have hstart := (settled_elim hm h).inv.chained.present d (Finset.notMem_empty d)
    exact List.mem_toFinset.mpr (hstart (by rw [hins]; rfl))
  have hfuel : (m.located.map Prod.fst).toFinset.card < m.located.length + 1 := by
    apply Nat.lt_succ_of_le
    exact (List.toFinset_card_le _).trans (List.length_map _).le
  have hblocks : ∀ node, ∀ i ∈ (m.getLocWithIns node).map Prod.fst, (m.insAt i).isSome :=
    (settled_elim hm h).inv.chained.coded
  obtain ⟨K, out, hrun, _, hsettled, hseen⟩ :=
    Elim.exists_eliminate hok hall hfuel m.graph.rpo hblocks (settled_elim hm h)
  refine ⟨out, hrun, ?_⟩
  intro p ins hp hins
  rw [← dead_iff hm h hp hins]
  apply hsettled.removed_iff _ (insAt_firstLoc hp hins)
  intro i hsome
  obtain ⟨ins', hins'⟩ := Option.isSome_iff_exists.mp hsome
  obtain ⟨v, hv, k, hk, rfl⟩ := insAt_eq_some.mp hins'
  exact hseen v hv _ (List.mem_map.mpr
    ⟨(_, ins'), (mem_getLocWithIns hv).mpr ⟨k, hk, rfl⟩, rfl⟩)

/-- `DeadCodeElimination` removes unread definitions only, exceptions included, if
and only if what handlers read where a block is cut short is covered. -/
theorem dead_code_elimination_sound_iff (hm : m.Ready dummyEntry dummyExit) :
    (∃ fuel chains, buildDefUse fuel m dummyEntry dummyExit params = some chains) ∧
    ∀ fuel chains, buildDefUse fuel m dummyEntry dummyExit params = some chains →
      ∃ out, deadCodeElimination m chains = some out ∧
        (m.RemovesUnread out ↔ m.HandlersCovered) := by
  refine ⟨(build_def_use_exact hm).1, ?_⟩
  intro fuel chains h
  obtain ⟨out, hrun, hremoved⟩ := exists_deadCodeElimination hm h
  refine ⟨out, hrun, ?_⟩
  constructor
  · intro hsound v k ins var hins hlhs hexec b i hdl hto hmem hpos hover q use hfrom huse hvar
      hlive hdead
    have hv : v ∈ m.graph.rpo := hm.executes_mem hexec
    have hle : i ≤ (m.ins b).length := by
      by_contra hgt
      apply hover
      intro l _ hil hlen
      omega
    have hpath : m.Carries anyExit var (v, k + 1) q :=
      (hto.tail (Step.caught hmem ⟨hpos, hle⟩)).trans hfrom
    have hq : q.1 ∈ m.graph.rpo := hm.step_mem (p := (v, k + 1)) hv hpath
    have hgone := hsound v k ins var hins hlhs hexec ((hremoved (v, k) ins hv hins).mpr hdead)
      q use huse hvar hpath
    exact hlive ((hremoved q use hq huse).mp hgone)
  · intro hcovered v k ins var hins hlhs hexec hgone q use huse hvar hpath
    have hv : v ∈ m.graph.rpo := hm.executes_mem hexec
    have hdead : m.DeadAt (v, k) := (hremoved (v, k) ins hv hins).mp hgone
    have hq : q.1 ∈ m.graph.rpo := hm.step_mem (p := (v, k + 1)) hv hpath
    apply (hremoved q use hq huse).mpr
    by_contra hlive
    rcases hpath.reroute with hend | ⟨b, i, hdl, hto, hmem, hpos, _, hover, hfrom⟩
    · cases hdead with
      | @intro _ _ ins' var' hins' hlhs' _ huses =>
        obtain rfl := Option.some.inj (hins.symm.trans hins')
        obtain rfl := Option.some.inj (hlhs.symm.trans hlhs')
        exact hlive (huses q use huse hvar hend)
    · exact hcovered v k ins var hins hlhs hexec b i hdl hto hmem hpos hover q use hfrom huse
        hvar hlive hdead

end MethodCode

theorem dead_code_elimination_sound_iff_guardedCode :
    (∃ fuel chains, buildDefUse fuel guardedCode 3 4 [] = some chains) ∧
    ∀ fuel chains, buildDefUse fuel guardedCode 3 4 [] = some chains →
      ∃ out, deadCodeElimination guardedCode chains = some out ∧
        (guardedCode.RemovesUnread out ↔ guardedCode.HandlersCovered) :=
  MethodCode.dead_code_elimination_sound_iff guardedCode_ready

/-- The first definition is removed, and the handler reads it when the call
throws. -/
theorem guardedCode_removes_read : ∃ chains out, buildDefUse 20 guardedCode 3 4 [] = some chains ∧
    deadCodeElimination guardedCode chains = some out ∧ ¬ guardedCode.RemovesUnread out := by
  have hrun : ((buildDefUse 20 guardedCode 3 4 []).bind fun chains =>
      (deadCodeElimination guardedCode chains).map Elim.locToIns) = some [1, 2, 3, 4] := by decide
  obtain ⟨chains, hchains, hrest⟩ := Option.bind_eq_some_iff.mp hrun
  obtain ⟨out, hout, hlocs⟩ := Option.map_eq_some_iff.mp hrest
  refine ⟨chains, out, hchains, hout, ?_⟩
  intro hsound
  have hstart : guardedCode.Executes (0, 0) := ⟨0, rfl, ReflTransGen.refl⟩
  have hgone : guardedCode.RemovedAt out (0, 0) := by
    unfold MethodCode.RemovedAt
    rw [hlocs]
    decide
  -- the value survives the call, which throws, and is in the register in the handler
  have hpath : guardedCode.Carries anyExit 7 (0, 1) (2, 0) := by
    apply ReflTransGen.tail (b := (0, 2))
    · exact ReflTransGen.single (MethodCode.Step.next rfl (by decide))
    · exact MethodCode.Step.caught (by decide) ⟨by decide, by decide⟩
  have hread := hsound 0 0 _ 7 rfl rfl hstart hgone (2, 0) _ rfl (by decide) hpath
  unfold MethodCode.RemovedAt at hread
  rw [hlocs] at hread
  exact absurd hread (by decide)

end Dexllm.Dad
