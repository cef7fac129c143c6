import Dexllm.Dad.DefUseSpecs

/-!
`BasicReachDef` is exact: a definition is in the set before a block when some
path that leaves blocks at their ends carries it there, and `BuildDefUse` links a
use to the definitions such a path carries to it, parameters included.
-/

namespace Dexllm.Dad

open Relation

variable {α V : Type}

/-- A definition of the variable with the point after it. A parameter is defined
before the first instruction. -/
inductive MethodCode.DefAt [DecidableEq α] (m : MethodCode α V) (params : List V) (var : V) :
    Int → Point α → Prop
  | ins {v : α} {k : Nat} {ins : IRForm V} (hv : v ∈ m.graph.rpo)
      (hins : (m.ins v)[k]? = some ins) (hlhs : ins.lhs = some var) :
      m.DefAt params var (m.firstLoc v + k) (v, k + 1)
  | param {i : Nat} {e : α} (hi : params[i]? = some var) (he : m.graph.entry = some e) :
      m.DefAt params var (-((i : Int) + 1)) (e, 0)

/-- A method whose `rpo` has been computed, with the dummies of the analysis. -/
structure MethodCode.Ready (m : MethodCode α V) (dummyEntry dummyExit : α) : Prop where
  wellFormed : m.graph.WellFormed
  rpo : m.graph.rpo.Perm m.graph.nodes
  entry : ∃ e, m.graph.entry = some e
  exit : ∀ x, m.graph.exit = some x → x ∈ m.graph.nodes
  newEntry : dummyEntry ∉ m.graph.nodes
  newExit : dummyExit ∉ m.graph.nodes
  distinct : dummyEntry ≠ dummyExit

namespace MethodCode

variable {m : MethodCode α V} {dummyEntry dummyExit : α} {params : List V} {var reg : V}
  {d : Int} {p q : Point α} {v w : α} {j k : Nat}

section Graph

theorem Ready.ne_entry (hm : m.Ready dummyEntry dummyExit) (hv : v ∈ m.graph.rpo) :
    v ≠ dummyEntry := by
  rintro rfl
  exact hm.newEntry (hm.rpo.mem_iff.mp hv)

theorem Ready.ne_exit (hm : m.Ready dummyEntry dummyExit) (hv : v ∈ m.graph.rpo) :
    v ≠ dummyExit := by
  rintro rfl
  exact hm.newExit (hm.rpo.mem_iff.mp hv)

theorem Ready.exit_not_mem (hm : m.Ready dummyEntry dummyExit) :
    dummyExit ∉ m.graph.rpo := fun h => hm.newExit (hm.rpo.mem_iff.mp h)

variable [DecidableEq α]

theorem entry_reachDefGraph :
    (m.reachDefGraph dummyEntry dummyExit).entry = some dummyEntry := by
  unfold reachDefGraph
  dsimp only
  cases m.graph.exit <;> rfl

theorem mem_rpo_reachDefGraph : v ∈ (m.reachDefGraph dummyEntry dummyExit).rpo ↔
    v ∈ m.graph.rpo ∨ (v = dummyExit ∧ ∃ x, m.graph.exit = some x) := by
  unfold reachDefGraph Graph.addEdge Graph.addNode
  dsimp only
  cases m.graph.exit <;> cases m.graph.entry <;> simp

theorem mem_allSucs_reachDefGraph : w ∈ (m.reachDefGraph dummyEntry dummyExit).allSucs v ↔
    w ∈ m.graph.allSucs v ∨ (v = dummyEntry ∧ m.graph.entry = some w) ∨
      (m.graph.exit = some v ∧ w = dummyExit) := by
  unfold reachDefGraph Graph.allSucs Graph.addEdge Graph.addNode
  dsimp only
  cases hexit : m.graph.exit <;> cases hentry : m.graph.entry <;>
    simp only [List.mem_append, EdgeTable.mem_add, Option.some.injEq, reduceCtorEq] <;>
    grind

end Graph

section Sets

variable [DecidableEq α]

theorem DefAt.point_mem (hm : m.Ready dummyEntry dummyExit) (h : m.DefAt params var d p) :
    p.1 ∈ m.graph.rpo := by
  cases h with
  | ins hv => exact hv
  | param _ he => exact hm.rpo.mem_iff.mpr (hm.wellFormed.entryMem _ he)

variable [DecidableEq V]

theorem mem_defsIn (hv : v ∈ m.graph.rpo) : d ∈ defsIn reg (m.getLocWithIns v) ↔
    ∃ (k : Nat) (ins : IRForm V), (m.ins v)[k]? = some ins ∧ ins.lhs = some reg ∧
      d = m.firstLoc v + k := by
  unfold defsIn
  rw [List.mem_filterMap]
  constructor
  · rintro ⟨⟨i, ins⟩, hmem, h⟩
    obtain ⟨k, hins, hloc⟩ := (mem_getLocWithIns hv).mp hmem
    dsimp only at h
    split at h
    next hlhs => exact ⟨k, ins, hins, hlhs, by rw [← Option.some.inj h, hloc]⟩
    next => cases h
  · rintro ⟨k, ins, hins, hlhs, rfl⟩
    exact ⟨(_, ins), (mem_getLocWithIns hv).mpr ⟨k, hins, rfl⟩, if_pos hlhs⟩

omit [DecidableEq α] in
theorem mem_paramDefs : d ∈ paramDefs reg params ↔
    ∃ i : Nat, params[i]? = some reg ∧ d = -((i : Int) + 1) := by
  unfold paramDefs
  rw [List.mem_reverse, List.mem_filterMap]
  constructor
  · rintro ⟨⟨param, i⟩, hmem, h⟩
    dsimp only at h
    split at h
    next hparam =>
      subst hparam
      exact ⟨i, List.mem_zipIdx_iff_getElem?.mp hmem, (Option.some.inj h).symm⟩
    next => cases h
  · rintro ⟨i, hi, rfl⟩
    exact ⟨(reg, i), List.mem_zipIdx_iff_getElem?.mpr hi, if_pos rfl⟩

theorem DefAt.unique (h : m.DefAt params var d p) (h' : m.DefAt params reg d q) :
    var = reg ∧ p = q := by
  cases h with
  | @ins v k ins hv hins hlhs =>
    generalize hd : m.firstLoc v + (k : Int) = d at h'
    cases h' with
    | @ins w j ins' hw hins' hlhs' =>
      obtain ⟨rfl, rfl⟩ := firstLoc_inj hv hw (lt_of_getElem? hins) (lt_of_getElem? hins') hd
      obtain rfl := Option.some.inj (hins.symm.trans hins')
      exact ⟨Option.some.inj (hlhs.symm.trans hlhs'), rfl⟩
    | param =>
      have := firstLoc_nonneg hv
      omega
  | @param i e hi he =>
    generalize hd : -((i : Int) + 1) = d at h'
    cases h' with
    | @ins w j ins' hw hins' hlhs' =>
      have := firstLoc_nonneg hw
      omega
    | @param i' e' hi' he' =>
      obtain rfl : i = i' := by omega
      exact ⟨Option.some.inj (hi.symm.trans hi'), by rw [Option.some.inj (he.symm.trans he')]⟩

/-- The locations that define a register are its definitions. -/
theorem mem_defToLoc (hm : m.Ready dummyEntry dummyExit) :
    d ∈ (m.reachDef dummyEntry dummyExit params).defToLoc reg ↔
      ∃ p, m.DefAt params reg d p := by
  unfold BasicReachDef.defToLoc reachDef
  rw [List.mem_append, List.mem_flatMap, mem_paramDefs]
  constructor
  · rintro (⟨i, hi, rfl⟩ | ⟨v, hv, hmem⟩)
    · obtain ⟨e, he⟩ := hm.entry
      exact ⟨(e, 0), DefAt.param hi he⟩
    · rcases mem_rpo_reachDefGraph.mp hv with hv | ⟨rfl, _⟩
      · obtain ⟨k, ins, hins, hlhs, rfl⟩ := (mem_defsIn hv).mp hmem
        exact ⟨(v, k + 1), DefAt.ins hv hins hlhs⟩
      · dsimp only at hmem
        rw [getLocWithIns_of_not_mem hm.exit_not_mem] at hmem
        cases hmem
  · rintro ⟨p, hdef⟩
    cases hdef with
    | @ins v k ins hv hins hlhs =>
      exact Or.inr ⟨v, mem_rpo_reachDefGraph.mpr (Or.inl hv),
        (mem_defsIn hv).mpr ⟨k, ins, hins, hlhs, rfl⟩⟩
    | @param i e hi he => exact Or.inl ⟨i, hi, rfl⟩

theorem defs_reachDef (hm : m.Ready dummyEntry dummyExit) (hv : v ∈ m.graph.rpo) :
    (m.reachDef dummyEntry dummyExit params).defs v reg = defsIn reg (m.getLocWithIns v) := by
  unfold BasicReachDef.defs reachDef
  dsimp only
  rw [entry_reachDefGraph, if_neg fun h => hm.ne_entry hv (Option.some.inj h).symm,
    if_pos (mem_rpo_reachDefGraph.mpr (Or.inl hv)), List.nil_append]

omit [DecidableEq V] in
theorem mem_defined (hm : m.Ready dummyEntry dummyExit) (hv : v ∈ m.graph.rpo) :
    reg ∈ (m.reachDef dummyEntry dummyExit params).defined v ↔
      ¬ m.Quiet reg v 0 (m.ins v).length := by
  unfold BasicReachDef.defined reachDef
  dsimp only
  rw [entry_reachDefGraph, if_neg fun h => hm.ne_entry hv (Option.some.inj h).symm,
    if_pos (mem_rpo_reachDefGraph.mpr (Or.inl hv)), List.nil_append, List.mem_filterMap]
  constructor
  · rintro ⟨⟨i, ins⟩, hmem, hlhs⟩ hquiet
    obtain ⟨k, hins, _⟩ := (mem_getLocWithIns hv).mp hmem
    exact hquiet k ins (Nat.zero_le k) (lt_of_getElem? hins) hins hlhs
  · intro hnot
    unfold Quiet at hnot
    push Not at hnot
    obtain ⟨k, ins, _, _, hins, hlhs⟩ := hnot
    exact ⟨(_, ins), (mem_getLocWithIns hv).mpr ⟨k, hins, rfl⟩, hlhs⟩

theorem mem_killedLocs (hm : m.Ready dummyEntry dummyExit) (hv : v ∈ m.graph.rpo)
    (hd : m.DefAt params var d p) :
    d ∈ (m.reachDef dummyEntry dummyExit params).killedLocs v ↔
      ¬ m.Quiet var v 0 (m.ins v).length := by
  unfold BasicReachDef.killedLocs
  have hdefined : var ∈ (m.reachDef dummyEntry dummyExit params).defined v ↔
      ¬ m.Quiet var v 0 (m.ins v).length := mem_defined hm hv
  rw [List.mem_toFinset, List.mem_flatMap, ← hdefined]
  constructor
  · rintro ⟨reg, hreg, hmem⟩
    obtain ⟨q, hq⟩ := (mem_defToLoc hm).mp hmem
    rwa [(hd.unique hq).1]
  · exact fun hvar => ⟨var, hvar, (mem_defToLoc hm).mpr ⟨p, hd⟩⟩

/-- A block passes on its last definition of a register. -/
theorem mem_DB (hm : m.Ready dummyEntry dummyExit) (hv : v ∈ m.graph.rpo)
    (hd : m.DefAt params var d p) : d ∈ (m.reachDef dummyEntry dummyExit params).DB v ↔
      p.1 = v ∧ 0 < p.2 ∧ m.Quiet var v p.2 (m.ins v).length := by
  have hrpo : v ∈ (m.reachDef dummyEntry dummyExit params).g.rpo :=
    mem_rpo_reachDefGraph.mpr (Or.inl hv)
  unfold BasicReachDef.DB
  rw [if_pos hrpo, List.mem_toFinset, List.mem_flatMap]
  simp only [defs_reachDef hm hv, List.mem_filter, decide_eq_true_eq]
  constructor
  · rintro ⟨reg, _, hmem, hlast⟩
    obtain ⟨k, ins, hins, hlhs, rfl⟩ := (mem_defsIn hv).mp hmem
    obtain ⟨rfl, rfl⟩ := hd.unique (DefAt.ins hv hins hlhs)
    refine ⟨rfl, Nat.succ_pos k, ?_⟩
    intro j ins' hkj _ hins' hlhs'
    have hle := hlast _ ((mem_defsIn hv).mpr ⟨j, ins', hins', hlhs', rfl⟩)
    omega
  · rintro ⟨hnode, hpos, hquiet⟩
    cases hd with
    | @ins n k ins hn hins hlhs =>
      dsimp only at hnode
      subst hnode
      refine ⟨var, ?_, (mem_defsIn hv).mpr ⟨k, ins, hins, hlhs, rfl⟩, ?_⟩
      · apply (mem_defined hm hv).mpr
        exact fun hall => hall k ins (Nat.zero_le k) (lt_of_getElem? hins) hins hlhs
      · intro other hother
        obtain ⟨j, ins', hins', hlhs', rfl⟩ := (mem_defsIn hv).mp hother
        by_contra hlater
        apply hquiet j ins' (by omega) (lt_of_getElem? hins') hins' hlhs'
    | param => exact absurd hpos (Nat.lt_irrefl 0)

omit [DecidableEq V] in
theorem mem_startA : d ∈ (m.reachDef dummyEntry dummyExit params).startA v ↔
    v = dummyEntry ∧ ∃ i : Nat, i < params.length ∧ d = -((i : Int) + 1) := by
  unfold BasicReachDef.startA reachDef paramLocs
  dsimp only
  rw [entry_reachDefGraph]
  split
  next h =>
    obtain rfl := Option.some.inj h
    rw [List.mem_toFinset, List.mem_reverse, List.mem_map]
    constructor
    · rintro ⟨⟨param, i⟩, hmem, rfl⟩
      have hi := List.mem_zipIdx_iff_getElem?.mp hmem
      exact ⟨rfl, i, (List.getElem?_eq_some_iff.mp hi).1, rfl⟩
    · rintro ⟨-, i, hi, rfl⟩
      exact ⟨(params[i], i), List.mem_zipIdx_iff_getElem?.mpr (List.getElem?_eq_getElem hi), rfl⟩
  next h =>
    constructor
    · exact fun hmem => absurd hmem (Finset.notMem_empty d)
    · exact fun hv => absurd (congrArg some hv.1.symm) h

end Sets

section Paths

variable [DecidableEq α] [DecidableEq V]

omit [DecidableEq α] [DecidableEq V] in
/-- From the end of a node the analysis goes on to every successor. -/
theorem Carries.exit (h : m.Carries endExit var p (v, (m.ins v).length))
    (hw : w ∈ m.graph.allSucs v) : m.Carries endExit var p (w, 0) := by
  rcases List.mem_append.mp hw with hw | hw
  · exact h.tail (Step.leave hw)
  · exact h.tail (Step.caught hw rfl)

theorem mem_preds_problem (hm : m.Ready dummyEntry dummyExit) (hw : w ∈ m.graph.rpo) :
    v ∈ (m.reachDef dummyEntry dummyExit params).problem.preds w ↔
      w ∈ m.graph.allSucs v ∨ (v = dummyEntry ∧ m.graph.entry = some w) := by
  change v ∈ (m.reachDefGraph dummyEntry dummyExit).allPreds w ↔ _
  rw [Graph.mem_allPreds, mem_allSucs_reachDefGraph]
  constructor
  · rintro (h | h | ⟨_, rfl⟩)
    · exact Or.inl h
    · exact Or.inr h
    · exact absurd rfl (hm.ne_exit hw)
  · rintro (h | h)
    · exact Or.inl h
    · exact Or.inr (Or.inl h)

omit [DecidableEq α] [DecidableEq V] in
theorem Ready.mem_rpo (hm : m.Ready dummyEntry dummyExit) (hw : w ∈ m.graph.allSucs v) :
    v ∈ m.graph.rpo ∧ w ∈ m.graph.rpo := by
  have h := hm.wellFormed.closed hw
  exact ⟨hm.rpo.mem_iff.mpr h.1, hm.rpo.mem_iff.mpr h.2⟩

omit [DecidableEq V] in
theorem entry_not_mem (hm : m.Ready dummyEntry dummyExit) :
    dummyEntry ∉ (m.reachDefGraph dummyEntry dummyExit).rpo := by
  intro h
  rcases mem_rpo_reachDefGraph.mp h with h | h
  · exact hm.ne_entry h rfl
  · exact hm.distinct h.1

/-- Nothing leads to a node the analysis does not visit. -/
theorem preds_of_not_mem (hm : m.Ready dummyEntry dummyExit)
    (hv : v ∉ (m.reachDefGraph dummyEntry dummyExit).rpo) :
    (m.reachDef dummyEntry dummyExit params).problem.preds v = [] := by
  rw [List.eq_nil_iff_forall_not_mem]
  intro q hq
  apply hv
  apply mem_rpo_reachDefGraph.mpr
  rcases mem_allSucs_reachDefGraph.mp (Graph.mem_allPreds.mp hq) with h | ⟨_, h⟩ | ⟨hx, rfl⟩
  · exact Or.inl (hm.mem_rpo h).2
  · exact Or.inl (hm.rpo.mem_iff.mpr (hm.wellFormed.entryMem v h))
  · exact Or.inr ⟨rfl, q, hx⟩

/-- What a node generates in the analysis. -/
theorem mem_gen (hm : m.Ready dummyEntry dummyExit) (hd : m.DefAt params var d p) :
    d ∈ (m.reachDef dummyEntry dummyExit params).problem.gen v ↔
      (v ∈ m.graph.rpo ∧ p.1 = v ∧ 0 < p.2 ∧ m.Quiet var v p.2 (m.ins v).length) ∨
        (v = dummyEntry ∧ p.2 = 0) := by
  have hpos : p.2 = 0 ↔ ∃ i : Nat, i < params.length ∧ d = -((i : Int) + 1) := by
    cases hd with
    | ins hn =>
      have := firstLoc_nonneg hn
      constructor
      · exact fun h => absurd h (Nat.succ_ne_zero _)
      · rintro ⟨i, _, hi⟩
        omega
    | @param i e hi _ =>
      exact ⟨fun _ => ⟨i, (List.getElem?_eq_some_iff.mp hi).1, rfl⟩, fun _ => rfl⟩
  unfold BasicReachDef.problem
  dsimp only
  split
  next hv =>
    rcases mem_rpo_reachDefGraph.mp hv with hv | ⟨rfl, hx⟩
    · rw [mem_DB hm hv hd]
      constructor
      · exact fun h => Or.inl ⟨hv, h⟩
      · rintro (h | h)
        · exact h.2
        · exact absurd h.1 (hm.ne_entry hv)
    · have hnone : d ∉ (m.reachDef dummyEntry v params).DB v := by
        unfold BasicReachDef.DB
        rw [if_pos hv, List.mem_toFinset, List.mem_flatMap]
        rintro ⟨reg, _, hmem⟩
        have hdefs := (List.mem_filter.mp hmem).1
        unfold BasicReachDef.defs reachDef at hdefs
        dsimp only at hdefs
        rw [entry_reachDefGraph, if_neg fun h => hm.distinct (Option.some.inj h),
          getLocWithIns_of_not_mem hm.exit_not_mem] at hdefs
        unfold defsIn at hdefs
        split at hdefs <;> cases hdefs
      constructor
      · exact fun h => absurd h hnone
      · rintro (h | h)
        · exact absurd h.1 hm.exit_not_mem
        · exact absurd h.1.symm hm.distinct
  next hv =>
    rw [mem_startA, ← hpos]
    constructor
    · exact Or.inr
    · rintro (h | h)
      · exact absurd (mem_rpo_reachDefGraph.mpr (Or.inl h.1)) hv
      · exact h

/-- A fact of the analysis is carried along a path. -/
theorem carries_of_carried (hm : m.Ready dummyEntry dummyExit) (hd : m.DefAt params var d p)
    (h : (m.reachDef dummyEntry dummyExit params).problem.Carried d w) (hw : w ∈ m.graph.rpo) :
    m.Carries endExit var p (w, 0) := by
  induction h with
  | @born v w hp hgen =>
    rcases (mem_gen hm hd).mp hgen with ⟨hv, rfl, _, hquiet⟩ | ⟨rfl, hzero⟩
    · rcases (mem_preds_problem hm hw).mp hp with hsuc | ⟨hdummy, _⟩
      · have hle : p.2 ≤ (m.ins p.1).length := by
          cases hd with
          | ins _ hins => exact lt_of_getElem? hins
          | param => exact Nat.zero_le _
        exact Carries.exit (hquiet.carries hle le_rfl) hsuc
      · exact absurd hdummy (hm.ne_entry hv)
    · rcases (mem_preds_problem hm hw).mp hp with hsuc | ⟨_, hentry⟩
      · exact absurd rfl (hm.ne_entry (hm.mem_rpo hsuc).1)
      · cases hd with
        | ins => exact absurd hzero (Nat.succ_ne_zero _)
        | param _ he =>
          obtain rfl := Option.some.inj (he.symm.trans hentry)
          exact ReflTransGen.refl
  | @along v w hp _ hkill ih =>
    rcases (mem_preds_problem hm hw).mp hp with hsuc | ⟨rfl, _⟩
    · have hv := (hm.mem_rpo hsuc).1
      have hquiet : m.Quiet var v 0 (m.ins v).length := by
        by_contra hnot
        exact hkill ((mem_killedLocs hm hv hd).mpr hnot)
      exact Carries.exit ((ih hv).trans (hquiet.carries (Nat.zero_le _) le_rfl)) hsuc
    · rename_i hcarried
      have hnone := @preds_of_not_mem _ _ _ _ dummyExit params _ _ _ hm (entry_not_mem hm)
      cases hcarried with
      | born hq _ => rw [hnone] at hq; cases hq
      | along hq _ _ => rw [hnone] at hq; cases hq

/-- What a path carries is a fact of the analysis, unless it is still in the block
of the definition. -/
theorem carried_of_carries (hm : m.Ready dummyEntry dummyExit) (hd : m.DefAt params var d p)
    (h : m.Carries endExit var p q) :
    (p.1 = q.1 ∧ 0 < p.2 ∧ p.2 ≤ q.2 ∧ m.Quiet var q.1 p.2 q.2) ∨
      ((m.reachDef dummyEntry dummyExit params).problem.Carried d q.1 ∧
        m.Quiet var q.1 0 q.2) := by
  have hrpo : q.1 ∈ m.graph.rpo := by
    induction h with
    | refl => exact hd.point_mem hm
    | tail _ hstep ih =>
      cases hstep with
      | next => exact ih
      | leave hw => exact (hm.mem_rpo (List.mem_append_left _ hw)).2
      | caught hh => exact (hm.mem_rpo (List.mem_append_right _ hh)).2
  -- at the end of a block what is carried to it becomes a fact of its successors
  have hexit {v w : α} (hv : v ∈ m.graph.rpo) (hw : w ∈ m.graph.allSucs v)
      (hin : (p.1 = v ∧ 0 < p.2 ∧ p.2 ≤ (m.ins v).length ∧ m.Quiet var v p.2 (m.ins v).length) ∨
        ((m.reachDef dummyEntry dummyExit params).problem.Carried d v ∧
          m.Quiet var v 0 (m.ins v).length)) :
      (m.reachDef dummyEntry dummyExit params).problem.Carried d w := by
    have hpred : v ∈ (m.reachDef dummyEntry dummyExit params).problem.preds w :=
      (mem_preds_problem hm (hm.mem_rpo hw).2).mpr (Or.inl hw)
    rcases hin with ⟨hnode, hpos, _, hquiet⟩ | ⟨hcarried, hquiet⟩
    · exact GenKill.Problem.Carried.born hpred
        ((mem_gen hm hd).mpr (Or.inl ⟨hv, hnode, hpos, hquiet⟩))
    · exact GenKill.Problem.Carried.along hpred hcarried fun hkill =>
        (mem_killedLocs hm hv hd).mp hkill hquiet
  clear hrpo
  induction h with
  | refl =>
    cases hd with
    | ins => exact Or.inl ⟨rfl, Nat.succ_pos _, le_rfl, Quiet.refl⟩
    | @param i e hi he =>
      right
      have hmem := hm.rpo.mem_iff.mpr (hm.wellFormed.entryMem e he)
      refine ⟨GenKill.Problem.Carried.born
        ((mem_preds_problem hm hmem).mpr (Or.inr ⟨rfl, he⟩)) ?_, Quiet.refl⟩
      exact (mem_gen hm (DefAt.param hi he)).mpr (Or.inr ⟨rfl, rfl⟩)
  | tail hpath hstep ih =>
    cases hstep with
    | next hins hkeep =>
      rcases ih with ⟨hnode, hpos, hle, hquiet⟩ | ⟨hcarried, hquiet⟩
      · exact Or.inl ⟨hnode, hpos, Nat.le_succ_of_le hle, hquiet.next hins hkeep⟩
      · exact Or.inr ⟨hcarried, hquiet.next hins hkeep⟩
    | @leave v w hw =>
      have hall : w ∈ m.graph.allSucs v := List.mem_append_left _ hw
      exact Or.inr ⟨hexit (hm.mem_rpo hall).1 hall ih, Quiet.refl⟩
    | @caught v w k hh hk =>
      have hall : w ∈ m.graph.allSucs v := List.mem_append_right _ hh
      unfold endExit at hk
      subst hk
      exact Or.inr ⟨hexit (hm.mem_rpo hall).1 hall ih, Quiet.refl⟩

/-- A fact of the analysis reaches a point of a block that does not define the
register before it. -/
theorem carries_iff (hm : m.Ready dummyEntry dummyExit) (hd : m.DefAt params var d p)
    (hw : w ∈ m.graph.rpo) (hj : j ≤ (m.ins w).length) :
    m.Carries endExit var p (w, j) ↔
      (p.1 = w ∧ 0 < p.2 ∧ p.2 ≤ j ∧ m.Quiet var w p.2 j) ∨
        ((m.reachDef dummyEntry dummyExit params).problem.Carried d w ∧ m.Quiet var w 0 j) := by
  constructor
  · exact carried_of_carries hm hd
  · rintro (⟨rfl, _, hle, hquiet⟩ | ⟨hcarried, hquiet⟩)
    · exact hquiet.carries hle hj
    · exact (carries_of_carried hm hd hcarried hw).trans (hquiet.carries (Nat.zero_le j) hj)

end Paths

section Run

variable [DecidableEq α] [DecidableEq V]

omit [DecidableEq α] [DecidableEq V] in
theorem priorDef_spec {ldefs : List Int} {i prior : Int} {start : Int}
    (h : ldefs.foldl (fun prior v => if prior < v ∧ v < i then v else prior) start = prior) :
    start ≤ prior ∧ (prior = start ∨ (prior ∈ ldefs ∧ prior < i)) ∧
      ∀ v ∈ ldefs, v < i → v ≤ prior := by
  induction ldefs generalizing start with
  | nil =>
    subst h
    exact ⟨le_rfl, Or.inl rfl, fun v hv => absurd hv List.not_mem_nil⟩
  | cons v ldefs ih =>
    rw [List.foldl_cons] at h
    split at h
    next hlt =>
      obtain ⟨hle, hmem, hmax⟩ := ih h
      refine ⟨hlt.1.le.trans hle, Or.inr ?_, ?_⟩
      · rcases hmem with rfl | hmem
        · exact ⟨List.mem_cons_self, hlt.2⟩
        · exact ⟨List.mem_cons_of_mem v hmem.1, hmem.2⟩
      · intro w hw hwi
        rcases List.mem_cons.mp hw with rfl | hw
        · exact hle
        · exact hmax w hw hwi
    next hnot =>
      obtain ⟨hle, hmem, hmax⟩ := ih h
      refine ⟨hle, hmem.imp_right fun hmem => ⟨List.mem_cons_of_mem v hmem.1, hmem.2⟩, ?_⟩
      intro w hw hwi
      rcases List.mem_cons.mp hw with rfl | hw
      · by_contra hlt
        exact hnot ⟨by omega, hwi⟩
      · exact hmax w hw hwi

/-- The sets the iteration starts with and those it leaves. -/
theorem inv_start (hm : m.Ready dummyEntry dummyExit) :
    (m.reachDef dummyEntry dummyExit params).problem.Inv
      (m.reachDefGraph dummyEntry dummyExit).rpo.toFinset
      (m.reachDefGraph dummyEntry dummyExit).rpo
      { before := fun _ => ∅, after := (m.reachDef dummyEntry dummyExit params).startA } where
  queued := fun v hv => List.mem_toFinset.mpr hv
  outside := by
    intro v hv
    have hnot : v ∉ (m.reachDef dummyEntry dummyExit params).g.rpo :=
      fun h => hv (List.mem_toFinset.mpr h)
    exact (if_neg hnot).symm
  sound := fun v d hd => absurd hd (Finset.notMem_empty d)
  grown := fun v => Finset.empty_subset _
  grownAfter := by
    intro v hv d hd
    obtain ⟨rfl, _⟩ := mem_startA.mp hd
    exact absurd (List.mem_toFinset.mp hv) (entry_not_mem hm)
  settled := fun v hv hnot => absurd (List.mem_toFinset.mp hv) hnot

theorem closed_reachDefGraph (hm : m.Ready dummyEntry dummyExit) :
    ∀ v ∈ (m.reachDefGraph dummyEntry dummyExit).rpo.toFinset,
      ∀ w ∈ (m.reachDef dummyEntry dummyExit params).problem.sucs v,
        w ∈ (m.reachDefGraph dummyEntry dummyExit).rpo.toFinset := by
  intro v _ w hw
  rw [List.mem_toFinset, mem_rpo_reachDefGraph]
  rcases mem_allSucs_reachDefGraph.mp hw with h | ⟨_, h⟩ | ⟨hx, rfl⟩
  · exact Or.inl (hm.mem_rpo h).2
  · exact Or.inl (hm.rpo.mem_iff.mpr (hm.wellFormed.entryMem w h))
  · exact Or.inr ⟨rfl, v, hx⟩

/-- `run` comes to an end. -/
theorem exists_run (hm : m.Ready dummyEntry dummyExit) (params : List V) :
    ∃ fuel sets, (m.reachDef dummyEntry dummyExit params).run fuel = some sets := by
  let b := m.reachDef dummyEntry dummyExit params
  have hall : ∀ v, b.problem.gen v ⊆
      (b.g.rpo.toFinset.biUnion b.DB) ∪ (paramLocs params).toFinset := by
    intro v
    change (if v ∈ b.g.rpo then b.DB v else b.startA v) ⊆ _
    split
    next hv =>
      exact (Finset.subset_biUnion_of_mem b.DB (List.mem_toFinset.mpr hv)).trans
        Finset.subset_union_left
    next =>
      unfold BasicReachDef.startA
      split
      · exact Finset.subset_union_right
      · exact Finset.empty_subset _
  exact (inv_start hm).exists_run hall (closed_reachDefGraph hm)

theorem mem_R (hm : m.Ready dummyEntry dummyExit) {fuel : Nat} {sets : GenKill.Sets α Int}
    (hrun : (m.reachDef dummyEntry dummyExit params).run fuel = some sets)
    (hw : w ∈ m.graph.rpo) : d ∈ sets.before w ↔
      (m.reachDef dummyEntry dummyExit params).problem.Carried d w := by
  have hinv := (inv_start hm).run (closed_reachDefGraph hm) hrun
  apply hinv.mem_before_iff
  · intro v hv
    exact preds_of_not_mem hm fun h => hv (List.mem_toFinset.mpr h)
  · exact List.mem_toFinset.mpr (mem_rpo_reachDefGraph.mpr (Or.inl hw))

/-- What `BuildDefUse` finds for a use. -/
theorem mem_useDefs (hm : m.Ready dummyEntry dummyExit) {fuel : Nat} {sets : GenKill.Sets α Int}
    (hrun : (m.reachDef dummyEntry dummyExit params).run fuel = some sets)
    (hw : w ∈ m.graph.rpo) (hj : j ≤ (m.ins w).length) :
    d ∈ ((m.reachDef dummyEntry dummyExit params).useDefs sets.before w (m.firstLoc w + j)
        var).getD [] ↔
      ∃ p, m.DefAt params var d p ∧ m.Carries endExit var p (w, j) := by
  have hR (p : Point α) (hd : m.DefAt params var d p) := carries_iff hm hd hw hj
  unfold BasicReachDef.useDefs
  by_cases hnone : (m.reachDef dummyEntry dummyExit params).defToLoc var = []
  · rw [if_pos hnone]
    constructor
    · exact fun h => absurd h List.not_mem_nil
    · rintro ⟨p, hd, _⟩
      have hmem := (mem_defToLoc hm).mpr ⟨p, hd⟩
      rw [hnone] at hmem
      cases hmem
  · rw [if_neg hnone, defs_reachDef hm hw]
    obtain ⟨hstart, hprior, hmax⟩ :=
      @priorDef_spec (defsIn var (m.getLocWithIns w)) (m.firstLoc w + j) _ (-1) rfl
    change -1 ≤ priorDef _ _ at hstart
    change priorDef _ _ = -1 ∨ priorDef _ _ ∈ _ ∧ priorDef _ _ < _ at hprior
    change ∀ v ∈ _, v < _ → v ≤ priorDef _ _ at hmax
    generalize priorDef (defsIn var (m.getLocWithIns w)) (m.firstLoc w + j) = prior at *
    dsimp only
    split
    next hnonneg =>
      obtain ⟨hmem, hlt⟩ : prior ∈ defsIn var (m.getLocWithIns w) ∧ prior < m.firstLoc w + j := by
        rcases hprior with rfl | h
        · omega
        · exact h
      obtain ⟨k, ins, hins, hlhs, rfl⟩ := (mem_defsIn hw).mp hmem
      have hkj : k < j := by omega
      have hlast : m.Quiet var w (k + 1) j := by
        intro l ins' hkl hlj hins' hlhs'
        have hle := hmax _ ((mem_defsIn hw).mpr ⟨l, ins', hins', hlhs', rfl⟩) (by omega)
        omega
      rw [Option.getD_some, List.mem_singleton]
      constructor
      · rintro rfl
        exact ⟨(w, k + 1), DefAt.ins hw hins hlhs, hlast.carries hkj hj⟩
      · rintro ⟨p, hd, hcarries⟩
        rcases (hR p hd).mp hcarries with ⟨hnode, hpos, hle, hquiet⟩ | ⟨_, hquiet⟩
        · cases hd with
          | @ins n l ins' hn hins' hlhs' =>
            dsimp only at hnode hle hquiet
            subst hnode
            have hlk := hmax _ ((mem_defsIn hw).mpr ⟨l, ins', hins', hlhs', rfl⟩) (by omega)
            by_contra hne
            exact hquiet k ins (by omega) hkj hins hlhs
          | param => exact absurd hpos (Nat.lt_irrefl 0)
        · exact absurd hlhs (hquiet k ins (Nat.zero_le k) hkj hins)
    next hneg =>
      have hquiet : m.Quiet var w 0 j := by
        intro k ins _ hkj hins hlhs
        have hle := hmax _ ((mem_defsIn hw).mpr ⟨k, ins, hins, hlhs, rfl⟩) (by omega)
        have := firstLoc_nonneg hw
        omega
      rw [Option.getD_some, List.mem_filter, mem_defToLoc hm, decide_eq_true_eq, mem_R hm hrun hw]
      constructor
      · rintro ⟨⟨p, hd⟩, hcarried⟩
        exact ⟨p, hd, (hR p hd).mpr (Or.inr ⟨hcarried, hquiet⟩)⟩
      · rintro ⟨p, hd, hcarries⟩
        refine ⟨⟨p, hd⟩, ?_⟩
        rcases (hR p hd).mp hcarries with ⟨hnode, hpos, hle, _⟩ | ⟨hcarried, _⟩
        · cases hd with
          | @ins n l ins' hn hins' hlhs' =>
            dsimp only at hnode hle
            subst hnode
            exact absurd hlhs' (hquiet l ins' (Nat.zero_le l) hle hins')
          | param => exact absurd hpos (Nat.lt_irrefl 0)
        · exact hcarried

end Run


end MethodCode

end Dexllm.Dad
