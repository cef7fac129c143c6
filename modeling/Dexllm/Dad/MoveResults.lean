import Dexllm.Dad.ReturnCell

/-!
Which call a move-result reads. The cell holds the variable of the last call that was
built, so a move-result behind a block start reads its own call exactly when the block of
the call is built before and no block between them sets the cell.
-/

namespace Dexllm

open Guarded Bytes Leaders FreshCell

namespace MethodSnapshot

variable (m : MethodSnapshot)

/-- What a call does to the cell. -/
def callEffect : CallForm → Effect (Option Nat)
  | .filledArray => .fresh
  | .plain retType => if retType = ascii "V" then .keep else .fresh
  | .direct retType base =>
    if retType = ascii "V" then
      if base.isSome ∧ base = m.thisReg then .keep else .pin base
    else .fresh

/-- What an instruction does to the cell. -/
def effect (ri : RawIns) : Effect (Option Nat) :=
  match m.callForm ri with
  | none => .keep
  | some call => m.callEffect call

/-- The instruction builds a call node. -/
def BuildsCall (ri : RawIns) : Prop := (m.callForm ri).isSome = true

/-- The instruction is a filled-new-array, or an invoke that is built and returns a
value. -/
def Produces (ri : RawIns) : Prop := m.effect ri = .fresh

/-- The instructions in the order they are built. -/
def sequence : List RawIns := m.buildOrder.flatMap m.insOf

/-- The node of an instruction that meets a cell. -/
def nodeOf (ri : RawIns) (s : GenInvokeRetName) : ResultNode :=
  if isMoveResult ri.opcode then
    match s.last with
    | none => .other
    | some rhs => .moveResult (m.decoded ri).vA rhs
  else
    match m.callForm ri with
    | none => .other
    | some call => (m.buildCall call s).1

variable {m} {ri : RawIns} {s s' : GenInvokeRetName} {node : ResultNode}

theorem callForm_moveResult (h : isMoveResult ri.opcode = true) : m.callForm ri = none := by
  unfold isMoveResult at h
  simp only [Bool.or_eq_true, beq_iff_eq] at h
  unfold callForm
  obtain (h | h) | h := h <;>
    · rw [h]
      rfl

theorem callForm_monitor (h : isMonitor ri.opcode = true) : m.callForm ri = none := by
  unfold isMonitor at h
  simp only [Bool.or_eq_true, beq_iff_eq] at h
  unfold callForm
  obtain h | h := h <;>
    · rw [h]
      rfl

theorem buildCall_snd (call : CallForm) (s : GenInvokeRetName) :
    (m.buildCall call s).2 = s.step (m.callEffect call) := by
  cases call with
  | filledArray => rfl
  | plain retType =>
    unfold buildCall callEffect
    dsimp only
    split <;> rfl
  | direct retType base =>
    unfold buildCall callEffect
    dsimp only
    split
    · split <;> rfl
    · rfl

/-- A call that sets the cell assigns what the cell then holds. -/
theorem buildCall_fst {call : CallForm} (h : m.callEffect call ≠ .keep) (s : GenInvokeRetName) :
    (m.buildCall call s).1 = .call (s.step (m.callEffect call)).last := by
  cases call with
  | filledArray => rfl
  | plain retType =>
    unfold buildCall callEffect at *
    dsimp only at *
    split at h
    · exact absurd rfl h
    · rename_i hret
      rw [if_neg hret, if_neg hret]
  | direct retType base =>
    unfold buildCall callEffect at *
    dsimp only at *
    split at h
    · rename_i hret
      split at h
      · exact absurd rfl h
      · rename_i hbase
        rw [if_pos hret, if_neg hbase, if_pos hret, if_neg hbase]
        rfl
    · rename_i hret
      rw [if_neg hret, if_neg hret]

theorem dispatch_ok (h : m.dispatchInstruction ri s = .ok (node, s')) :
    s' = s.step (m.effect ri) ∧ node = m.nodeOf ri s ∧
      (isMoveResult ri.opcode = true → s.last.isSome = true) := by
  unfold dispatchInstruction at h
  unfold nodeOf effect
  by_cases hmove : isMoveResult ri.opcode = true
  · rw [if_pos hmove] at h
    rw [callForm_moveResult hmove, if_pos hmove]
    cases hlast : s.last with
    | none =>
      rw [hlast] at h
      cases h
    | some rhs =>
      rw [hlast] at h
      obtain ⟨rfl, rfl⟩ := Prod.mk.inj (Except.ok.inj h)
      exact ⟨rfl, rfl, fun _ => rfl⟩
  · rw [if_neg hmove] at h ⊢
    cases hcall : m.callForm ri with
    | none =>
      rw [hcall] at h
      obtain ⟨rfl, rfl⟩ := Prod.mk.inj (Except.ok.inj h)
      exact ⟨rfl, rfl, fun h => absurd h hmove⟩
    | some call =>
      rw [hcall] at h
      dsimp only at h ⊢
      split at h
      · cases h
      · have hpair : m.buildCall call s = (node, s') := Except.ok.inj h
        have hcell := buildCall_snd (m := m) call s
        rw [hpair] at hcell ⊢
        exact ⟨hcell, rfl, fun h => absurd h hmove⟩

/-- A node of a run is that of its instruction in the cell of the instructions before. -/
theorem buildNodeFromBlock_ok {l pre : List RawIns} {nodes : List (RawIns × ResultNode)}
    (h : m.buildNodeFromBlock l (run m.effect pre) = .ok (nodes, s')) :
    s' = run m.effect (pre ++ l) ∧
    (∀ ri node, (ri, node) ∈ nodes ↔ ∃ a b, l = a ++ ri :: b ∧ isMonitor ri.opcode = false ∧
      node = m.nodeOf ri (run m.effect (pre ++ a))) ∧
    ∀ a ri b, l = a ++ ri :: b → isMoveResult ri.opcode = true →
      (run m.effect (pre ++ a)).last.isSome = true := by
  induction l generalizing pre nodes s' with
  | nil =>
    obtain ⟨rfl, rfl⟩ := Prod.mk.inj (Except.ok.inj h)
    simp
  | cons ri rest ih =>
    unfold buildNodeFromBlock at h
    split at h
    · rename_i hmonitor
      have hkeep : run m.effect (pre ++ [ri]) = run m.effect pre := by
        rw [run_concat, effect, callForm_monitor hmonitor]
        rfl
      rw [← hkeep] at h
      obtain ⟨hcell, hnodes, hmoves⟩ := ih h
      refine ⟨by rw [hcell, List.append_assoc, List.singleton_append], fun rj node => ?_, ?_⟩
      · rw [hnodes]
        constructor
        · rintro ⟨a, b, rfl, hplain, hnode⟩
          exact ⟨ri :: a, b, rfl, hplain, by rw [hnode, List.append_assoc]; rfl⟩
        · rintro ⟨a, b, hsplit, hplain, hnode⟩
          cases a with
          | nil =>
            obtain ⟨rfl, rfl⟩ := List.cons.inj hsplit
            rw [hmonitor] at hplain
            cases hplain
          | cons x a =>
            obtain ⟨rfl, rfl⟩ := List.cons.inj hsplit
            exact ⟨a, b, rfl, hplain, by rw [hnode, List.append_assoc]; rfl⟩
      · intro a rj b hsplit hmove
        cases a with
        | nil =>
          obtain ⟨rfl, rfl⟩ := List.cons.inj hsplit
          unfold isMoveResult isMonitor at *
          simp only [Bool.or_eq_true, beq_iff_eq] at hmove hmonitor
          omega
        | cons x a =>
          obtain ⟨rfl, rfl⟩ := List.cons.inj hsplit
          have hlast := hmoves a rj b rfl hmove
          rwa [List.append_assoc] at hlast
    · rename_i hplain
      obtain ⟨⟨node, s₁⟩, hdispatch, h⟩ := bind_eq_ok.mp h
      obtain ⟨⟨more, s₂⟩, hrest, h⟩ := bind_eq_ok.mp h
      obtain ⟨rfl, rfl⟩ := Prod.mk.inj (Except.ok.inj h)
      obtain ⟨rfl, rfl, hmove⟩ := dispatch_ok hdispatch
      rw [← run_concat] at hrest
      obtain ⟨hcell, hnodes, hmoves⟩ := ih hrest
      refine ⟨by rw [hcell, List.append_assoc, List.singleton_append], fun rj node => ?_, ?_⟩
      · rw [List.mem_cons, hnodes]
        constructor
        · rintro (heq | ⟨a, b, rfl, hmon, hnode⟩)
          · obtain ⟨rfl, rfl⟩ := Prod.mk.inj heq
            exact ⟨[], rest, rfl, by simpa using hplain, by rw [List.append_nil]⟩
          · exact ⟨ri :: a, b, rfl, hmon, by rw [hnode, List.append_assoc]; rfl⟩
        · rintro ⟨a, b, hsplit, hmon, hnode⟩
          cases a with
          | nil =>
            obtain ⟨rfl, rfl⟩ := List.cons.inj hsplit
            rw [List.append_nil] at hnode
            exact Or.inl (by rw [hnode])
          | cons x a =>
            obtain ⟨rfl, rfl⟩ := List.cons.inj hsplit
            exact Or.inr ⟨a, b, rfl, hmon, by rw [hnode, List.append_assoc]; rfl⟩
      · intro a rj b hsplit hmove'
        cases a with
        | nil =>
          obtain ⟨rfl, rfl⟩ := List.cons.inj hsplit
          rw [List.append_nil]
          exact hmove hmove'
        | cons x a =>
          obtain ⟨rfl, rfl⟩ := List.cons.inj hsplit
          have hlast := hmoves a rj b rfl hmove'
          rwa [List.append_assoc] at hlast

theorem buildNodeFromBlock_append (l l' : List RawIns) (s : GenInvokeRetName) :
    m.buildNodeFromBlock (l ++ l') s = (do
      let (nodes, s) ← m.buildNodeFromBlock l s
      let (more, s) ← m.buildNodeFromBlock l' s
      pure (nodes ++ more, s)) := by
  induction l generalizing s with
  | nil =>
    change m.buildNodeFromBlock l' s = (do
      let (more, s) ← m.buildNodeFromBlock l' s
      pure (more, s))
    cases m.buildNodeFromBlock l' s <;> rfl
  | cons ri rest ih =>
    rw [List.cons_append, buildNodeFromBlock, buildNodeFromBlock]
    split
    · exact ih s
    · cases m.dispatchInstruction ri s with
      | error e => rfl
      | ok r =>
        obtain ⟨node, s⟩ := r
        change (do
          let (nodes, s) ← m.buildNodeFromBlock (rest ++ l') s
          pure ((ri, node) :: nodes, s)) = _
        rw [ih s]
        change _ = ((do
          let (nodes, s) ← m.buildNodeFromBlock rest s
          pure ((ri, node) :: nodes, s)) >>= fun r => (do
            let (more, s) ← m.buildNodeFromBlock l' r.2
            pure (r.1 ++ more, s)))
        cases m.buildNodeFromBlock rest s with
        | error e => rfl
        | ok r =>
          obtain ⟨nodes, s⟩ := r
          change ((do
            let (more, s) ← m.buildNodeFromBlock l' s
            pure (nodes ++ more, s)) >>= fun r => pure ((ri, node) :: r.1, r.2)) = (do
              let (more, s) ← m.buildNodeFromBlock l' s
              pure ((ri, node) :: nodes ++ more, s))
          cases m.buildNodeFromBlock l' s <;> rfl

/-- The blocks are built as one run of instructions. -/
theorem buildBlocks_eq (ids : List Nat) (s : GenInvokeRetName) :
    m.buildBlocks ids s = m.buildNodeFromBlock (ids.flatMap m.insOf) s := by
  induction ids generalizing s with
  | nil => rfl
  | cons id rest ih =>
    rw [List.flatMap_cons, buildNodeFromBlock_append, buildBlocks]
    simp only [ih]

/-- The nodes of `Construct`. -/
theorem construct_ok {nodes : List (RawIns × ResultNode)} (h : m.construct = .ok nodes) :
    (∀ ri node, (ri, node) ∈ nodes ↔ ∃ a b, m.sequence = a ++ ri :: b ∧
      isMonitor ri.opcode = false ∧ node = m.nodeOf ri (run m.effect a)) ∧
    ∀ a ri b, m.sequence = a ++ ri :: b → isMoveResult ri.opcode = true →
      (run m.effect a).last.isSome = true := by
  unfold construct at h
  rw [buildBlocks_eq] at h
  obtain ⟨⟨nodes', s'⟩, hbuild, h⟩ := bind_eq_ok.mp h
  obtain rfl := Except.ok.inj h
  have hrun := @buildNodeFromBlock_ok m s' _ [] _ hbuild
  simp only [List.nil_append] at hrun
  exact hrun.2

/-- A value in the cell is the result of a call that was built. -/
theorem call_of_last {nodes : List (RawIns × ResultNode)} (h : m.construct = .ok nodes)
    {a b : List RawIns} (hseq : m.sequence = a ++ b) {v : ResultVar}
    (hlast : (run m.effect a).last = some v) : ∃ q, (q, .call (some v)) ∈ nodes := by
  obtain ⟨pre, q, post, rfl, hset, hne, -⟩ := last_set hlast
  obtain ⟨call, hcall⟩ : ∃ call, m.callForm q = some call := by
    cases hform : m.callForm q with
    | none => exact absurd (by rw [effect, hform]) hne
    | some call => exact ⟨call, rfl⟩
  have heffect : m.effect q = m.callEffect call := by rw [effect, hcall]
  have hmove : ¬isMoveResult q.opcode = true := fun h => by
    rw [callForm_moveResult h] at hcall
    cases hcall
  have hmonitor : isMonitor q.opcode = false := by
    rw [Bool.eq_false_iff]
    intro h
    rw [callForm_monitor h] at hcall
    cases hcall
  refine ⟨q, ((construct_ok h).1 q _).mpr ⟨pre, post ++ b, ?_, hmonitor, ?_⟩⟩
  · rw [hseq, List.append_assoc, List.cons_append]
  · rw [heffect] at hne
    rw [run_concat, heffect] at hset
    rw [nodeOf, if_neg hmove, hcall]
    dsimp only
    rw [buildCall_fst hne, hset]

/-- The value the IR of a move-result copies is the variable the IR of the instruction
before it assigns, when that one has a result; and no variable of a call, when that one
builds none. -/
def ReadsOwnCall (m : MethodSnapshot) (nodes : List (RawIns × ResultNode)) (prev p : RawIns) :
    Prop :=
  (m.Produces prev → ∃ v dst, (prev, .call (some v)) ∈ nodes ∧ (p, .moveResult dst v) ∈ nodes) ∧
    (¬m.BuildsCall prev →
      ∀ q v dst, (q, .call (some v)) ∈ nodes → (p, .moveResult dst v) ∉ nodes)

/-- Nothing that is built between the two sets the cell. -/
def BuiltNext (m : MethodSnapshot) (prev p : RawIns) : Prop :=
  ∃ a mid b, m.sequence = a ++ prev :: (mid ++ p :: b) ∧ ∀ ri ∈ mid, m.effect ri = .keep

theorem readsOwnCall_iff {nodes : List (RawIns × ResultNode)} (h : m.construct = .ok nodes)
    {prev p : RawIns} (hp : p ∈ m.sequence) (hmove : isMoveResult p.opcode = true) :
    m.ReadsOwnCall nodes prev p ↔
      m.BuildsCall prev ∧ (m.Produces prev → m.BuiltNext prev p) := by
  obtain ⟨hnodes, hcell⟩ := construct_ok h
  have hplain : isMonitor p.opcode = false := by
    unfold isMoveResult isMonitor at *
    simp only [Bool.or_eq_true, beq_iff_eq] at hmove
    simp only [Bool.or_eq_false_iff, beq_eq_false_iff_ne]
    omega
  have hread {v : ResultVar} {dst : Nat} : (p, .moveResult dst v) ∈ nodes ↔
      dst = (m.decoded p).vA ∧
        ∃ a b, m.sequence = a ++ p :: b ∧ (run m.effect a).last = some v := by
    rw [hnodes]
    constructor
    · rintro ⟨a, b, hseq, -, hnode⟩
      obtain ⟨w, hw⟩ := Option.isSome_iff_exists.mp (hcell a p b hseq hmove)
      rw [nodeOf, if_pos hmove, hw] at hnode
      obtain ⟨rfl, rfl⟩ := ResultNode.moveResult.inj hnode
      exact ⟨rfl, a, b, hseq, hw⟩
    · rintro ⟨rfl, a, b, hseq, hlast⟩
      exact ⟨a, b, hseq, hplain, by rw [nodeOf, if_pos hmove, hlast]⟩
  have hassign (hprod : m.Produces prev) {v : ResultVar} : (prev, .call (some v)) ∈ nodes ↔
      ∃ a b, m.sequence = a ++ prev :: b ∧ v = .fresh ((run m.effect a).num + 1) := by
    obtain ⟨call, hcall⟩ : ∃ call, m.callForm prev = some call := by
      cases hform : m.callForm prev with
      | none =>
        unfold Produces effect at hprod
        rw [hform] at hprod
        cases hprod
      | some call => exact ⟨call, rfl⟩
    have heffect : m.callEffect call = .fresh := by
      unfold Produces effect at hprod
      rwa [hcall] at hprod
    have hnode (s : GenInvokeRetName) :
        m.nodeOf prev s = .call (some (.fresh (s.num + 1))) := by
      have hprev : ¬isMoveResult prev.opcode = true := fun h => by
        rw [callForm_moveResult h] at hcall
        cases hcall
      rw [nodeOf, if_neg hprev, hcall]
      dsimp only
      rw [buildCall_fst (by rw [heffect]; exact fun h => by cases h), heffect]
      rfl
    have hprevPlain : isMonitor prev.opcode = false := by
      rw [Bool.eq_false_iff]
      intro h
      rw [callForm_monitor h] at hcall
      cases hcall
    rw [hnodes]
    constructor
    · rintro ⟨a, b, hseq, -, heq⟩
      rw [hnode] at heq
      exact ⟨a, b, hseq, Option.some.inj (ResultNode.call.inj heq)⟩
    · rintro ⟨a, b, hseq, rfl⟩
      exact ⟨a, b, hseq, hprevPlain, (hnode _).symm⟩
  have hown (hprod : m.Produces prev) : (∃ v dst, (prev, .call (some v)) ∈ nodes ∧
      (p, .moveResult dst v) ∈ nodes) ↔ m.BuiltNext prev p := by
    constructor
    · rintro ⟨v, dst, hcall, hcopy⟩
      obtain ⟨a, b, hseq, rfl⟩ := (hassign hprod).mp hcall
      obtain ⟨-, a', b', hseq', hlast⟩ := hread.mp hcopy
      have hpre : a ++ [prev] <+: m.sequence := ⟨b, by rw [hseq, List.append_assoc]; rfl⟩
      obtain ⟨mid, rfl, hmid⟩ := (last_minted_iff hpre ⟨p :: b', hseq'.symm⟩ hprod).mp hlast
      exact ⟨a, mid, b', by rw [hseq', List.append_assoc]; rfl, hmid⟩
    · rintro ⟨a, mid, b, hseq, hmid⟩
      have hpre : a ++ [prev] <+: m.sequence :=
        ⟨mid ++ p :: b, by rw [hseq, List.append_assoc]; rfl⟩
      have hseq' : m.sequence = (a ++ prev :: mid) ++ p :: b := by
        rw [hseq, List.append_assoc]
        rfl
      have hlast := (last_minted_iff hpre ⟨p :: b, hseq'.symm⟩ hprod).mpr ⟨mid, rfl, hmid⟩
      exact ⟨_, _, (hassign hprod).mpr ⟨a, _, hseq, rfl⟩, hread.mpr ⟨rfl, _, b, hseq', hlast⟩⟩
  obtain ⟨a, b, hseq⟩ := List.append_of_mem hp
  obtain ⟨v, hv⟩ := Option.isSome_iff_exists.mp (hcell a p b hseq hmove)
  obtain ⟨q, hq⟩ := call_of_last h hseq hv
  have hcopies : (p, .moveResult (m.decoded p).vA v) ∈ nodes := hread.mpr ⟨rfl, a, b, hseq, hv⟩
  unfold ReadsOwnCall
  constructor
  · rintro ⟨hresult, hnone⟩
    refine ⟨?_, fun hprod => (hown hprod).mp (hresult hprod)⟩
    by_contra hcall
    exact hnone hcall q v _ hq hcopies
  · rintro ⟨hcall, hnext⟩
    exact ⟨fun hprod => (hown hprod).mpr (hnext hprod), fun hnone => absurd hcall hnone⟩

/-! The blocks. -/

/-- Both instructions are in one block, or the block of the first is built before that of
the second and no block in between sets the cell. -/
def HandedOver (m : MethodSnapshot) (prev p : RawIns) : Prop :=
  (∃ id, prev ∈ m.insOf id ∧ p ∈ m.insOf id) ∨
    ∃ before i between j after, m.buildOrder = before ++ i :: (between ++ j :: after) ∧
      prev ∈ m.insOf i ∧ p ∈ m.insOf j ∧
      ∀ k ∈ between, ∀ ri ∈ m.insOf k, m.effect ri = .keep

/-- The blocks cut the code into stretches. -/
structure Partitioned (m : MethodSnapshot) (prev p : RawIns) : Prop where
  nodup : ∀ id, (m.insOf id).Nodup
  alone : ∀ ri i j, ri ∈ m.insOf i → ri ∈ m.insOf j → i = j
  together : ∀ id, prev ∈ m.insOf id → p ∈ m.insOf id → ∃ x y, m.insOf id = x ++ prev :: p :: y
  ends : ∀ i j, i ≠ j → prev ∈ m.insOf i → p ∈ m.insOf j → ∃ x, m.insOf i = x ++ [prev]
  begins : ∀ i j, i ≠ j → prev ∈ m.insOf i → p ∈ m.insOf j → ∃ y, m.insOf j = p :: y

theorem nodup_buildOrder : m.buildOrder.Nodup := by
  unfold buildOrder
  split
  · exact List.nodup_nil
  · exact BreadthFirst.nodup_search (List.nodup_singleton _)

variable {prev p : RawIns}

theorem nodup_sequence (hpart : m.Partitioned prev p) : m.sequence.Nodup := by
  refine List.nodup_flatMap.mpr ⟨fun id _ => hpart.nodup id, ?_⟩
  refine nodup_buildOrder.imp fun hne => ?_
  exact fun ri hi hj => hne (hpart.alone ri _ _ hi hj)

theorem split_unique {l a b a' b' : List RawIns} (hnodup : l.Nodup) (h : l = a ++ ri :: b)
    (h' : l = a' ++ ri :: b') : a = a' ∧ b = b' := by
  have hsplit := hnodup
  rw [h, List.nodup_middle, List.nodup_cons, List.mem_append, not_or] at hsplit
  rw [h] at h'
  obtain ⟨ha, -, hb⟩ := (List.append_cons_inj_of_notMem hsplit.1.1 hsplit.1.2).mp h'
  exact ⟨ha, hb⟩

theorem builtNext_iff (hpart : m.Partitioned prev p) (hp : p ∈ m.sequence) :
    m.BuiltNext prev p ↔ m.HandedOver prev p := by
  have hnodup := nodup_sequence hpart
  constructor
  · rintro ⟨a, mid, b, hseq, hmid⟩
    have hprev : prev ∈ m.sequence := by simp [hseq]
    obtain ⟨i, hi, hprevi⟩ := List.mem_flatMap.mp hprev
    obtain ⟨j, hj, hpj⟩ := List.mem_flatMap.mp hp
    obtain rfl | hne := eq_or_ne i j
    · exact Or.inl ⟨i, hprevi, hpj⟩
    · obtain ⟨x, hx⟩ := hpart.ends i j hne hprevi hpj
      obtain ⟨y, hy⟩ := hpart.begins i j hne hprevi hpj
      obtain ⟨before, rest, horder⟩ := List.append_of_mem hi
      have hflat : m.sequence = (before.flatMap m.insOf ++ x) ++ prev :: rest.flatMap m.insOf := by
        simp [sequence, horder, hx]
      obtain ⟨rfl, hrest⟩ := split_unique hnodup hseq hflat
      have hlater : p ∉ before.flatMap m.insOf := by
        intro hbefore
        rw [hseq] at hnodup
        exact List.disjoint_of_nodup_append hnodup (List.mem_append_left x hbefore) (by simp)
      rw [horder, List.mem_append, List.mem_cons] at hj
      obtain hj | rfl | hj := hj
      · exact absurd (List.mem_flatMap.mpr ⟨j, hj, hpj⟩) hlater
      · exact absurd rfl hne
      · obtain ⟨between, after, rfl⟩ := List.append_of_mem hj
        have hflat' : mid ++ p :: b =
            between.flatMap m.insOf ++ p :: (y ++ after.flatMap m.insOf) := by
          rw [hrest]
          simp [hy]
        have htail : (mid ++ p :: b).Nodup := by
          rw [hseq] at hnodup
          exact (List.nodup_cons.mp (List.nodup_append.mp hnodup).2.1).2
        obtain ⟨rfl, -⟩ := split_unique htail rfl hflat'
        refine Or.inr ⟨before, i, between, j, after, horder, hprevi, hpj, fun k hk ri hri => ?_⟩
        exact hmid ri (List.mem_flatMap.mpr ⟨k, hk, hri⟩)
  · rintro (⟨id, hprev, hpid⟩ | ⟨before, i, between, j, after, horder, hprev, hpj, hkeep⟩)
    · obtain ⟨id', hid', hp'⟩ := List.mem_flatMap.mp hp
      obtain rfl := hpart.alone p id id' hpid hp'
      obtain ⟨x, y, hins⟩ := hpart.together id hprev hpid
      obtain ⟨before, after, horder⟩ := List.append_of_mem hid'
      refine ⟨before.flatMap m.insOf ++ x, [], y ++ after.flatMap m.insOf, ?_, by simp⟩
      simp [sequence, horder, hins]
    · have hne : i ≠ j := by
        have hdistinct := @nodup_buildOrder m
        rw [horder] at hdistinct
        rintro rfl
        simp [List.nodup_append] at hdistinct
      obtain ⟨x, hx⟩ := hpart.ends i j hne hprev hpj
      obtain ⟨y, hy⟩ := hpart.begins i j hne hprev hpj
      refine ⟨before.flatMap m.insOf ++ x, between.flatMap m.insOf,
        y ++ after.flatMap m.insOf, ?_, fun ri hri => ?_⟩
      · simp [sequence, horder, hx, hy]
      · obtain ⟨k, hk, hri⟩ := List.mem_flatMap.mp hri
        exact hkeep k hk ri hri

end MethodSnapshot

namespace CodeItem

variable {c : CodeItem} {ins : List RawIns} {typeName : Nat → Text} {source : CallSource}
  {thisReg : Option Nat} {prev p : RawIns}

theorem blockIns_sublist (start end_ : Nat) : (blockIns ins start end_).Sublist ins := by
  have hdrop := List.dropWhile_sublist (fun ri => decide (ri.byteOff < start)) (l := ins)
  unfold blockIns
  split
  · exact List.nil_sublist ins
  · rename_i first rest heq
    split
    · rw [heq] at hdrop
      exact ((List.takeWhile_sublist _).cons_cons first).trans hdrop
    · exact List.nil_sublist ins

theorem insOf_snapshot {id : Nat} {ri : RawIns}
    (h : ri ∈ (c.snapshot typeName source thisReg ins).insOf id) :
    ∃ blk, (c.splitIntoBlocks ins)[id]? = some blk ∧
      (c.snapshot typeName source thisReg ins).insOf id = blk.ins := by
  unfold MethodSnapshot.insOf snapshot computeChildEdges at *
  dsimp only at *
  rw [List.getElem?_map] at *
  cases hblk : (c.splitIntoBlocks ins)[id]? with
  | none =>
    rw [hblk] at h
    cases h
  | some blk => exact ⟨blk, rfl, rfl⟩

theorem startByte_splitIntoBlocks {id : Nat} {blk : RawBlock}
    (h : (c.splitIntoBlocks ins)[id]? = some blk) :
    ∃ hid : id < (c.leaders ins).length, blk.startByte = (c.leaders ins)[id] := by
  unfold splitIntoBlocks at h
  rw [List.getElem?_map, Option.map_eq_some_iff] at h
  obtain ⟨i, hi, rfl⟩ := h
  obtain ⟨hlt, rfl⟩ := List.getElem?_eq_some_iff.mp hi
  rw [List.length_range] at hlt
  refine ⟨hlt, ?_⟩
  simp only [List.getElem_range]
  exact List.getD_eq_getElem _ 0 hlt

/-- The blocks of a snapshot are stretches of the code. -/
theorem partitioned_snapshot (hins : c.decodeAllFrom c.insnsSize 0 = .ok ins)
    (hcode : [prev, p] <:+: ins) :
    (c.snapshot typeName source thisReg ins).Partitioned prev p := by
  obtain ⟨hordered, hrange⟩ := ordered_of_decodeAllFrom hins
  have hinside : ∀ ri ∈ ins, ri.byteOff < c.codeBytes := fun ri hri => (hrange ri hri).2
  have hblock {id : Nat} {ri : RawIns}
      (h : ri ∈ (c.snapshot typeName source thisReg ins).insOf id) :
      ∃ blk, (c.splitIntoBlocks ins)[id]? = some blk ∧
        (c.snapshot typeName source thisReg ins).insOf id = blk.ins ∧ c.IsBlock ins blk ∧
        blk.ins.Pairwise fun a b => a.byteOff < b.byteOff := by
    obtain ⟨blk, hid, heq⟩ := insOf_snapshot h
    refine ⟨blk, hid, heq, isBlock_of_mem hordered hinside (List.mem_of_getElem? hid), ?_⟩
    obtain ⟨i, -, rfl⟩ := List.mem_map.mp (List.mem_of_getElem? hid)
    exact hordered.sublist (blockIns_sublist _ _)
  obtain ⟨u, w, hsplit⟩ := hcode
  have hpairs := hordered
  rw [← hsplit, List.append_assoc, List.cons_append, List.singleton_append,
    List.pairwise_append, List.pairwise_cons, List.pairwise_cons] at hpairs
  obtain ⟨-, ⟨hprevAll, hpAll, -⟩, huAll⟩ := hpairs
  have hlt : prev.byteOff < p.byteOff := hprevAll p List.mem_cons_self
  have hbetween {ri : RawIns} (hri : ri ∈ ins) :
      ri.byteOff ≤ prev.byteOff ∨ p.byteOff ≤ ri.byteOff := by
    rw [← hsplit, List.append_assoc, List.mem_append] at hri
    obtain hu | hri := hri
    · exact Or.inl (Nat.le_of_lt (huAll ri hu prev List.mem_cons_self))
    · obtain rfl | hri := List.mem_cons.mp hri
      · exact Or.inl (Nat.le_refl _)
      · obtain rfl | hw := List.mem_cons.mp hri
        · exact Or.inr (Nat.le_refl _)
        · exact Or.inr (Nat.le_of_lt (hpAll ri hw))
  have halone {ri : RawIns} {i j : Nat}
      (hi : ri ∈ (c.snapshot typeName source thisReg ins).insOf i)
      (hj : ri ∈ (c.snapshot typeName source thisReg ins).insOf j) : i = j := by
    obtain ⟨blk, hid, heq, hblk, -⟩ := hblock hi
    obtain ⟨blk', hid', heq', hblk', -⟩ := hblock hj
    rw [heq] at hi
    rw [heq'] at hj
    obtain ⟨-, hlow, hhigh⟩ := (hblk.within ri).mp hi
    obtain ⟨-, hlow', hhigh'⟩ := (hblk'.within ri).mp hj
    have hle := hblk.alone _ hblk'.starts (by omega)
    have hge := hblk'.alone _ hblk.starts (by omega)
    obtain ⟨hlen, hstart⟩ := startByte_splitIntoBlocks hid
    obtain ⟨hlen', hstart'⟩ := startByte_splitIntoBlocks hid'
    have hleaders : (c.leaders ins).Nodup := (pairwise_ascending _).imp Nat.ne_of_lt
    exact hleaders.getElem_inj_iff.mp (by omega)
  refine ⟨fun id => ?_, fun ri i j hi hj => halone hi hj, fun id hprev hp => ?_,
    fun i j hne hprev hp => ?_, fun i j hne hprev hp => ?_⟩
  · cases hlist : (c.snapshot typeName source thisReg ins).insOf id with
    | nil => exact List.nodup_nil
    | cons ri rest =>
      have hfirst : ri ∈ (c.snapshot typeName source thisReg ins).insOf id := by simp [hlist]
      obtain ⟨blk, -, heq, -, hsorted⟩ := hblock hfirst
      rw [← hlist, heq]
      exact hsorted.imp fun hab heq => by rw [heq] at hab; exact Nat.lt_irrefl _ hab
  · obtain ⟨blk, -, heq, hblk, hsorted⟩ := hblock hprev
    rw [heq] at hprev hp ⊢
    obtain ⟨x, z, hx⟩ := List.append_of_mem hprev
    rw [hx, List.pairwise_append, List.pairwise_cons] at hsorted
    obtain ⟨-, ⟨hz, hzs⟩, hxz⟩ := hsorted
    have hpz : p ∈ z := by
      rw [hx, List.mem_append, List.mem_cons] at hp
      obtain hp | rfl | hp := hp
      · have := hxz p hp prev List.mem_cons_self
        omega
      · omega
      · exact hp
    obtain ⟨z₁, z₂, rfl⟩ := List.append_of_mem hpz
    cases z₁ with
    | nil => exact ⟨x, z₂, hx⟩
    | cons t z₁ =>
      have htins : t ∈ ins := ((hblk.within t).mp (by simp [hx])).1
      have hprevt := hz t (by simp)
      have htp : t.byteOff < p.byteOff := (List.pairwise_cons.mp hzs).1 p (by simp)
      have := hbetween htins
      omega
  · obtain ⟨blk, -, heq, hblk, hsorted⟩ := hblock hprev
    have hpnot : p ∉ blk.ins := fun h => hne (halone (by rwa [heq]) hp)
    rw [heq] at hprev ⊢
    obtain ⟨x, z, hx⟩ := List.append_of_mem hprev
    cases z with
    | nil => exact ⟨x, hx⟩
    | cons t z =>
      rw [hx, List.pairwise_append, List.pairwise_cons] at hsorted
      obtain ⟨htins, -, hthigh⟩ := (hblk.within t).mp (by simp [hx])
      have hprevt := hsorted.2.1.1 t List.mem_cons_self
      have hprevlow := ((hblk.within prev).mp hprev).2.1
      have htp := hbetween htins
      have hpins : p ∈ ins := hsplit ▸ by simp
      exact absurd ((hblk.within p).mpr ⟨hpins, by omega, by omega⟩) hpnot
  · obtain ⟨blk, -, heq, hblk, hsorted⟩ := hblock hp
    have hprevnot : prev ∉ blk.ins := fun h => hne (halone hprev (by rwa [heq]))
    rw [heq] at hp ⊢
    obtain ⟨x, z, hx⟩ := List.append_of_mem hp
    cases x with
    | nil => exact ⟨z, hx⟩
    | cons t x =>
      rw [hx, List.pairwise_append] at hsorted
      obtain ⟨htins, htlow, -⟩ := (hblk.within t).mp (by simp [hx])
      have htp := hsorted.2.2 t List.mem_cons_self p List.mem_cons_self
      have hphigh := ((hblk.within p).mp hp).2.2
      have htprev := hbetween htins
      have hprevins : prev ∈ ins := hsplit ▸ by simp
      exact absurd ((hblk.within prev).mpr ⟨hprevins, by omega, by omega⟩) hprevnot

/-- The blocks control reaches from the entry over child and handler edges. -/
def Reached (m : MethodSnapshot) (id : Nat) : Prop :=
  ∃ entry, m.entry = some entry ∧ BreadthFirst.Reaches m.succs entry id

theorem mem_sequence_of_reached {m : MethodSnapshot} (hentry : ∀ e, m.entry = some e →
    e < m.blocks.length) {id : Nat} (hid : Reached m id) {ri : RawIns} (hri : ri ∈ m.insOf id) :
    ri ∈ m.sequence := by
  obtain ⟨entry, hsome, hreach⟩ := hid
  have hspace : ∀ v, ∀ t ∈ m.succs v, t ∈ List.range m.blocks.length := by
    intro v t ht
    unfold MethodSnapshot.succs at ht
    split at ht
    · cases ht
    · exact List.mem_range.mpr (by simpa using (List.mem_filter.mp ht).2)
  have hrounds : (List.range m.blocks.length).length < m.blocks.length + 1 := by simp
  have hstart : entry ∈ List.range m.blocks.length := List.mem_range.mpr (hentry entry hsome)
  have hsearch := (BreadthFirst.mem_search_iff hspace hstart hrounds).mpr hreach
  refine List.mem_flatMap.mpr ⟨id, ?_, hri⟩
  unfold MethodSnapshot.buildOrder
  rw [hsome]
  exact hsearch

/-- For a move-result that control reaches and the instruction before it in the code: it
copies the variable of that instruction's call, or of no other call, exactly when that
instruction builds a call and, where it produces a value, hands it over. -/
theorem move_result_own_call_iff (c : CodeItem) (typeName : Nat → Text) (source : CallSource)
    (thisReg : Option Nat) {ins : List RawIns} (hins : c.decodeAllFrom c.insnsSize 0 = .ok ins)
    {nodes : List (RawIns × ResultNode)}
    (hbuilt : (c.snapshot typeName source thisReg ins).construct = .ok nodes) {id : Nat}
    (hid : Reached (c.snapshot typeName source thisReg ins) id) {prev p : RawIns}
    (hp : p ∈ (c.snapshot typeName source thisReg ins).insOf id)
    (hmove : isMoveResult p.opcode = true) (hcode : [prev, p] <:+: ins) :
    (c.snapshot typeName source thisReg ins).ReadsOwnCall nodes prev p ↔
      (c.snapshot typeName source thisReg ins).BuildsCall prev ∧
        ((c.snapshot typeName source thisReg ins).Produces prev →
          (c.snapshot typeName source thisReg ins).HandedOver prev p) := by
  have hentry : ∀ e, (c.snapshot typeName source thisReg ins).entry = some e →
      e < (c.snapshot typeName source thisReg ins).blocks.length := by
    intro e he
    obtain ⟨first, -, hfind⟩ := Option.bind_eq_some_iff.mp he
    exact (List.findIdx?_eq_some_iff_getElem.mp hfind).1
  have hseq := mem_sequence_of_reached hentry hid hp
  rw [MethodSnapshot.readsOwnCall_iff hbuilt hseq hmove,
    MethodSnapshot.builtNext_iff (partitioned_snapshot hins hcode) hseq]

end CodeItem

/-! A call whose move-result starts a try. -/

/-- A bare header with one type and the code item of `if-eqz v0, L; filled-new-array;
move-result-object v0; return-void; L: filled-new-array; return-void`, a try over the
move-result and a catch-all at the last instruction. -/
def splitCallImage : Memory :=
  List.replicate 32 0 ++ [163, 0, 0, 0] ++ List.replicate 28 0 ++ [1, 0, 0, 0] ++
    List.replicate 44 0 ++ [1, 0, 0, 0, 0, 0, 1, 0, 0, 0, 0, 0, 11, 0, 0, 0] ++
    [0x38, 0, 7, 0, 0x24, 0, 0, 0, 0, 0, 0x0C, 0, 0x0E, 0, 0x24, 0, 0, 0, 0, 0, 0x0E, 0, 0, 0] ++
    [5, 0, 0, 0, 1, 0, 1, 0] ++ [1, 0, 10]

set_option maxRecDepth 20000 in
def splitCallVerifier : Verifier :=
  ⟨splitCallImage, 0, headerAt splitCallImage 0, ⟨0, 163, by decide⟩, true⟩

def splitCallIns : List RawIns :=
  [{ byteOff := 0, opcode := 0x38, branchTarget := 14 }, { byteOff := 4, opcode := 0x24 },
    { byteOff := 10, opcode := 0x0C }, { byteOff := 12, opcode := 0x0E },
    { byteOff := 14, opcode := 0x24 }, { byteOff := 20, opcode := 0x0E }]

def splitCallSource : CallSource := ⟨fun _ => [], fun _ => [], fun _ => (false, [])⟩

def splitCall : MethodSnapshot :=
  (splitCallVerifier.codeItem 112).snapshot (fun _ => []) splitCallSource none splitCallIns

/-- The second call is built between the first and its move-result. -/
def splitCallNodes : List (RawIns × ResultNode) :=
  [({ byteOff := 0, opcode := 0x38, branchTarget := 14 }, .other),
    ({ byteOff := 4, opcode := 0x24 }, .call (some (.fresh 1))),
    ({ byteOff := 14, opcode := 0x24 }, .call (some (.fresh 2))),
    ({ byteOff := 10, opcode := 0x0C }, .moveResult 0 (.fresh 2)),
    ({ byteOff := 12, opcode := 0x0E }, .other), ({ byteOff := 20, opcode := 0x0E }, .other)]

set_option maxRecDepth 20000 in
theorem splitCall_runs : splitCallVerifier.verifyCodeItem 112 = .ok () ∧
    (splitCallVerifier.codeItem 112).decodeAllFrom (splitCallVerifier.codeItem 112).insnsSize 0 =
      .ok splitCallIns ∧
    splitCall.construct = .ok splitCallNodes ∧ splitCall.entry = some 0 ∧
    splitCall.succs 0 = [1, 3] ∧ splitCall.succs 1 = [2] ∧
    splitCall.insOf 2 = [{ byteOff := 10, opcode := 0x0C }, { byteOff := 12, opcode := 0x0E }] ∧
    splitCall.effect { byteOff := 4, opcode := 0x24 } = .fresh := by
  decide

theorem reached_splitCall : CodeItem.Reached splitCall 2 := by
  obtain ⟨-, -, -, hentry, hzero, hone, -⟩ := splitCall_runs
  have hfirst : 1 ∈ splitCall.succs 0 := by
    rw [hzero]
    decide
  have hsecond : 2 ∈ splitCall.succs 1 := by
    rw [hone]
    decide
  have hone' : BreadthFirst.Reaches splitCall.succs 0 1 := .single hfirst
  exact ⟨0, hentry, hone'.tail hsecond⟩

namespace CodeItem

theorem move_result_own_call_iff_splitCall :
    splitCall.ReadsOwnCall splitCallNodes { byteOff := 4, opcode := 0x24 }
        { byteOff := 10, opcode := 0x0C } ↔
      splitCall.BuildsCall { byteOff := 4, opcode := 0x24 } ∧
        (splitCall.Produces { byteOff := 4, opcode := 0x24 } →
          splitCall.HandedOver { byteOff := 4, opcode := 0x24 }
            { byteOff := 10, opcode := 0x0C }) := by
  obtain ⟨-, hins, hbuilt, -, -, -, hins2, -⟩ := splitCall_runs
  exact move_result_own_call_iff _ _ _ _ hins hbuilt reached_splitCall
    (by rw [splitCall] at hins2; rw [hins2]; exact List.mem_cons_self) rfl
    ⟨splitCallIns.take 1, splitCallIns.drop 3, rfl⟩

end CodeItem

/-- The move-result copies the variable of the call in the other branch. -/
theorem splitCall_reads_other : ¬ ∀ (v : Verifier) (off : Nat) (typeName : Nat → Text)
    (source : CallSource) (thisReg : Option Nat) (ins : List RawIns)
    (nodes : List (RawIns × ResultNode)), v.verifyCodeItem off = .ok () →
    (v.codeItem off).decodeAllFrom (v.codeItem off).insnsSize 0 = .ok ins →
    ((v.codeItem off).snapshot typeName source thisReg ins).construct = .ok nodes →
    ∀ id, CodeItem.Reached ((v.codeItem off).snapshot typeName source thisReg ins) id →
    ∀ prev p, p ∈ ((v.codeItem off).snapshot typeName source thisReg ins).insOf id →
    isMoveResult p.opcode = true → [prev, p] <:+: ins →
    ((v.codeItem off).snapshot typeName source thisReg ins).ReadsOwnCall nodes prev p := by
  obtain ⟨haccept, hins, hbuilt, -, -, -, hins2, hfresh⟩ := splitCall_runs
  intro h
  obtain ⟨hresult, -⟩ := h splitCallVerifier 112 (fun _ => []) splitCallSource none splitCallIns
    splitCallNodes haccept hins hbuilt 2 reached_splitCall { byteOff := 4, opcode := 0x24 }
    { byteOff := 10, opcode := 0x0C }
    (by rw [splitCall] at hins2; rw [hins2]; exact List.mem_cons_self) rfl
    ⟨splitCallIns.take 1, splitCallIns.drop 3, rfl⟩
  obtain ⟨v, dst, hcall, hcopy⟩ := hresult hfresh
  have hfirst : v = .fresh 1 := by simpa [splitCallNodes] using hcall
  have hsecond : v = .fresh 2 := by
    have hpair : dst = 0 ∧ v = .fresh 2 := by simpa [splitCallNodes] using hcopy
    exact hpair.2
  rw [hfirst] at hsecond
  cases hsecond

end Dexllm
