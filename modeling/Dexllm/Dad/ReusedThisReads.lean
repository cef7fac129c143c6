import Dexllm.Dad.ReusedThis

/-!
When the receiver may go without the copy. The two scans see every read of the value on
entry except those behind a handler that is not marked: normal edges led to it first, and
an exception enters it while the receiver is untouched.
-/

namespace Dexllm

open Guarded Bytes Dad Relation

/-- The type all observations name so far, and whether two of them differ. -/
def pinType (s : Text × Bool) (o : Option Text) : Text × Bool :=
  match o with
  | none => (s.1, true)
  | some type => if s.1 = [] then (type, s.2) else if s.1 ≠ type then (s.1, true) else s

theorem foldl_pinType_true (obs : List (Option Text)) (t : Text) :
    (obs.foldl pinType (t, true)).2 = true := by
  induction obs generalizing t with
  | nil => rfl
  | cons o obs ih =>
    rw [List.foldl_cons, pinType.eq_def]
    cases o with
    | none => exact ih t
    | some type =>
      dsimp only
      split
      · exact ih type
      · rw [ite_self]
        exact ih t

theorem foldl_pinType_of_ne (obs : List (Option Text)) {t : Text} (ht : t ≠ []) :
    (obs.foldl pinType (t, false)).2 = false ↔ ∀ o ∈ obs, o = some t := by
  induction obs with
  | nil => simp
  | cons o obs ih =>
    rw [List.foldl_cons, List.forall_mem_cons, pinType.eq_def]
    cases o with
    | none => simp [foldl_pinType_true]
    | some type =>
      dsimp only
      rw [if_neg ht]
      split
      · rename_i hne
        simp [foldl_pinType_true, Ne.symm hne]
      · rename_i heq
        rw [ih]
        simp [not_not.mp heq]

theorem fst_foldl_pinType (obs : List (Option Text)) {t : Text} {c : Bool} (ht : t ≠ []) :
    (obs.foldl pinType (t, c)).1 = t := by
  induction obs generalizing c with
  | nil => rfl
  | cons o obs ih =>
    rw [List.foldl_cons, pinType.eq_def]
    cases o with
    | none => exact ih
    | some type =>
      dsimp only
      rw [if_neg ht]
      split <;> exact ih

/-- No two observations differ, and the type is the one they name. -/
theorem foldl_pinType_iff {obs : List (Option Text)} (hne : some [] ∉ obs) :
    (obs.foldl pinType ([], false)).2 = false ↔ ∃ t, ∀ o ∈ obs, o = some t := by
  cases obs with
  | nil => simp
  | cons o obs =>
    rw [List.foldl_cons, pinType.eq_def]
    cases o with
    | none => simp [foldl_pinType_true]
    | some t =>
      have ht : t ≠ [] := by
        rintro rfl
        exact hne List.mem_cons_self
      dsimp only
      rw [if_pos rfl, foldl_pinType_of_ne obs ht]
      constructor
      · exact fun h => ⟨t, List.forall_mem_cons.mpr ⟨rfl, h⟩⟩
      · rintro ⟨t', h⟩
        obtain ⟨hfirst, h⟩ := List.forall_mem_cons.mp h
        rwa [← Option.some.inj hfirst] at h

theorem fst_foldl_pinType_of_mem {obs : List (Option Text)} {t : Text} (ht : t ≠ [])
    (h : ∀ o ∈ obs, o = some t) (hobs : obs ≠ []) : (obs.foldl pinType ([], false)).1 = t := by
  cases obs with
  | nil => exact absurd rfl hobs
  | cons o obs =>
    obtain rfl := (List.forall_mem_cons.mp h).1
    rw [List.foldl_cons, pinType, if_pos rfl]
    exact fst_foldl_pinType obs ht

theorem ne_nil_of_isRef {type : Text} (h : isRef type = true) : type ≠ [] := by
  rintro rfl
  cases h

namespace ReceiverForm

/-- The reference types the receiver is pinned to. -/
def sinks (vid : Vid) (retType : Text) (ins : ReceiverForm) : List Text :=
  ((if ins.isReturn ∧ vid ∈ ins.usedVars then [retType] else []) ++ ins.argSinks vid).filter
    fun type => isRef type

/-- The class a reassignment allocates. -/
def allocs (vid : Vid) (ins : ReceiverForm) : List (Option Text) :=
  if ins.lhs = some vid then
    [if ins.isAlloc ∧ isRef ins.rhsType then some ins.rhsType else none]
  else []

end ReceiverForm

namespace ReceiverScan

variable {vid : Vid} {retType : Text} {blk : Nat} {ins : ReceiverForm} {s : ReceiverScan}
  {sites : List (Nat × ReceiverForm)}

def pinned (s : ReceiverScan) : Text × Bool := (s.anchor, s.sinkConflict)

def alloc (s : ReceiverScan) : Text × Bool := (s.allocType, !s.allAlloc)

theorem pinned_noteSink (type : Text) : (s.noteSink blk type).pinned =
    ([type].filter fun type => isRef type).foldl (fun s t => pinType s (some t)) s.pinned := by
  unfold noteSink
  by_cases href : isRef type = true
  · rw [if_pos href, List.filter_cons_of_pos href]
    simp only [List.filter_nil, List.foldl_cons, List.foldl_nil, pinType, pinned]
    split
    · rfl
    · split <;> rfl
  · rw [if_neg href, List.filter_cons_of_neg href]
    rfl

theorem pinned_foldl_noteSink (types : List Text) : (types.foldl (noteSink blk) s).pinned =
    (types.filter fun type => isRef type).foldl (fun s t => pinType s (some t)) s.pinned := by
  induction types generalizing s with
  | nil => rfl
  | cons type types ih =>
    rw [List.foldl_cons, ih, pinned_noteSink, ← List.foldl_append, ← List.filter_append,
      List.singleton_append]

theorem pinned_noteReassign : (s.noteReassign vid blk ins).pinned = s.pinned := by
  unfold noteReassign
  split
  · dsimp only
    split
    · split
      · rfl
      · split <;> rfl
    · rfl
  · rfl

theorem pinned_note (p : Nat × ReceiverForm) : (s.note vid retType p).pinned =
    (p.2.sinks vid retType).foldl (fun s t => pinType s (some t)) s.pinned := by
  unfold note ReceiverForm.sinks noteReturn
  rw [pinned_noteReassign, pinned_foldl_noteSink, List.filter_append, List.foldl_append]
  have hret : (s.noteSink p.1 retType).pinned =
      ([retType].filter fun type => isRef type).foldl (fun s t => pinType s (some t)) s.pinned :=
    pinned_noteSink retType
  split
  · rw [← hret]
    rfl
  · rfl

theorem foldl_pinned : (sites.foldl (note vid retType) s).pinned =
    (sites.flatMap fun p => p.2.sinks vid retType).foldl (fun s t => pinType s (some t))
      s.pinned := by
  induction sites generalizing s with
  | nil => rfl
  | cons p sites ih =>
    rw [List.foldl_cons, ih, pinned_note, List.flatMap_cons, List.foldl_append]

/-- The fields that only a reassignment changes. -/
structure Assigned where
  reused : Bool
  blocks : List Nat
  reassign : List Text
  alloc : Text × Bool

def assigned (s : ReceiverScan) : Assigned :=
  ⟨s.reused, s.reassignBlocks, s.reassign, s.alloc⟩

/-- The reassignments among some sites, in front of what was there. -/
def Assigned.extend (vid : Vid) (a : Assigned) (sites : List (Nat × ReceiverForm)) : Assigned :=
  let found := sites.filter fun p => p.2.lhs = some vid
  ⟨a.reused || !found.isEmpty, (found.map Prod.fst).reverse ++ a.blocks,
    a.reassign ++ found.map fun p => p.2.reassigned,
    (sites.flatMap fun p => p.2.allocs vid).foldl pinType a.alloc⟩

theorem assigned_foldl_noteSink (types : List Text) :
    (types.foldl (noteSink blk) s).assigned = s.assigned := by
  induction types generalizing s with
  | nil => rfl
  | cons type types ih =>
    rw [List.foldl_cons, ih]
    unfold noteSink
    split
    · dsimp only
      split
      · rfl
      · split <;> rfl
    · rfl

theorem assigned_noteReturn : (s.noteReturn vid retType blk ins).assigned = s.assigned := by
  unfold noteReturn
  split
  · exact assigned_foldl_noteSink [retType]
  · rfl

theorem assigned_noteReassign :
    (s.noteReassign vid blk ins).assigned = s.assigned.extend vid [(blk, ins)] := by
  unfold noteReassign Assigned.extend
  rw [List.flatMap_singleton]
  unfold ReceiverForm.allocs
  by_cases hlhs : ins.lhs = some vid
  · rw [if_pos hlhs, if_pos hlhs, List.filter_cons_of_pos (by simpa using hlhs)]
    dsimp only
    split
    · rw [List.foldl_cons, List.foldl_nil, pinType]
      unfold assigned alloc
      dsimp only
      split
      · simp
      · split <;> simp
    · unfold assigned alloc
      simp [pinType]
  · rw [if_neg hlhs, if_neg hlhs, List.filter_cons_of_neg (by simpa using hlhs)]
    simp

theorem extend_append (a : Assigned) (l r : List (Nat × ReceiverForm)) :
    (a.extend vid l).extend vid r = a.extend vid (l ++ r) := by
  unfold Assigned.extend
  dsimp only
  rw [List.filter_append, List.map_append, List.map_append, List.reverse_append,
    List.flatMap_append, List.foldl_append, List.append_assoc, List.append_assoc, Bool.or_assoc]
  congr 2
  cases l.filter fun p => p.2.lhs = some vid <;> simp

theorem assigned_foldl : (sites.foldl (note vid retType) s).assigned =
    s.assigned.extend vid sites := by
  induction sites generalizing s with
  | nil => simp [Assigned.extend]
  | cons p sites ih =>
    rw [List.foldl_cons, ih, note, assigned_noteReassign, assigned_foldl_noteSink,
      assigned_noteReturn, extend_append, List.singleton_append]

end ReceiverScan

namespace ReceiverMethod

/-- The instructions as the executions see them. -/
def code (m : ReceiverMethod) : MethodCode Nat Vid :=
  ⟨m.built.graph, fun v => (m.ins v).map (·.toIRForm)⟩

/-- The instruction at a point reads a variable. -/
def ReadsAt (m : ReceiverMethod) (vid : Vid) (q : Point Nat) : Prop :=
  ∃ ins, (m.ins q.1)[q.2]? = some ins ∧ vid ∈ ins.usedVars

/-- No instruction of the block before the point assigns a variable. -/
def Untouched (m : ReceiverMethod) (vid : Vid) (q : Point Nat) : Prop :=
  ∀ i < q.2, ∀ ins, (m.ins q.1)[i]? = some ins → ins.lhs ≠ some vid

def Reassigns (m : ReceiverMethod) (vid : Vid) (v : Nat) : Prop :=
  ∃ ins ∈ m.ins v, ins.lhs = some vid

/-- Normal edges lead from the entry to a block past blocks that assign nothing. -/
def ReachedNormally (m : ReceiverMethod) (vid : Vid) (v : Nat) : Prop :=
  ∃ entry, m.built.graph.entry = some entry ∧
    ReflTransGen (fun a b => b ∈ m.built.graph.sucs a ∧ ¬m.Reassigns vid a) entry v

/-- Some edges lead to a block from one that is marked. -/
def ReachedByCatch (m : ReceiverMethod) (v : Nat) : Prop :=
  ∃ h ∈ m.built.inCatch, ReflTransGen (fun a b => b ∈ m.built.graph.allSucs a) h v

/-- A read where the scans look for one. -/
def ScansRead (m : ReceiverMethod) (vid : Vid) : Prop :=
  (∃ q : Point Nat, m.ReachedNormally vid q.1 ∧ m.Untouched vid q ∧ m.ReadsAt vid q) ∨
    ∃ q : Point Nat, m.ReachedByCatch q.1 ∧ m.ReadsAt vid q

/-- Some execution reads a variable before one of its assignments has completed. `exits`
are the points an exception can leave a block from. -/
def EarlyRead (m : ReceiverMethod) (exits : Nat → Nat → Prop) (vid : Vid) : Prop :=
  ∃ entry q, m.built.graph.entry = some entry ∧ m.code.Carries exits vid (entry, 0) q ∧
    m.ReadsAt vid q

/-- An early read behind an exception into a handler that is not marked. -/
def SharedHandlerRead (m : ReceiverMethod) (exits : Nat → Nat → Prop) (vid : Vid) : Prop :=
  ∃ entry v k h q, m.built.graph.entry = some entry ∧
    m.code.Carries exits vid (entry, 0) (v, k) ∧
    h ∈ m.built.graph.catchEdges.sucs v ∧ exits k (m.ins v).length ∧ h ∉ m.built.inCatch ∧
    m.code.Carries exits vid (h, 0) q ∧ m.ReadsAt vid q

variable {m : ReceiverMethod} {vid : Vid} {retType : Text} {exits : Nat → Nat → Prop}
  {v entry : Nat} {q : Point Nat}

theorem mem_sites {p : Nat × ReceiverForm} :
    p ∈ m.sites ↔ p.1 ∈ m.built.graph.rpo ∧ p.2 ∈ m.ins p.1 := by
  unfold sites
  rw [List.mem_flatMap]
  constructor
  · rintro ⟨n, hn, hp⟩
    obtain ⟨ins, hins, rfl⟩ := List.mem_map.mp hp
    exact ⟨hn, hins⟩
  · rintro ⟨hn, hins⟩
    exact ⟨p.1, hn, List.mem_map.mpr ⟨p.2, hins, rfl⟩⟩

theorem assigned_scan (m : ReceiverMethod) (vid : Vid) (retType : Text) :
    (m.scan vid retType).assigned =
      ReceiverScan.Assigned.extend vid ({} : ReceiverScan).assigned m.sites :=
  ReceiverScan.assigned_foldl

theorem pinned_scan (m : ReceiverMethod) (vid : Vid) (retType : Text) :
    (m.scan vid retType).pinned = (m.sites.flatMap fun p => p.2.sinks vid retType).foldl
      (fun s t => pinType s (some t)) ([], false) :=
  ReceiverScan.foldl_pinned

theorem mem_reassignBlocks : v ∈ (m.scan vid retType).reassignBlocks ↔
    v ∈ m.built.graph.rpo ∧ m.Reassigns vid v := by
  have hscan := congrArg ReceiverScan.Assigned.blocks (m.assigned_scan vid retType)
  have hblocks : (m.scan vid retType).reassignBlocks =
      ((m.sites.filter fun p => p.2.lhs = some vid).map Prod.fst).reverse :=
    hscan.trans (List.append_nil _)
  rw [hblocks, List.mem_reverse, List.mem_map]
  constructor
  · rintro ⟨p, hp, rfl⟩
    obtain ⟨hp, hlhs⟩ := List.mem_filter.mp hp
    obtain ⟨hrpo, hins⟩ := mem_sites.mp hp
    exact ⟨hrpo, p.2, hins, of_decide_eq_true hlhs⟩
  · rintro ⟨hrpo, ins, hins, hlhs⟩
    exact ⟨(v, ins), List.mem_filter.mpr ⟨mem_sites.mpr ⟨hrpo, hins⟩, decide_eq_true hlhs⟩, rfl⟩

theorem mem_normalBlocks (hb : m.built.Sound) (hentry : m.built.graph.entry = some entry) :
    v ∈ m.normalBlocks (m.scan vid retType).reassignBlocks entry ↔ m.ReachedNormally vid v := by
  have hedge (a b : Nat) : (b ∈ if a ∈ (m.scan vid retType).reassignBlocks then []
      else m.built.graph.sucs a) ↔ b ∈ m.built.graph.sucs a ∧ ¬m.Reassigns vid a := by
    by_cases h : a ∈ (m.scan vid retType).reassignBlocks
    · rw [if_pos h]
      simp [(mem_reassignBlocks.mp h).2]
    · rw [if_neg h]
      rw [mem_reassignBlocks, hb.rpo.mem_iff] at h
      constructor
      · exact fun hmem => ⟨hmem, fun hre => h ⟨(hb.wellFormed.edgesMem a b hmem).1, hre⟩⟩
      · exact And.left
  unfold normalBlocks ReachedNormally
  rw [Worklist.mem_visitAll_iff hb.wellFormed.nodup fun a ha => ?_]
  · simp only [hedge, List.mem_singleton, exists_eq_left, hentry, Option.some.injEq,
      exists_eq_left']
  · obtain ⟨b, hmem⟩ := List.exists_mem_of_ne_nil _ ha
    exact (hb.wellFormed.edgesMem a b ((hedge a b).mp hmem).1).1

theorem mem_exceptBlocks (hb : m.built.Sound) : v ∈ m.exceptBlocks ↔ m.ReachedByCatch v := by
  unfold exceptBlocks ReachedByCatch
  rw [Worklist.mem_visitAll_iff hb.wellFormed.nodup fun a ha => ?_]
  · constructor
    · rintro ⟨h, hh, hpath⟩
      obtain ⟨-, hmark⟩ := List.mem_filter.mp (List.mem_reverse.mp hh)
      exact ⟨h, of_decide_eq_true hmark, hpath⟩
    · rintro ⟨h, hh, hpath⟩
      refine ⟨h, List.mem_reverse.mpr (List.mem_filter.mpr ⟨?_, decide_eq_true hh⟩), hpath⟩
      exact hb.rpo.mem_iff.mpr (hb.inCatch h hh)
  · obtain ⟨b, hmem⟩ := List.exists_mem_of_ne_nil _ ha
    exact (hb.wellFormed.closed hmem).1

theorem readsEntry_iff {isReassign : Bool} {l : List ReceiverForm}
    (hflag : isReassign = false → ∀ ins ∈ l, ins.lhs ≠ some vid) :
    readsEntry vid isReassign l = true ↔
      ∃ (k : Nat) (ins : ReceiverForm), l[k]? = some ins ∧ vid ∈ ins.usedVars ∧
        ∀ i < k, ∀ ins' : ReceiverForm, l[i]? = some ins' → ins'.lhs ≠ some vid := by
  induction l with
  | nil => simp [readsEntry]
  | cons ins rest ih =>
    have ih := ih fun hf ins' hins' => hflag hf ins' (List.mem_cons_of_mem _ hins')
    unfold readsEntry
    by_cases hread : vid ∈ ins.usedVars
    · rw [if_pos hread]
      exact iff_of_true rfl ⟨0, ins, rfl, hread, fun i hi => absurd hi (Nat.not_lt_zero i)⟩
    · rw [if_neg hread]
      by_cases hlhs : ins.lhs = some vid
      · have hre : isReassign = true := by
          by_contra hf
          exact hflag (Bool.eq_false_iff.mpr hf) ins List.mem_cons_self hlhs
        rw [if_pos ⟨hre, hlhs⟩]
        refine iff_of_false Bool.false_ne_true ?_
        rintro ⟨k, ins', hget, huse, hquiet⟩
        cases k with
        | zero => exact hread (Option.some.inj hget ▸ huse)
        | succ k => exact hquiet 0 (Nat.succ_pos k) ins rfl hlhs
      · rw [if_neg fun h => hlhs h.2, ih]
        constructor
        · rintro ⟨k, ins', hget, huse, hquiet⟩
          refine ⟨k + 1, ins', hget, huse, fun i hi ins'' hins'' => ?_⟩
          cases i with
          | zero => exact Option.some.inj hins'' ▸ hlhs
          | succ i => exact hquiet i (Nat.lt_of_succ_lt_succ hi) ins'' hins''
        · rintro ⟨k, ins', hget, huse, hquiet⟩
          cases k with
          | zero => exact absurd (Option.some.inj hget ▸ huse) hread
          | succ k =>
            exact ⟨k, ins', hget, huse, fun i hi ins'' hins'' =>
              hquiet (i + 1) (Nat.succ_lt_succ hi) ins'' hins''⟩

/-- `entry_this_read` looks where `ScansRead` says. -/
theorem entryThisRead_iff (hb : m.built.Sound) (hentry : m.built.graph.entry = some entry) :
    m.entryThisRead vid (m.scan vid retType).reassignBlocks entry = true ↔ m.ScansRead vid := by
  have hcaught (v : Nat) : ((m.ins v).any fun ins => decide (vid ∈ ins.usedVars)) = true ↔
      ∃ k, m.ReadsAt vid (v, k) := by
    rw [List.any_eq_true]
    constructor
    · rintro ⟨ins, hins, huse⟩
      obtain ⟨k, hk⟩ := List.mem_iff_getElem?.mp hins
      exact ⟨k, ins, hk, of_decide_eq_true huse⟩
    · rintro ⟨k, ins, hk, huse⟩
      exact ⟨ins, List.mem_of_getElem? hk, decide_eq_true huse⟩
  have hfirst {v : Nat} (hv : m.ReachedNormally vid v) :
      readsEntry vid (v ∈ (m.scan vid retType).reassignBlocks) (m.ins v) = true ↔
        ∃ k, m.Untouched vid (v, k) ∧ m.ReadsAt vid (v, k) := by
    rw [readsEntry_iff]
    · constructor
      · rintro ⟨k, ins, hget, huse, hquiet⟩
        exact ⟨k, hquiet, ins, hget, huse⟩
      · rintro ⟨k, hquiet, ins, hget, huse⟩
        exact ⟨k, ins, hget, huse, hquiet⟩
    · intro hflag ins hins hlhs
      refine of_decide_eq_false hflag (mem_reassignBlocks.mpr ⟨?_, ins, hins, hlhs⟩)
      obtain ⟨e, he, hpath⟩ := hv
      rw [hb.rpo.mem_iff]
      obtain rfl | ⟨u, -, hstep⟩ := ReflTransGen.cases_tail hpath
      · exact hb.wellFormed.entryMem _ he
      · exact (hb.wellFormed.edgesMem u v hstep.1).2
  unfold entryThisRead
  dsimp only
  rw [Bool.or_eq_true, List.any_eq_true, List.any_eq_true]
  constructor
  · rintro (⟨v, hv, hread⟩ | ⟨v, hv, hread⟩)
    · have hv := (mem_normalBlocks hb hentry).mp hv
      obtain ⟨k, hquiet, huse⟩ := (hfirst hv).mp (Bool.and_eq_true_iff.mp hread).2
      exact Or.inl ⟨(v, k), hv, hquiet, huse⟩
    · obtain ⟨k, huse⟩ := (hcaught v).mp hread
      exact Or.inr ⟨(v, k), (mem_exceptBlocks hb).mp hv, huse⟩
  · intro h
    by_cases hexc : ∃ q : Point Nat, m.ReachedByCatch q.1 ∧ m.ReadsAt vid q
    · obtain ⟨q, hq, huse⟩ := hexc
      exact Or.inr ⟨q.1, (mem_exceptBlocks hb).mpr hq, (hcaught q.1).mpr ⟨q.2, huse⟩⟩
    · obtain ⟨q, hq, hquiet, huse⟩ := h.resolve_right hexc
      refine Or.inl ⟨q.1, (mem_normalBlocks hb hentry).mpr hq, ?_⟩
      have hout : q.1 ∉ m.exceptBlocks := fun hmem =>
        hexc ⟨q, (mem_exceptBlocks hb).mp hmem, huse⟩
      rw [(hfirst hq).mpr ⟨q.2, hquiet, huse⟩]
      simpa using hout

theorem exists_of_code {k : Nat} {form : IRForm Vid} (h : (m.code.ins v)[k]? = some form) :
    ∃ ins, (m.ins v)[k]? = some ins ∧ ins.toIRForm = form := by
  rw [code, List.getElem?_map] at h
  obtain ⟨ins, hins, hform⟩ := Option.map_eq_some_iff.mp h
  exact ⟨ins, hins, hform⟩

theorem Untouched.not_reassigns (h : m.Untouched vid (v, (m.ins v).length)) :
    ¬m.Reassigns vid v := by
  rintro ⟨ins, hins, hlhs⟩
  obtain ⟨i, hi⟩ := List.mem_iff_getElem?.mp hins
  exact h i (List.getElem?_eq_some_iff.mp hi).1 ins hi hlhs

/-- Where an execution finds the receiver untouched: the scans cover the block, or a handler
that is not marked was entered. -/
theorem covered (hentry : m.built.graph.entry = some entry)
    (h : m.code.Carries exits vid (entry, 0) q) :
    m.ReachedByCatch q.1 ∨ (m.ReachedNormally vid q.1 ∧ m.Untouched vid q) ∨
      ∃ v k h, m.code.Carries exits vid (entry, 0) (v, k) ∧
        h ∈ m.built.graph.catchEdges.sucs v ∧ exits k (m.ins v).length ∧ h ∉ m.built.inCatch ∧
        m.code.Carries exits vid (h, 0) q := by
  have hstart (v : Nat) : m.Untouched vid (v, 0) := fun i hi => absurd hi (Nat.not_lt_zero i)
  induction h with
  | refl => exact Or.inr (Or.inl ⟨⟨entry, hentry, .refl⟩, hstart entry⟩)
  | @tail q r hpath hstep ih =>
    obtain ⟨hdl, hmark, hreach⟩ | ⟨⟨e, he, hreach⟩, hquiet⟩ |
      ⟨v, k, hdl, hto, hedge, hexit, hnew, hfrom⟩ := ih
    · left
      cases hstep with
      | next => exact ⟨hdl, hmark, hreach⟩
      | leave hw => exact ⟨hdl, hmark, hreach.tail (List.mem_append_left _ hw)⟩
      | caught hh => exact ⟨hdl, hmark, hreach.tail (List.mem_append_right _ hh)⟩
    · cases hstep with
      | @next v k form hins hkeep =>
        obtain ⟨ins, hget, rfl⟩ := exists_of_code hins
        refine Or.inr (Or.inl ⟨⟨e, he, hreach⟩, fun i hi ins' hins' => ?_⟩)
        obtain hlt | rfl := Nat.lt_succ_iff_lt_or_eq.mp hi
        · exact hquiet i hlt ins' hins'
        · obtain rfl := Option.some.inj (hget.symm.trans hins')
          exact hkeep
      | @leave v w hw =>
        have hfree : ¬m.Reassigns vid v := by
          rw [code, List.length_map] at hquiet
          exact hquiet.not_reassigns
        exact Or.inr (Or.inl ⟨⟨e, he, hreach.tail ⟨hw, hfree⟩⟩, hstart w⟩)
      | @caught v hdl k hh hexit =>
        by_cases hmark : hdl ∈ m.built.inCatch
        · exact Or.inl ⟨hdl, hmark, .refl⟩
        · rw [code, List.length_map] at hexit
          exact Or.inr (Or.inr ⟨v, k, hdl, hpath, hh, hexit, hmark, .refl⟩)
    · exact Or.inr (Or.inr ⟨v, k, hdl, hto, hedge, hexit, hnew, hfrom.tail hstep⟩)

/-- An early read is one the scans see, or lies behind a handler that is not marked. -/
theorem scansRead_of_earlyRead (h : m.EarlyRead exits vid)
    (hshared : ¬m.SharedHandlerRead exits vid) : m.ScansRead vid := by
  obtain ⟨entry, q, hentry, hpath, huse⟩ := h
  obtain hcatch | ⟨hnormal, hquiet⟩ | ⟨v, k, hdl, hto, hedge, hexit, hnew, hfrom⟩ :=
    covered hentry hpath
  · exact Or.inr ⟨q, hcatch, huse⟩
  · exact Or.inl ⟨q, hnormal, hquiet, huse⟩
  · exact absurd ⟨entry, v, k, hdl, q, hentry, hto, hedge, hexit, hnew, hfrom, huse⟩ hshared

theorem SharedHandlerRead.earlyRead (h : m.SharedHandlerRead exits vid) :
    m.EarlyRead exits vid := by
  obtain ⟨entry, v, k, hdl, q, hentry, hto, hedge, hexit, -, hfrom, huse⟩ := h
  have hlen : (m.code.ins v).length = (m.ins v).length := List.length_map ..
  have hcaught : m.code.Step exits (fun ins => ins.lhs ≠ some vid) (v, k) (hdl, 0) :=
    .caught hedge (hlen ▸ hexit)
  exact ⟨entry, q, hentry, (hto.tail hcaught).trans hfrom, huse⟩

end ReceiverMethod

namespace MaterializeReusedThis

/-- The receiver is scratch for objects of one class. -/
structure Scratch (p : MaterializeReusedThis) (m : ReceiverMethod) : Prop where
  method : p.isCtor = false
  receiver : ∃ type, m.lvars.lookup p.thisReg = some (.this, type)
  entry : ∃ entry, m.built.graph.entry = some entry
  sinks : ∃ type, ∀ s ∈ m.sites, ∀ t ∈ s.2.sinks p.thisVid p.retType, t = type
  reused : ∃ s ∈ m.sites, s.2.lhs = some p.thisVid
  alloc : ∃ cls, isRef cls = true ∧ p.assignable cls cls = .ok true ∧
    ∀ s ∈ m.sites, s.2.lhs = some p.thisVid → s.2.isAlloc = true ∧ s.2.rhsType = cls

/-- The entry block has one instruction more: the copy. -/
def Seeded (m m' : ReceiverMethod) : Prop :=
  ∃ entry, m.built.graph.entry = some entry ∧
    (m'.ins entry).length = (m.ins entry).length + 1

variable {p : MaterializeReusedThis} {m m' : ReceiverMethod} {anchor : Text}

theorem reassignOk_iff {types : List Text} : p.reassignOk anchor types = .ok true ↔
    ∀ t ∈ types, t ≠ ascii "!" ∧ (t = [] ∨ p.assignable t anchor = .ok true) := by
  induction types with
  | nil => simp [reassignOk]
  | cons t types ih =>
    rw [List.forall_mem_cons, ← ih, reassignOk]
    by_cases hbad : t = ascii "!"
    · rw [if_pos hbad]
      simp [hbad, pure, Except.pure]
    · rw [if_neg hbad]
      by_cases hnull : t = []
      · simp [hnull, ascii, pure, Except.pure, bind, Except.bind]
      · rw [if_neg hnull]
        cases hok : p.assignable t anchor with
        | error e => simp [hnull, bind, Except.bind]
        | ok ok =>
          cases ok with
          | false => simp [hnull, bind, Except.bind, pure, Except.pure]
          | true => simp [hbad, bind, Except.bind]

theorem scan_reused : (m.scan p.thisVid p.retType).reused = true ↔
    ∃ s ∈ m.sites, s.2.lhs = some p.thisVid := by
  have hscan := congrArg ReceiverScan.Assigned.reused (m.assigned_scan p.thisVid p.retType)
  have hreused : (m.scan p.thisVid p.retType).reused =
      !(m.sites.filter fun s => s.2.lhs = some p.thisVid).isEmpty := hscan.trans (Bool.false_or _)
  rw [hreused, Bool.not_eq_true', List.isEmpty_eq_false_iff_exists_mem]
  simp [List.mem_filter]

theorem mem_scan_reassign {t : Text} : t ∈ (m.scan p.thisVid p.retType).reassign ↔
    ∃ s ∈ m.sites, s.2.lhs = some p.thisVid ∧ s.2.reassigned = t := by
  have hscan := congrArg ReceiverScan.Assigned.reassign (m.assigned_scan p.thisVid p.retType)
  have hreassign : (m.scan p.thisVid p.retType).reassign =
      (m.sites.filter fun s => s.2.lhs = some p.thisVid).map fun s => s.2.reassigned := hscan
  rw [hreassign, List.mem_map]
  simp [List.mem_filter, and_assoc]

theorem scan_alloc : (m.scan p.thisVid p.retType).alloc =
    (m.sites.flatMap fun s => s.2.allocs p.thisVid).foldl pinType ([], false) :=
  congrArg ReceiverScan.Assigned.alloc (m.assigned_scan p.thisVid p.retType)

theorem scan_conflict : (m.scan p.thisVid p.retType).sinkConflict = false ↔
    ∃ type, ∀ s ∈ m.sites, ∀ t ∈ s.2.sinks p.thisVid p.retType, t = type := by
  have hscan := congrArg Prod.snd (m.pinned_scan p.thisVid p.retType)
  have hconflict : (m.scan p.thisVid p.retType).sinkConflict =
      (((m.sites.flatMap fun s => s.2.sinks p.thisVid p.retType).map some).foldl pinType
        ([], false)).2 := by
    rw [List.foldl_map]
    exact hscan
  rw [hconflict, foldl_pinType_iff]
  · refine exists_congr fun type => ⟨fun h s hs t ht => ?_, fun h o ho => ?_⟩
    · exact Option.some.inj (h _ (List.mem_map_of_mem (List.mem_flatMap_of_mem hs ht)))
    · obtain ⟨t, ht, rfl⟩ := List.mem_map.mp ho
      obtain ⟨s, hs, ht⟩ := List.mem_flatMap.mp ht
      rw [h s hs t ht]
  · intro hmem
    obtain ⟨t, ht, hnil⟩ := List.mem_map.mp hmem
    obtain ⟨s, -, ht⟩ := List.mem_flatMap.mp ht
    exact ne_nil_of_isRef (List.mem_filter.mp ht).2 (Option.some.inj hnil)

/-- Every reassignment allocates one class. -/
theorem scan_allAlloc (hreused : ∃ s ∈ m.sites, s.2.lhs = some p.thisVid) {cls : Text} :
    (m.scan p.thisVid p.retType).allAlloc = true ∧
        (m.scan p.thisVid p.retType).allocType ≠ [] ∧
        (m.scan p.thisVid p.retType).allocType = cls ↔
      isRef cls = true ∧ ∀ s ∈ m.sites, s.2.lhs = some p.thisVid →
        s.2.isAlloc = true ∧ s.2.rhsType = cls := by
  generalize hobs : (m.sites.flatMap fun s => s.2.allocs p.thisVid) = obs
  have halloc := scan_alloc (p := p) (m := m)
  rw [hobs] at halloc
  have hmem (o : Option Text) : o ∈ obs ↔ ∃ s ∈ m.sites, s.2.lhs = some p.thisVid ∧
      o = if s.2.isAlloc ∧ isRef s.2.rhsType then some s.2.rhsType else none := by
    rw [← hobs, List.mem_flatMap]
    refine exists_congr fun s => and_congr_right fun _ => ?_
    unfold ReceiverForm.allocs
    by_cases hlhs : s.2.lhs = some p.thisVid
    · rw [if_pos hlhs, List.mem_singleton]
      exact ⟨fun h => ⟨hlhs, h⟩, And.right⟩
    · rw [if_neg hlhs]
      exact ⟨fun h => absurd h List.not_mem_nil, fun h => absurd h.1 hlhs⟩
  have hall (cls : Text) : (isRef cls = true ∧ ∀ s ∈ m.sites, s.2.lhs = some p.thisVid →
      s.2.isAlloc = true ∧ s.2.rhsType = cls) ↔ cls ≠ [] ∧ ∀ o ∈ obs, o = some cls := by
    obtain ⟨s₀, hs₀, hlhs₀⟩ := hreused
    constructor
    · rintro ⟨href, h⟩
      refine ⟨ne_nil_of_isRef href, fun o ho => ?_⟩
      obtain ⟨s, hs, hlhs, rfl⟩ := (hmem o).mp ho
      obtain ⟨hnew, rfl⟩ := h s hs hlhs
      exact if_pos ⟨hnew, href⟩
    · rintro ⟨-, h⟩
      have hsite (s : Nat × ReceiverForm) (hs : s ∈ m.sites) (hlhs : s.2.lhs = some p.thisVid) :
          (s.2.isAlloc = true ∧ isRef s.2.rhsType = true) ∧ s.2.rhsType = cls := by
        have hsome := h _ ((hmem _).mpr ⟨s, hs, hlhs, rfl⟩)
        split at hsome
        · rename_i hnew
          exact ⟨hnew, Option.some.inj hsome⟩
        · cases hsome
      obtain ⟨⟨-, href⟩, rfl⟩ := hsite s₀ hs₀ hlhs₀
      exact ⟨href, fun s hs hlhs => ⟨(hsite s hs hlhs).1.1, (hsite s hs hlhs).2⟩⟩
  have hnone : some [] ∉ obs := by
    intro h
    obtain ⟨s, -, -, hsome⟩ := (hmem _).mp h
    split at hsome
    · rename_i hnew
      exact ne_nil_of_isRef hnew.2 (Option.some.inj hsome).symm
    · cases hsome
  have hobsne : obs ≠ [] := by
    obtain ⟨s₀, hs₀, hlhs₀⟩ := hreused
    exact List.ne_nil_of_mem ((hmem _).mpr ⟨s₀, hs₀, hlhs₀, rfl⟩)
  have htype : (m.scan p.thisVid p.retType).allocType = (obs.foldl pinType ([], false)).1 :=
    congrArg Prod.fst halloc
  have hflag : (!(m.scan p.thisVid p.retType).allAlloc) = (obs.foldl pinType ([], false)).2 :=
    congrArg Prod.snd halloc
  rw [hall, htype, ← Bool.not_eq_false', hflag, foldl_pinType_iff hnone]
  constructor
  · rintro ⟨⟨t, h⟩, hne, rfl⟩
    have ht : t ≠ [] := by
      rintro rfl
      obtain ⟨o, ho⟩ := List.exists_mem_of_ne_nil _ hobsne
      exact hnone (h o ho ▸ ho)
    rw [fst_foldl_pinType_of_mem ht h hobsne]
    exact ⟨ht, h⟩
  · rintro ⟨hne, h⟩
    rw [fst_foldl_pinType_of_mem hne h hobsne]
    exact ⟨⟨cls, h⟩, hne, rfl⟩

/-- What a run that ends well has done. -/
theorem run_cases {answer : Bool} (h : p.run m = .ok (answer, m')) :
    (answer = false ∧ m' = m) ∨ (answer = true ∧ Seeded m m') ∨
      ∃ type entry, answer = true ∧ p.isCtor = false ∧
        m.lvars.lookup p.thisReg = some (.this, type) ∧ m.built.graph.entry = some entry ∧
        (m.scan p.thisVid p.retType).reused = true ∧
        (m.scan p.thisVid p.retType).sinkConflict = false ∧
        (m.scan p.thisVid p.retType).allAlloc = true ∧
        (m.scan p.thisVid p.retType).allocType ≠ [] ∧
        ¬m.entryThisRead p.thisVid (m.scan p.thisVid p.retType).reassignBlocks entry = true ∧
        p.reassignOk (m.scan p.thisVid p.retType).allocType
          (m.scan p.thisVid p.retType).reassign = .ok true := by
  have hsame {m₁ : ReceiverMethod} (h : Except.ok (ε := Halt) (false, m) = .ok (answer, m₁)) :
      answer = false ∧ m₁ = m := by
    obtain ⟨rfl, rfl⟩ := Prod.mk.inj (Except.ok.inj h)
    exact ⟨rfl, rfl⟩
  unfold run at h
  split at h
  · exact Or.inl (hsame h)
  · rename_i hctor
    split at h
    · rename_i type entry hthis hentry
      dsimp only at h
      split at h
      · exact Or.inl (hsame h)
      · rename_i hscan
        obtain ⟨hreused, hconflict⟩ := not_or.mp hscan
        split at h
        · rename_i hdef
          split at h
          · exact Or.inl (hsame h)
          · obtain ⟨ok, hok, h⟩ := bind_eq_ok.mp h
            split at h
            · rename_i htrue
              obtain rfl : ok = true := htrue
              obtain ⟨rfl, rfl⟩ := Prod.mk.inj (Except.ok.inj h)
              obtain ⟨hdef, hread⟩ := Bool.and_eq_true_iff.mp hdef
              obtain ⟨halloc, hne⟩ := Bool.and_eq_true_iff.mp hdef
              refine Or.inr (Or.inr ⟨type, entry, rfl, Bool.eq_false_iff.mpr hctor, hthis, hentry,
                not_not.mp hreused, Bool.eq_false_iff.mpr hconflict, halloc, of_decide_eq_true hne,
                Bool.eq_false_iff.mp ((Bool.not_eq_true' _).mp hread), hok⟩)
            · exact Or.inl (hsame h)
        · split at h
          · exact Or.inl (hsame h)
          · obtain ⟨ok, -, h⟩ := bind_eq_ok.mp h
            split at h
            · obtain ⟨ok, -, h⟩ := bind_eq_ok.mp h
              split at h
              · obtain ⟨rfl, rfl⟩ := Prod.mk.inj (Except.ok.inj h)
                refine Or.inr (Or.inl ⟨rfl, entry, hentry, ?_⟩)
                unfold seeded renamed
                dsimp only
                rw [Function.update_self, List.length_cons]
                split
                · rw [List.length_map]
                · rfl
              · exact Or.inl (hsame h)
            · exact Or.inl (hsame h)
    · exact Or.inl (hsame h)

theorem not_seeded_renamed : ¬Seeded m (p.renamed m anchor) := by
  rintro ⟨entry, -, hlen⟩
  unfold renamed at hlen
  dsimp only at hlen
  split at hlen
  · rw [List.length_map] at hlen
    omega
  · omega

/-- The pass goes without the copy where the receiver is scratch and the scans find no read. -/
theorem run_of_scratch (hb : m.built.Sound) (h : p.Scratch m) (hread : ¬m.ScansRead p.thisVid) :
    ∃ cls, p.run m = .ok (true, p.renamed m cls) := by
  obtain ⟨type, hthis⟩ := h.receiver
  obtain ⟨entry, hentry⟩ := h.entry
  obtain ⟨cls, href, hself, hcls⟩ := h.alloc
  obtain ⟨halloc, hne, htype⟩ := (scan_allAlloc h.reused).mpr ⟨href, hcls⟩
  have hreused := scan_reused.mpr h.reused
  have hconflict := scan_conflict.mpr h.sinks
  have hno : m.entryThisRead p.thisVid (m.scan p.thisVid p.retType).reassignBlocks entry = false :=
    Bool.eq_false_iff.mpr fun hyes => hread ((ReceiverMethod.entryThisRead_iff hb hentry).mp hyes)
  have hok : p.reassignOk cls (m.scan p.thisVid p.retType).reassign = .ok true := by
    rw [reassignOk_iff]
    intro t ht
    obtain ⟨s, hs, hlhs, rfl⟩ := mem_scan_reassign.mp ht
    have hgives : s.2.reassigned = cls := by
      rw [ReceiverForm.reassigned, (hcls s hs hlhs).2, if_pos href]
    rw [hgives]
    refine ⟨?_, Or.inr hself⟩
    rintro rfl
    cases href
  refine ⟨cls, ?_⟩
  unfold run
  rw [h.method, if_neg Bool.false_ne_true, hthis, hentry]
  dsimp only
  rw [hreused, hconflict, halloc, hno, htype, if_neg (by decide), decide_eq_true (htype ▸ hne)]
  simp [hok, htype ▸ hne, bind, Except.bind, pure, Except.pure]

/-- Without the copy, the receiver is scratch and the scans found no read. -/
theorem scratch_of_run (hb : m.built.Sound) (h : p.run m = .ok (true, m'))
    (hseed : ¬Seeded m m') : p.Scratch m ∧ ¬m.ScansRead p.thisVid := by
  obtain ⟨hfalse, -⟩ | ⟨-, hcopy⟩ | ⟨type, entry, -, hctor, hthis, hentry, hreused, hconflict,
    halloc, hne, hread, hok⟩ := run_cases h
  · cases hfalse
  · exact absurd hcopy hseed
  · have hused := scan_reused.mp hreused
    obtain ⟨href, hcls⟩ := (scan_allAlloc hused).mp ⟨halloc, hne, rfl⟩
    refine ⟨⟨hctor, ⟨type, hthis⟩, ⟨entry, hentry⟩, scan_conflict.mp hconflict, hused, _, href, ?_,
      hcls⟩, fun hyes => hread ((ReceiverMethod.entryThisRead_iff hb hentry).mpr hyes)⟩
    obtain ⟨s, hs, hlhs⟩ := hused
    have hgives : s.2.reassigned = (m.scan p.thisVid p.retType).allocType := by
      rw [ReceiverForm.reassigned, (hcls s hs hlhs).2, if_pos href]
    have hself := (reassignOk_iff.mp hok _ (mem_scan_reassign.mpr ⟨s, hs, hlhs, hgives⟩)).2
    exact hself.resolve_left hne

/-- The pass changes nothing when it gives up, and goes without the copy only where the
value on entry is read by no execution. -/
def Safe (p : MaterializeReusedThis) (m : ReceiverMethod) (exits : Nat → Nat → Prop) : Prop :=
  ∀ answer m', p.run m = .ok (answer, m') → (answer = false → m' = m) ∧
    (answer = true → ¬Seeded m m' → ¬m.EarlyRead exits p.thisVid)

/-- On the graphs of `Construct` the pass is safe exactly when the receiver is no scratch
register, or the scans find a read, or no early read lies behind an exception into a
handler that is not marked. -/
theorem materialize_reused_this_safe_iff (snap : MethodSnapshot) (built : BuiltGraph)
    (ins : Nat → List ReceiverForm) (lvars : List (Int × VarKind × Text))
    (p : MaterializeReusedThis) (exits : Nat → Nat → Prop)
    (hbuilt : snap.constructGraph = .ok built) :
    p.Safe ⟨built, ins, lvars⟩ exits ↔
      (p.Scratch ⟨built, ins, lvars⟩ →
        ReceiverMethod.ScansRead ⟨built, ins, lvars⟩ p.thisVid ∨
          ¬ReceiverMethod.SharedHandlerRead ⟨built, ins, lvars⟩ exits p.thisVid) := by
  have hb := MethodSnapshot.sound_of_constructGraph hbuilt
  constructor
  · intro hsafe hscratch
    by_contra hnone
    obtain ⟨hread, hshared⟩ := not_or.mp hnone
    obtain ⟨cls, hrun⟩ := run_of_scratch hb hscratch hread
    exact (hsafe true _ hrun).2 rfl not_seeded_renamed (not_not.mp hshared).earlyRead
  · intro h answer m' hrun
    constructor
    · rintro rfl
      obtain ⟨-, hsame⟩ | ⟨hcontra, -⟩ | ⟨_, _, hcontra, -⟩ := run_cases hrun
      · exact hsame
      · cases hcontra
      · cases hcontra
    · rintro rfl hseed hearly
      obtain ⟨hscratch, hread⟩ := scratch_of_run hb hrun hseed
      have hshared := (h hscratch).resolve_left hread
      exact hread (ReceiverMethod.scansRead_of_earlyRead hearly hshared)

end MaterializeReusedThis

/-! A handler that a branch leads to as well. -/

/-- A bare header with one type and three methods, and the code item of `if-eqz v1, L;
new-instance v0; invoke-direct {v0}; goto H; L: invoke-static {}; return-void; H:
invoke-virtual {v0}; return-void`, a try over the static call and a catch-all at `H`. -/
def sharedHandlerImage : Memory :=
  List.replicate 32 0 ++ [171, 0, 0, 0] ++ List.replicate 28 0 ++ [1, 0, 0, 0] ++
    List.replicate 20 0 ++ [3, 0, 0, 0] ++ List.replicate 20 0 ++
    [2, 0, 2, 0, 1, 0, 1, 0, 0, 0, 0, 0, 16, 0, 0, 0] ++
    [0x38, 1, 8, 0, 0x22, 0, 0, 0, 0x70, 0x10, 0, 0, 0, 0, 0x28, 5] ++
    [0x71, 0, 1, 0, 0, 0, 0x0E, 0, 0x6E, 0x10, 2, 0, 0, 0, 0x0E, 0] ++
    [8, 0, 0, 0, 3, 0, 1, 0] ++ [1, 0, 12]

set_option maxRecDepth 20000 in
def sharedHandlerVerifier : Verifier :=
  ⟨sharedHandlerImage, 0, headerAt sharedHandlerImage 0, ⟨0, 171, by decide⟩, true⟩

def sharedHandlerIns : List RawIns :=
  [{ byteOff := 0, opcode := 0x38, branchTarget := 16 }, { byteOff := 4, opcode := 0x22 },
    { byteOff := 8, opcode := 0x70 }, { byteOff := 14, opcode := 0x28, branchTarget := 24 },
    { byteOff := 16, opcode := 0x71 }, { byteOff := 22, opcode := 0x0E },
    { byteOff := 24, opcode := 0x6E }, { byteOff := 30, opcode := 0x0E }]

def sharedHandler : MethodSnapshot :=
  (sharedHandlerVerifier.codeItem 112).snapshot (fun _ => []) ⟨fun _ => [], fun _ => [],
    fun _ => (false, [])⟩ (some 0) sharedHandlerIns

def sharedHandlerBuilt : BuiltGraph :=
  match sharedHandler.constructGraph with
  | .ok built => built
  | .error _ => {}

/-- The instructions of the blocks: the receiver is `v0`. -/
def sharedHandlerForms : Nat → List ReceiverForm
  | 0 => [{ lhs := none, usedVars := [vidOf 1], distinct := by decide }]
  | 1 =>
    [{ lhs := some (vidOf 0), usedVars := [], distinct := by decide
       rhs := some (.newInstance, ascii "LC;") },
      { lhs := none, usedVars := [vidOf 0], distinct := by decide
        rhs := some (.invoke [] [], ascii "V") }]
  | 2 =>
    [{ lhs := none, usedVars := [], distinct := by decide, rhs := some (.invoke [] [], ascii "V") },
      { lhs := none, usedVars := [], distinct := by decide, isReturn := true }]
  | 3 =>
    [{ lhs := none, usedVars := [vidOf 0], distinct := by decide
       rhs := some (.invoke [] [], ascii "I") },
      { lhs := none, usedVars := [], distinct := by decide, isReturn := true }]
  | _ => []

def sharedHandlerVars : List (Int × VarKind × Text) :=
  [(0, .this, ascii "LC;"), (1, .param, ascii "Z")]

def sharedHandlerMethod : ReceiverMethod :=
  ⟨sharedHandlerBuilt, sharedHandlerForms, sharedHandlerVars⟩

def sharedHandlerPass : MaterializeReusedThis := ⟨0, ascii "LC;", ascii "V", false, none⟩

set_option maxRecDepth 20000 in
theorem sharedHandler_code : sharedHandlerVerifier.verifyCodeItem 112 = .ok () ∧
    (sharedHandlerVerifier.codeItem 112).decodeAllFrom
      (sharedHandlerVerifier.codeItem 112).insnsSize 0 = .ok sharedHandlerIns := by
  decide

set_option maxRecDepth 20000 in
theorem sharedHandler_graph : sharedHandler.entry = some 0 ∧ 0 < sharedHandler.blocks.length ∧
    sharedHandlerBuilt.graph.entry = some 0 ∧ sharedHandlerBuilt.graph.rpo = [0, 2, 1, 3] ∧
    2 ∈ sharedHandlerBuilt.graph.sucs 0 ∧ 3 ∈ sharedHandlerBuilt.graph.catchEdges.sucs 2 := by
  decide

theorem sharedHandler_built : sharedHandler.constructGraph = .ok sharedHandlerBuilt := by
  obtain ⟨hentry, hlen, -⟩ := sharedHandler_graph
  unfold sharedHandlerBuilt MethodSnapshot.constructGraph
  rw [hentry]
  dsimp only
  rw [if_neg (by omega)]

set_option maxRecDepth 20000 in
theorem sharedHandler_scan : sharedHandlerMethod.entryThisRead sharedHandlerPass.thisVid
      (sharedHandlerMethod.scan sharedHandlerPass.thisVid
        sharedHandlerPass.retType).reassignBlocks 0 = false ∧
    (∀ s ∈ sharedHandlerMethod.sites,
      s.2.sinks sharedHandlerPass.thisVid sharedHandlerPass.retType = []) ∧
    (∃ s ∈ sharedHandlerMethod.sites, s.2.lhs = some sharedHandlerPass.thisVid) ∧
    ∀ s ∈ sharedHandlerMethod.sites, s.2.lhs = some sharedHandlerPass.thisVid →
      s.2.isAlloc = true ∧ s.2.rhsType = ascii "LC;" := by
  decide

set_option maxRecDepth 20000 in
theorem sharedHandler_scratch : sharedHandlerPass.Scratch sharedHandlerMethod := by
  obtain ⟨-, -, hentry, -⟩ := sharedHandler_graph
  obtain ⟨-, hsinks, hreused, halloc⟩ := sharedHandler_scan
  refine ⟨rfl, ⟨ascii "LC;", rfl⟩, ⟨0, hentry⟩, ⟨[], fun s hs t ht => ?_⟩, hreused,
    ascii "LC;", rfl, rfl, halloc⟩
  rw [hsinks s hs] at ht
  cases ht

set_option maxRecDepth 20000 in
/-- The static call throws, and the handler reads the receiver. -/
theorem sharedHandler_earlyRead :
    sharedHandlerMethod.EarlyRead anyExit sharedHandlerPass.thisVid := by
  obtain ⟨-, -, hentry, -, hbranch, hcatch⟩ := sharedHandler_graph
  have htest : sharedHandlerMethod.code.Step anyExit
      (fun ins => ins.lhs ≠ some sharedHandlerPass.thisVid) (0, 0) (0, 1) :=
    .next rfl (by decide)
  have hleave : sharedHandlerMethod.code.Step anyExit
      (fun ins => ins.lhs ≠ some sharedHandlerPass.thisVid) (0, 1) (2, 0) := .leave hbranch
  have hcall : sharedHandlerMethod.code.Step anyExit
      (fun ins => ins.lhs ≠ some sharedHandlerPass.thisVid) (2, 0) (2, 1) :=
    .next rfl (by decide)
  have hthrow : sharedHandlerMethod.code.Step anyExit
      (fun ins => ins.lhs ≠ some sharedHandlerPass.thisVid) (2, 1) (3, 0) :=
    .caught hcatch ⟨by decide, by decide⟩
  exact ⟨0, (3, 0), hentry, (((ReflTransGen.single htest).tail hleave).tail hcall).tail hthrow,
    _, rfl, by decide⟩

namespace MaterializeReusedThis

set_option maxRecDepth 20000 in
theorem materialize_reused_this_safe_iff_sharedHandler :
    sharedHandlerPass.Safe sharedHandlerMethod anyExit ↔
      (sharedHandlerPass.Scratch sharedHandlerMethod →
        sharedHandlerMethod.ScansRead sharedHandlerPass.thisVid ∨
          ¬sharedHandlerMethod.SharedHandlerRead anyExit sharedHandlerPass.thisVid) :=
  materialize_reused_this_safe_iff sharedHandler sharedHandlerBuilt sharedHandlerForms
    sharedHandlerVars sharedHandlerPass anyExit sharedHandler_built

end MaterializeReusedThis

set_option maxRecDepth 20000 in
/-- The receiver of the handler becomes a local that nothing has assigned. -/
theorem sharedHandler_unassigned : ¬ ∀ (snap : MethodSnapshot) (built : BuiltGraph)
    (ins : Nat → List ReceiverForm) (lvars : List (Int × VarKind × Text))
    (p : MaterializeReusedThis), snap.constructGraph = .ok built →
    p.Safe ⟨built, ins, lvars⟩ anyExit := by
  intro h
  obtain ⟨-, -, hentry, -⟩ := sharedHandler_graph
  obtain ⟨hno, -⟩ := sharedHandler_scan
  have hb := MethodSnapshot.sound_of_constructGraph sharedHandler_built
  have hread : ¬sharedHandlerMethod.ScansRead sharedHandlerPass.thisVid := by
    intro hyes
    have htrue : sharedHandlerMethod.entryThisRead sharedHandlerPass.thisVid
        (sharedHandlerMethod.scan sharedHandlerPass.thisVid
          sharedHandlerPass.retType).reassignBlocks 0 = true :=
      (ReceiverMethod.entryThisRead_iff hb hentry).mpr hyes
    rw [hno] at htrue
    cases htrue
  obtain ⟨cls, hrun⟩ :=
    MaterializeReusedThis.run_of_scratch (m := sharedHandlerMethod) hb sharedHandler_scratch hread
  have hsafe := h sharedHandler sharedHandlerBuilt sharedHandlerForms sharedHandlerVars
    sharedHandlerPass sharedHandler_built
  exact (hsafe true _ hrun).2 rfl MaterializeReusedThis.not_seeded_renamed sharedHandler_earlyRead

end Dexllm
