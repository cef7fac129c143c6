import Dexllm.Dad.ShortCircuit
import Dexllm.Dad.Simplify
import Dexllm.Dad.SplitFaithful

/-!
The four edge tables under any sequence of the calls that change them, and under
the three passes that make such calls.
-/

namespace Dexllm.Dad

open Adjacency

namespace BlockGraph

variable {I : Type}

/-- A call that changes the tables. -/
inductive Call
  | addNode (v : Nat)
  | addEdge (e1 e2 : Nat)
  | addCatchEdge (e1 e2 : Nat)
  | removeNode (v : Nat)
  deriving DecidableEq, Repr

namespace Call

def apply (g : BlockGraph I) : Call → BlockGraph I
  | addNode v => g.addNode v
  | addEdge e1 e2 => g.addEdge e1 e2
  | addCatchEdge e1 e2 => g.addCatchEdge e1 e2
  | removeNode v => g.removeNode v

/-- The nodes a call is given. -/
def args : Call → List Nat
  | addNode v => [v]
  | addEdge e1 e2 => [e1, e2]
  | addCatchEdge e1 e2 => [e1, e2]
  | removeNode v => [v]

/-- A removal is of a present node. -/
def RemovesPresent (g : BlockGraph I) : Call → Prop
  | removeNode v => v ∈ g.nodes
  | _ => True

/-- A node that is added is new. -/
def AddsNew (g : BlockGraph I) : Call → Prop
  | addNode v => v ∉ g.nodes
  | _ => True

end Call

/-- The graph after the calls. -/
def runCalls (g : BlockGraph I) (calls : List Call) : BlockGraph I := calls.foldl Call.apply g

/-- Each call of the run meets `P` where it is made. -/
def Along (P : BlockGraph I → Call → Prop) : BlockGraph I → List Call → Prop
  | _, [] => True
  | g, call :: calls => P g call ∧ Along P (call.apply g) calls

/-- Only new nodes are added, only present ones removed. -/
def Allowed (g : BlockGraph I) (call : Call) : Prop := call.RemovesPresent g ∧ call.AddsNew g

/-- Consistent tables, and every node once in `nodes` and in `rpo`. -/
structure Tidy (g : BlockGraph I) : Prop extends g.Consistent where
  nodup : g.nodes.Nodup
  rpoNodup : g.rpo.Nodup

variable {g : BlockGraph I} {call : Call} {calls before after : List Call} {v : Nat}

theorem Tidy.apply (h : g.Tidy) (hallowed : Allowed g call) : (call.apply g).Tidy := by
  cases call with
  | addNode w =>
    have hnodup : (g.nodes ++ [w]).Nodup := by
      apply List.nodup_append.mpr
      refine ⟨h.nodup, List.nodup_singleton w, ?_⟩
      rintro x hx y hy rfl
      exact hallowed.2 (List.mem_singleton.mp hy ▸ hx)
    exact ⟨h.toConsistent.addNode, hnodup, h.rpoNodup⟩
  | addEdge e1 e2 => exact ⟨h.toConsistent.addEdge, h.nodup, h.rpoNodup⟩
  | addCatchEdge e1 e2 => exact ⟨h.toConsistent.addCatchEdge, h.nodup, h.rpoNodup⟩
  | removeNode w =>
    exact ⟨h.toConsistent.removeNode, h.nodup.erase w, h.rpoNodup.erase w⟩

/-- A removed node is nowhere. -/
theorem Tidy.absent_removeNode (h : g.Tidy) : (g.removeNode v).Absent v := by
  apply h.toConsistent.removeNode.absent h.nodup.not_mem_erase h.rpoNodup.not_mem_erase
  · intro w
    rw [h.edge_removeNode, h.edge_removeNode]
    exact ⟨fun he => he.2.1 rfl, fun he => he.2.2 rfl⟩
  · intro w
    rw [h.catchEdge_removeNode, h.catchEdge_removeNode]
    exact ⟨fun he => he.2.1 rfl, fun he => he.2.2 rfl⟩

theorem Absent.not_edge (h : g.Absent v) (w : Nat) : ¬ g.Edge v w ∧ ¬ g.Edge w v :=
  ⟨List.eq_nil_iff_forall_not_mem.mp h.sucs w, (h.edges w).1⟩

theorem Absent.not_catchEdge (h : g.Absent v) (w : Nat) :
    ¬ g.CatchEdge v w ∧ ¬ g.CatchEdge w v :=
  ⟨List.eq_nil_iff_forall_not_mem.mp h.catchSucs w, (h.catchEdges w).1⟩

/-- A call that is not given an absent node leaves it absent. -/
theorem Tidy.absent_apply (h : g.Tidy) (hallowed : Allowed g call) (habsent : g.Absent v)
    (hv : v ∉ call.args) : (call.apply g).Absent v := by
  have hedge := habsent.not_edge
  have hcatch := habsent.not_catchEdge
  have hkept := (h.apply hallowed).toConsistent
  cases call with
  | addNode w =>
    apply hkept.absent _ habsent.rpo hedge hcatch
    intro hmem
    rcases List.mem_append.mp hmem with hmem | hmem
    · exact habsent.nodes hmem
    · exact hv hmem
  | addEdge e1 e2 =>
    apply hkept.absent habsent.nodes habsent.rpo _ hcatch
    intro w
    constructor
    · intro he
      rcases edge_addEdge.mp he with he | ⟨rfl, -⟩
      · exact (hedge w).1 he
      · exact hv List.mem_cons_self
    · intro he
      rcases edge_addEdge.mp he with he | ⟨-, rfl⟩
      · exact (hedge w).2 he
      · exact hv (List.mem_cons_of_mem e1 List.mem_cons_self)
  | addCatchEdge e1 e2 =>
    apply hkept.absent habsent.nodes habsent.rpo hedge
    intro w
    constructor
    · intro he
      rcases catchEdge_addCatchEdge.mp he with he | ⟨rfl, -⟩
      · exact (hcatch w).1 he
      · exact hv List.mem_cons_self
    · intro he
      rcases catchEdge_addCatchEdge.mp he with he | ⟨-, rfl⟩
      · exact (hcatch w).2 he
      · exact hv (List.mem_cons_of_mem e1 List.mem_cons_self)
  | removeNode n =>
    apply hkept.absent
    · exact fun hmem => habsent.nodes (List.mem_of_mem_erase hmem)
    · exact fun hmem => habsent.rpo (List.mem_of_mem_erase hmem)
    · exact fun w => ⟨fun he => (hedge w).1 (h.edge_removeNode.mp he).1,
        fun he => (hedge w).2 (h.edge_removeNode.mp he).1⟩
    · exact fun w => ⟨fun he => (hcatch w).1 (h.catchEdge_removeNode.mp he).1,
        fun he => (hcatch w).2 (h.catchEdge_removeNode.mp he).1⟩

theorem Tidy.runCalls (h : g.Tidy) (hallowed : Along Allowed g calls) :
    (g.runCalls calls).Tidy := by
  induction calls generalizing g with
  | nil => exact h
  | cons call calls ih => exact ih (h.apply hallowed.1) hallowed.2

theorem Tidy.absent_runCalls (h : g.Tidy) (hallowed : Along Allowed g calls) (habsent : g.Absent v)
    (hv : ∀ call ∈ calls, v ∉ call.args) : (g.runCalls calls).Absent v := by
  induction calls generalizing g with
  | nil => exact habsent
  | cons call calls ih =>
    have hstep := h.absent_apply hallowed.1 habsent (hv call List.mem_cons_self)
    exact ih (h.apply hallowed.1) hallowed.2 hstep
      fun call' hcall' => hv call' (List.mem_cons_of_mem call hcall')

theorem along_append {P : BlockGraph I → Call → Prop} : Along P g (before ++ after) ↔
    Along P g before ∧ Along P (g.runCalls before) after := by
  induction before generalizing g with
  | nil => exact (true_and _).symm ▸ Iff.rfl
  | cons call before ih =>
    rw [List.cons_append]
    exact (and_congr_right fun _ => ih).trans and_assoc.symm

/-- Between a removal and the next call that is given the node, it is nowhere. -/
theorem Tidy.absent_removed (h : g.Tidy)
    (hallowed : Along Allowed g (before ++ .removeNode v :: after))
    (hv : ∀ call ∈ after, v ∉ call.args) :
    (g.runCalls (before ++ .removeNode v :: after)).Absent v := by
  obtain ⟨hbefore, hremove, hafter⟩ := along_append.mp hallowed
  have htidy := h.runCalls hbefore
  have hrun : g.runCalls (before ++ .removeNode v :: after) =
      ((g.runCalls before).removeNode v).runCalls after := List.foldl_append
  rw [hrun]
  exact (htidy.apply hremove).absent_runCalls hafter htidy.absent_removeNode hv

/-- Consistent tables that name nodes of the graph only. -/
structure Settled (g : BlockGraph I) : Prop extends g.Tidy where
  absent : ∀ v, v ∉ g.nodes → g.Absent v

theorem Sound.settled (h : g.Sound) : g.Settled where
  toConsistent := h.toConsistent
  nodup := h.nodup
  rpoNodup := h.rpoNodup
  absent := fun _ hv => h.absent hv

end BlockGraph

open BlockGraph

/-- The tables stay mirrored and without duplicates under every allowed sequence
of calls, from the graph without nodes or any other tidy one, and a removed node
stays out of them until it is given again. The three passes keep this, and leave
no trace of the nodes they remove. -/
theorem edge_tables_consistent {I : Type} [DecidableEq I] :
    (∀ (g : BlockGraph I) (calls : List Call), g.Tidy → Along Allowed g calls →
      (g.runCalls calls).Tidy ∧
        ∀ before v after, calls = before ++ .removeNode v :: after →
          (∀ call ∈ after, v ∉ call.args) → (g.runCalls calls).Absent v) ∧
      ∀ g : BlockGraph I, g.Sound →
        (Splitting.BranchesFollow g → (splitIfNodes g).Settled) ∧
          (∃ g', simplify g = some g' ∧ g'.Settled) ∧
          ∀ hash idom, (shortCircuitStruct hash g idom).state.graph.Settled := by
  constructor
  · intro g calls htidy hallowed
    refine ⟨htidy.runCalls hallowed, ?_⟩
    rintro before v after rfl hv
    exact htidy.absent_removed hallowed hv
  · intro g hsound
    refine ⟨fun hfollow => (Splitting.sound_splitIfNodes hsound hfollow).settled, ?_, ?_⟩
    · obtain ⟨g', hsome, hsound'⟩ :=
        Simplifying.rounds_spec hsound (Nat.lt_succ_self g.nodes.length)
      exact ⟨g', hsome, hsound'.settled⟩
    · exact fun hash idom => (sound_shortCircuitStruct hsound hash idom).settled

theorem tidy_empty {I : Type} : ({} : BlockGraph I).Tidy :=
  ⟨sound_empty.toConsistent, List.nodup_nil, List.nodup_nil⟩

/-- Two nodes with an edge, a catch edge and a self loop, of which one goes. -/
def loopCalls : List Call :=
  [.addNode 0, .addNode 1, .addEdge 0 1, .addCatchEdge 0 1, .addEdge 1 1, .removeNode 1]

theorem loopCalls_allowed : Along Allowed ({} : BlockGraph Nat) loopCalls :=
  ⟨⟨trivial, List.not_mem_nil⟩, ⟨trivial, (by decide : 1 ∉ [0])⟩, ⟨trivial, trivial⟩,
    ⟨trivial, trivial⟩, ⟨trivial, trivial⟩, ⟨(by decide : 1 ∈ [0, 1]), trivial⟩, trivial⟩

theorem edge_tables_consistent_loopCalls :
    ((({} : BlockGraph Nat).runCalls loopCalls).Tidy ∧
      (({} : BlockGraph Nat).runCalls loopCalls).Absent 1) ∧
      (splitIfNodes Splitting.handlerGraph).Settled ∧
      (∃ g', simplify Splitting.handlerGraph = some g' ∧ g'.Settled) ∧
      (shortCircuitStruct .inserted Splitting.handlerGraph ∅).state.graph.Settled := by
  obtain ⟨hcalls, hpasses⟩ := @edge_tables_consistent Nat _
  obtain ⟨htidy, hremoved⟩ := hcalls {} loopCalls tidy_empty loopCalls_allowed
  obtain ⟨hsplit, hsimplify, hshort⟩ := hpasses _ Splitting.handlerGraph_sound
  have hgone := hremoved [.addNode 0, .addNode 1, .addEdge 0 1, .addCatchEdge 0 1, .addEdge 1 1]
    1 [] rfl fun call hcall => absurd hcall List.not_mem_nil
  exact ⟨⟨htidy, hgone⟩, hsplit Splitting.handlerGraph_follow, hsimplify, hshort .inserted ∅⟩

/-- A node that is added twice is still a node after its removal. -/
theorem added_twice_stays : ¬∀ calls : List Call,
    Along (fun g call => call.RemovesPresent g) ({} : BlockGraph Nat) calls →
      (({} : BlockGraph Nat).runCalls calls).Consistent ∧
        ∀ before v after, calls = before ++ .removeNode v :: after →
          (∀ call ∈ after, v ∉ call.args) → (({} : BlockGraph Nat).runCalls calls).Absent v := by
  intro hall
  have hpresent : Along (fun g call => call.RemovesPresent g) ({} : BlockGraph Nat)
      [.addNode 0, .addNode 0, .removeNode 0] :=
    ⟨trivial, trivial, (by decide : 0 ∈ [0, 0]), trivial⟩
  have habsent := (hall _ hpresent).2 [.addNode 0, .addNode 0] 0 [] rfl
    fun call hcall => absurd hcall List.not_mem_nil
  exact habsent.nodes (by decide)

end Dexllm.Dad
