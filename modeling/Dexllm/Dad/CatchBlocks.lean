import Dexllm.Dad.Graph
import Dexllm.Dad.ReturnCell

/-!
The graph `Construct` wires and the blocks it marks as parts of a catch. A block that the
breadth-first search meets first along an exception edge is marked, and then every block
all of whose earlier predecessors are.
-/

namespace Dexllm

open Guarded Dad BreadthFirst

/-- The queue of `Construct` with `catch_seed`. -/
structure BlockQueue where
  queue : List Nat
  catchSeed : List Nat := []

namespace BlockQueue

def meetHandler (s : BlockQueue) (h : Nat) : BlockQueue :=
  if h ∈ s.queue then s else ⟨s.queue ++ [h], s.catchSeed ++ [h]⟩

def meetChild (s : BlockQueue) (t : Nat) : BlockQueue := { s with queue := enqueue s.queue t }

end BlockQueue

/-- A graph with the blocks marked `in_catch`. -/
structure BuiltGraph where
  graph : Dad.Graph Nat := {}
  inCatch : List Nat := []

/-- What `Construct` gives, as far as the passes behind it rely on it. -/
structure BuiltGraph.Sound (b : BuiltGraph) : Prop where
  wellFormed : b.graph.WellFormed
  rpo : b.graph.rpo.Perm b.graph.nodes
  inCatch : ∀ v ∈ b.inCatch, v ∈ b.graph.nodes

namespace MethodSnapshot

variable (m : MethodSnapshot)

def handlersOf (id : Nat) : List Nat :=
  match m.blocks[id]? with
  | none => []
  | some _ => (m.handlers id).filter (· < m.blocks.length)

def childsOf (id : Nat) : List Nat :=
  match m.blocks[id]? with
  | none => []
  | some blk => (blk.childs.map (·.target)).filter (· < m.blocks.length)

/-- Handlers are met before childs. -/
def meetSuccs (s : BlockQueue) (id : Nat) : BlockQueue :=
  (m.childsOf id).foldl .meetChild ((m.handlersOf id).foldl .meetHandler s)

def bfs : (rounds head : Nat) → BlockQueue → BlockQueue
  | 0, _, s => s
  | rounds + 1, head, s =>
    match s.queue[head]? with
    | none => s
    | some id => bfs rounds (head + 1) (m.meetSuccs s id)

/-- The edges of a block, between blocks that are built. -/
def wireBlock (nodes : List Nat) (g : Dad.Graph Nat) (id : Nat) : Dad.Graph Nat :=
  if id ∈ nodes then
    let g := (m.childsOf id).foldl (fun g t => if t ∈ nodes then g.addEdge id t else g) g
    (m.handlersOf id).foldl (fun g h => if h ∈ nodes then g.addCatchEdge id h else g) g
  else g

/-- A block whose predecessors of smaller number are all part of a catch is part of it. -/
def markCatch (g : Dad.Graph Nat) (inCatch : List Nat) (n : Nat) : List Nat :=
  let active := (g.allPreds n).filter fun p => g.num p < g.num n
  if active ≠ [] ∧ ∀ p ∈ active, p ∈ inCatch then n :: inCatch else inCatch

/-- The graph of `Construct`. -/
def constructGraph : Run BuiltGraph :=
  match m.entry with
  | none => .ok {}
  | some entry =>
    if m.blocks.length ≤ entry then
      .error (.thrown "Construct: entry_block_id names no block")
    else
      let s := m.bfs (m.blocks.length + 1) 0 { queue := [entry] }
      let g := s.queue.foldl Graph.addNode {}
      let g := (List.range m.blocks.length).foldl (m.wireBlock s.queue) g
      let g := Graph.computeRpo { g with entry := some entry }
      .ok ⟨g, g.rpo.foldl (markCatch g) s.catchSeed⟩

variable {m : MethodSnapshot}

theorem meetHandler_queue (s : BlockQueue) (h : Nat) :
    (s.meetHandler h).queue = enqueue s.queue h := by
  unfold BlockQueue.meetHandler enqueue
  split <;> rfl

theorem foldl_meetHandler_queue (hs : List Nat) (s : BlockQueue) :
    (hs.foldl .meetHandler s).queue = hs.foldl enqueue s.queue := by
  induction hs generalizing s with
  | nil => rfl
  | cons h hs ih => rw [List.foldl_cons, ih, meetHandler_queue, List.foldl_cons]

theorem foldl_meetChild_queue (ts : List Nat) (s : BlockQueue) :
    (ts.foldl .meetChild s).queue = ts.foldl enqueue s.queue := by
  induction ts generalizing s with
  | nil => rfl
  | cons t ts ih =>
    rw [List.foldl_cons, ih, List.foldl_cons]
    rfl

theorem foldl_meetChild_catchSeed (ts : List Nat) (s : BlockQueue) :
    (ts.foldl .meetChild s).catchSeed = s.catchSeed := by
  induction ts generalizing s with
  | nil => rfl
  | cons t ts ih => exact ih _

theorem succs_eq (id : Nat) : m.succs id = m.handlersOf id ++ m.childsOf id := by
  unfold succs handlersOf childsOf
  cases m.blocks[id]? with
  | none => rfl
  | some blk => exact List.filter_append _ _

/-- The search with seeds enters the blocks in the order of the one without. -/
theorem bfs_queue (rounds head : Nat) (s : BlockQueue) :
    (m.bfs rounds head s).queue = search m.succs rounds head s.queue := by
  induction rounds generalizing head s with
  | zero => rfl
  | succ rounds ih =>
    unfold bfs search
    cases s.queue[head]? with
    | none => rfl
    | some id =>
      dsimp only
      rw [ih, meetSuccs, foldl_meetChild_queue, foldl_meetHandler_queue, succs_eq,
        List.foldl_append]

theorem catchSeed_foldl_meetHandler {s : BlockQueue} (hs : List Nat)
    (h : s.catchSeed ⊆ s.queue) :
    (hs.foldl .meetHandler s).catchSeed ⊆ (hs.foldl .meetHandler s).queue := by
  induction hs generalizing s with
  | nil => exact h
  | cons handler hs ih =>
    refine ih ?_
    unfold BlockQueue.meetHandler
    split
    · exact h
    · intro v hv
      obtain hv | hv := List.mem_append.mp hv
      · exact List.mem_append_left _ (h hv)
      · exact List.mem_append_right _ hv

/-- A seed is a block of the search. -/
theorem catchSeed_bfs {rounds head : Nat} {s : BlockQueue} (h : s.catchSeed ⊆ s.queue) :
    (m.bfs rounds head s).catchSeed ⊆ (m.bfs rounds head s).queue := by
  induction rounds generalizing head s with
  | zero => exact h
  | succ rounds ih =>
    unfold bfs
    cases s.queue[head]? with
    | none => exact h
    | some id =>
      refine ih fun v hv => ?_
      unfold meetSuccs at hv ⊢
      rw [foldl_meetChild_catchSeed] at hv
      rw [foldl_meetChild_queue]
      exact (mem_foldl_enqueue _).mpr (Or.inl (catchSeed_foldl_meetHandler _ h hv))

theorem foldl_addNode (nodes : List Nat) (g : Dad.Graph Nat) (hg : g.WellFormed)
    (hnodup : (g.nodes ++ nodes).Nodup) :
    (nodes.foldl Graph.addNode g).WellFormed ∧
      (nodes.foldl Graph.addNode g).nodes = g.nodes ++ nodes := by
  induction nodes generalizing g with
  | nil => exact ⟨hg, (List.append_nil _).symm⟩
  | cons v nodes ih =>
    have hnew : v ∉ g.nodes := fun hv =>
      (List.nodup_append.mp hnodup).2.2 v hv v List.mem_cons_self rfl
    have hsplit : g.nodes ++ v :: nodes = (g.addNode v).nodes ++ nodes := by
      rw [Graph.addNode, List.append_assoc, List.singleton_append]
    rw [hsplit] at hnodup ⊢
    exact ih _ (hg.addNode hnew) hnodup

/-- Edges between nodes keep a graph well-formed. -/
theorem foldl_edges {add : Dad.Graph Nat → Nat → Dad.Graph Nat} {nodes : List Nat}
    (hadd : ∀ g : Dad.Graph Nat, g.WellFormed ∧ g.nodes = nodes → ∀ t,
      (add g t).WellFormed ∧ (add g t).nodes = nodes)
    (ts : List Nat) {g : Dad.Graph Nat} (hg : g.WellFormed ∧ g.nodes = nodes) :
    (ts.foldl add g).WellFormed ∧ (ts.foldl add g).nodes = nodes := by
  induction ts generalizing g with
  | nil => exact hg
  | cons t ts ih => exact ih (hadd g hg t)

theorem wireBlock_wellFormed {nodes : List Nat} {g : Dad.Graph Nat}
    (hg : g.WellFormed ∧ g.nodes = nodes) (id : Nat) :
    (m.wireBlock nodes g id).WellFormed ∧ (m.wireBlock nodes g id).nodes = nodes := by
  unfold wireBlock
  split
  · rename_i hid
    refine foldl_edges (fun g hg h => ?_) _ (foldl_edges (fun g hg t => ?_) _ hg)
    · split
      · rename_i hh
        exact ⟨hg.1.addCatchEdge (hg.2 ▸ hid) (hg.2 ▸ hh), hg.2⟩
      · exact hg
    · split
      · rename_i ht
        exact ⟨hg.1.addEdge (hg.2 ▸ hid) (hg.2 ▸ ht), hg.2⟩
      · exact hg
  · exact hg

theorem foldl_markCatch {g : Dad.Graph Nat} (ns inCatch : List Nat) (hns : ∀ v ∈ ns, v ∈ g.nodes)
    (h : ∀ v ∈ inCatch, v ∈ g.nodes) : ∀ v ∈ ns.foldl (markCatch g) inCatch, v ∈ g.nodes := by
  induction ns generalizing inCatch with
  | nil => exact h
  | cons n ns ih =>
    obtain ⟨hn, hns⟩ := List.forall_mem_cons.mp hns
    refine ih _ hns ?_
    unfold markCatch
    dsimp only
    split
    · exact List.forall_mem_cons.mpr ⟨hn, h⟩
    · exact h

theorem sound_of_constructGraph {b : BuiltGraph} (h : m.constructGraph = .ok b) : b.Sound := by
  unfold constructGraph at h
  split at h
  · obtain rfl := Except.ok.inj h
    exact ⟨Graph.wellFormed_empty, List.Perm.refl _, fun v hv => absurd hv List.not_mem_nil⟩
  · rename_i entry _
    split at h
    · cases h
    · dsimp only at h
      obtain rfl := Except.ok.inj h
      generalize hs : m.bfs (m.blocks.length + 1) 0 { queue := [entry] } = s
      have hqueue : s.queue = search m.succs (m.blocks.length + 1) 0 [entry] := by
        rw [← hs, bfs_queue]
      have hnodup : s.queue.Nodup := by
        rw [hqueue]
        exact nodup_search (List.nodup_singleton entry)
      have hmem : entry ∈ s.queue := by
        rw [hqueue]
        exact mem_search_of_mem (List.mem_singleton_self entry)
      have hseed : s.catchSeed ⊆ s.queue := by
        rw [← hs]
        exact catchSeed_bfs (List.nil_subset _)
      have hempty := foldl_addNode s.queue {} Graph.wellFormed_empty hnodup
      have hwire : ∀ g : Dad.Graph Nat, g.WellFormed ∧ g.nodes = s.queue → ∀ id,
          (m.wireBlock s.queue g id).WellFormed ∧ (m.wireBlock s.queue g id).nodes = s.queue :=
        fun g hg id => wireBlock_wellFormed hg id
      obtain ⟨hg, hnodes⟩ := foldl_edges hwire (List.range m.blocks.length) hempty
      have hentry := hmem
      rw [← hnodes] at hentry
      have hbuilt := (hg.setEntry hentry).computeRpo
      refine ⟨hbuilt, List.perm_insertionSort _ _, foldl_markCatch _ _ (fun v hv => ?_) ?_⟩
      · exact (List.perm_insertionSort _ _).mem_iff.mp hv
      · intro v hv
        rw [Graph.nodes_computeRpo, hnodes]
        exact hseed hv

end MethodSnapshot

end Dexllm
