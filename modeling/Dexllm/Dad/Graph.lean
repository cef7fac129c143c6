import Dexllm.Lib.Dominators
import Mathlib.Data.List.Sort
import Mathlib.Data.List.Perm.Subperm

/-!
The control-flow graph of the decompiler: nodes, normal and catch edges with
their reverse tables, the post-order walk and the reverse post-order numbers.
The node type is a parameter, for blocks and intervals share the graph.
-/

namespace Dexllm.Dad

open DepthFirst

/-- An edge table with its reverse table. -/
structure EdgeTable (α : Type) where
  sucs : α → List α
  preds : α → List α
  mirrored : ∀ v w, w ∈ sucs v ↔ v ∈ preds w

def EdgeTable.empty {α : Type} : EdgeTable α where
  sucs := fun _ => []
  preds := fun _ => []
  mirrored := by simp

structure Graph (α : Type) where
  entry : Option α := none
  exit : Option α := none
  nodes : List α := []
  edges : EdgeTable α := EdgeTable.empty
  catchEdges : EdgeTable α := EdgeTable.empty
  rpo : List α := []
  num : α → Int := fun _ => 0

/-- What building a graph by distinct nodes and edges between them gives. -/
structure Graph.WellFormed {α : Type} (g : Graph α) : Prop where
  nodup : g.nodes.Nodup
  entryMem : ∀ e, g.entry = some e → e ∈ g.nodes
  edgesMem : ∀ v w, w ∈ g.edges.sucs v → v ∈ g.nodes ∧ w ∈ g.nodes
  catchMem : ∀ v w, w ∈ g.catchEdges.sucs v → v ∈ g.nodes ∧ w ∈ g.nodes

namespace Graph

section Tables

variable {α : Type}

def sucs (g : Graph α) (v : α) : List α := g.edges.sucs v

def allSucs (g : Graph α) (v : α) : List α := g.edges.sucs v ++ g.catchEdges.sucs v

def allPreds (g : Graph α) (v : α) : List α := g.edges.preds v ++ g.catchEdges.preds v

def addNode (g : Graph α) (v : α) : Graph α := { g with nodes := g.nodes ++ [v] }

/-- The nodes the entry reaches along normal and catch edges. -/
def Reachable (g : Graph α) (v : α) : Prop := ∃ e, g.entry = some e ∧ Reaches g.allSucs e v

variable {g : Graph α} {v w : α}

theorem mem_allPreds : v ∈ g.allPreds w ↔ w ∈ g.allSucs v := by
  unfold allPreds allSucs
  rw [List.mem_append, List.mem_append, g.edges.mirrored, g.catchEdges.mirrored]

theorem WellFormed.closed (hg : g.WellFormed) (h : w ∈ g.allSucs v) :
    v ∈ g.nodes ∧ w ∈ g.nodes := by
  rcases List.mem_append.mp h with h | h
  · exact hg.edgesMem v w h
  · exact hg.catchMem v w h

theorem WellFormed.reachable_mem (hg : g.WellFormed) (h : g.Reachable v) : v ∈ g.nodes := by
  obtain ⟨e, he, hreach⟩ := h
  rw [reaches_iff] at hreach
  rcases Relation.ReflTransGen.cases_tail hreach with rfl | ⟨_, _, harc⟩
  · exact hg.entryMem v he
  · exact (hg.closed harc).2

theorem wellFormed_empty : ({} : Graph α).WellFormed where
  nodup := List.nodup_nil
  entryMem := by simp
  edgesMem := by simp [EdgeTable.empty]
  catchMem := by simp [EdgeTable.empty]

theorem WellFormed.addNode (hg : g.WellFormed) (hv : v ∉ g.nodes) :
    (g.addNode v).WellFormed where
  nodup := List.nodup_append.mpr ⟨hg.nodup, by simp, by
    rintro x hx y hy rfl
    exact hv (List.mem_singleton.mp hy ▸ hx)⟩
  entryMem := fun e he => List.mem_append_left _ (hg.entryMem e he)
  edgesMem := fun x y h => (hg.edgesMem x y h).imp (List.mem_append_left _)
    (List.mem_append_left _)
  catchMem := fun x y h => (hg.catchMem x y h).imp (List.mem_append_left _)
    (List.mem_append_left _)

theorem WellFormed.setEntry (hg : g.WellFormed) (hv : v ∈ g.nodes) :
    ({ g with entry := some v } : Graph α).WellFormed where
  nodup := hg.nodup
  entryMem := by
    intro e he
    obtain rfl := Option.some.inj he
    exact hv
  edgesMem := hg.edgesMem
  catchMem := hg.catchMem

end Tables

end Graph

variable {α : Type} [DecidableEq α]

/-- Appends `x` unless the list has it. -/
def pushNew (l : List α) (x : α) : List α := if x ∈ l then l else l ++ [x]

@[simp] theorem mem_pushNew {l : List α} {x y : α} : y ∈ pushNew l x ↔ y ∈ l ∨ y = x := by
  unfold pushNew
  split
  next hx =>
    constructor
    · exact .inl
    · rintro (hy | rfl)
      · exact hy
      · exact hx
  next => simp

theorem mem_update_pushNew {f : α → List α} {e x v w : α} :
    w ∈ Function.update f e (pushNew (f e) x) v ↔ w ∈ f v ∨ (v = e ∧ w = x) := by
  rcases eq_or_ne v e with rfl | hne
  · simp
  · rw [Function.update_of_ne hne]
    simp [hne]

def EdgeTable.add (t : EdgeTable α) (e1 e2 : α) : EdgeTable α where
  sucs := Function.update t.sucs e1 (pushNew (t.sucs e1) e2)
  preds := Function.update t.preds e2 (pushNew (t.preds e2) e1)
  mirrored := by
    intro v w
    rw [mem_update_pushNew, mem_update_pushNew, t.mirrored v w]
    tauto

@[simp] theorem EdgeTable.mem_add {t : EdgeTable α} {e1 e2 v w : α} :
    w ∈ (t.add e1 e2).sucs v ↔ w ∈ t.sucs v ∨ (v = e1 ∧ w = e2) := mem_update_pushNew

namespace Graph

def addEdge (g : Graph α) (e1 e2 : α) : Graph α := { g with edges := g.edges.add e1 e2 }

def addCatchEdge (g : Graph α) (e1 e2 : α) : Graph α :=
  { g with catchEdges := g.catchEdges.add e1 e2 }

/-- The walk of `post_order`, which the one of `DomLt` repeats arc by arc. -/
def dfs (g : Graph α) (entry : α) : DepthFirst.State α := run g.allSucs g.nodes entry

def postOrder (g : Graph α) : List α :=
  match g.entry with
  | none => []
  | some entry => (g.dfs entry).left

/-- Numbers the nodes the walk leaves, from the last one left on, and sorts the
nodes by their numbers. A node that is not reached keeps its number. -/
def computeRpo (g : Graph α) : Graph α :=
  let nb : Int := g.nodes.length + 1
  let po := g.postOrder
  let num (v : α) : Int := if v ∈ po then nb - (po.idxOf v + 1) else g.num v
  { g with num, rpo := g.nodes.insertionSort fun a b => num a ≤ num b }

variable {g : Graph α} {e v w : α}

@[simp] theorem allSucs_computeRpo : g.computeRpo.allSucs = g.allSucs := rfl

@[simp] theorem allPreds_computeRpo : g.computeRpo.allPreds = g.allPreds := rfl

@[simp] theorem nodes_computeRpo : g.computeRpo.nodes = g.nodes := rfl

@[simp] theorem entry_computeRpo : g.computeRpo.entry = g.entry := rfl

theorem WellFormed.addEdge (hg : g.WellFormed) (hv : v ∈ g.nodes) (hw : w ∈ g.nodes) :
    (g.addEdge v w).WellFormed where
  nodup := hg.nodup
  entryMem := hg.entryMem
  edgesMem := by
    intro x y h
    rcases EdgeTable.mem_add.mp h with h | ⟨rfl, rfl⟩
    · exact hg.edgesMem x y h
    · exact ⟨hv, hw⟩
  catchMem := hg.catchMem

theorem WellFormed.addCatchEdge (hg : g.WellFormed) (hv : v ∈ g.nodes) (hw : w ∈ g.nodes) :
    (g.addCatchEdge v w).WellFormed where
  nodup := hg.nodup
  entryMem := hg.entryMem
  edgesMem := hg.edgesMem
  catchMem := by
    intro x y h
    rcases EdgeTable.mem_add.mp h with h | ⟨rfl, rfl⟩
    · exact hg.catchMem x y h
    · exact ⟨hv, hw⟩

theorem WellFormed.computeRpo (hg : g.WellFormed) : g.computeRpo.WellFormed :=
  ⟨hg.nodup, hg.entryMem, hg.edgesMem, hg.catchMem⟩

theorem WellFormed.stack_dfs (hg : g.WellFormed) (he : g.entry = some e) :
    (g.dfs e).stack = [] :=
  stack_run hg.nodup (fun _ _ h => (hg.closed h).2) (hg.entryMem e he)

theorem WellFormed.spanning (hg : g.WellFormed) (he : g.entry = some e) :
    Spanning g.allSucs e (g.dfs e).entered (g.dfs e).parent :=
  inv_run.spanning (hg.stack_dfs he)

theorem WellFormed.mem_left (hg : g.WellFormed) (he : g.entry = some e) :
    v ∈ (g.dfs e).left ↔ v ∈ (g.dfs e).entered := by
  have hinv : Inv g.allSucs e (g.dfs e) := inv_run
  have h := hinv.parts v
  rw [hg.stack_dfs he] at h
  simpa using h.symm

theorem WellFormed.entered_iff (hg : g.WellFormed) (he : g.entry = some e) :
    v ∈ (g.dfs e).entered ↔ g.Reachable v := by
  rw [(hg.spanning he).mem_iff]
  constructor
  · exact fun h => ⟨e, he, h⟩
  · rintro ⟨e', he', h⟩
    obtain rfl := Option.some.inj (he.symm.trans he')
    exact h

theorem WellFormed.mem_postOrder (hg : g.WellFormed) : v ∈ g.postOrder ↔ g.Reachable v := by
  unfold postOrder
  cases he : g.entry with
  | none =>
    constructor
    · exact fun h => absurd h List.not_mem_nil
    · rintro ⟨e, he', _⟩
      rw [he] at he'
      cases he'
  | some e => exact (hg.mem_left he).trans (hg.entered_iff he)

end Graph

end Dexllm.Dad
