import Dexllm.Dad.Graph
import Dexllm.Lib.Adjacency
import Mathlib.Data.List.AList
import Mathlib.Data.List.Dedup

/-!
The control-flow graph as the structuring passes change it: blocks under their
addresses, which are numbers, the four edge tables with their keys, and the
operations on them.
-/

namespace Dexllm.Dad

open Adjacency

/-- The class of a block. -/
inductive BlockClass
  | statement
  | ret
  | throw
  | switch
  | cond
  | shortCircuit
  deriving DecidableEq, Repr

/-- The flag of a `NodeType` that is set. -/
inductive NodeType
  | none
  | cond
  | switch
  | stmt
  | ret
  | throw
  deriving DecidableEq, Repr

/-- The flag of a `LoopType` that is set. -/
inductive LoopType
  | none
  | pretest
  | posttest
  | endless
  deriving DecidableEq, Repr

/-- The two operands of a short-circuit condition and its two flags. -/
structure Condition where
  cond1 : Nat
  cond2 : Nat
  isand : Bool
  isnot : Bool
  deriving Repr

/-- `std::unordered_map<NodeBase*, NodeBase*>`, in some order of its keys. -/
abbrev NodeMap := AList fun _ : Nat => Nat

/-- `SnapshotMapGet` and `MapGet`. -/
def NodeMap.get (m : NodeMap) (k : Nat) : Nat := (m.lookup k).getD k

theorem NodeMap.get_of_not_mem {m : NodeMap} {k : Nat} (h : k ∉ m) : m.get k = k := by
  unfold NodeMap.get
  rw [AList.lookup_eq_none.mpr h]
  rfl

/-- A block. `I` is the type of the instruction pointers. -/
structure Block (I : Type) where
  cls : BlockClass := .statement
  name : String := ""
  num : Int := 0
  inCatch : Bool := false
  interval : Option Nat := none
  type : NodeType := .none
  looptype : LoopType := .none
  startloop : Bool := false
  latch : Option Nat := none
  followIf : Option Nat := none
  followLoop : Option Nat := none
  followSwitch : Option Nat := none
  loopNodes : List Nat := []
  ins : List I := []
  varToDeclare : List I := []
  catchType : String := ""
  trueBranch : Option Nat := none
  falseBranch : Option Nat := none
  cases : List Nat := []
  defaultCase : Option Nat := none
  nodeToCase : AList (fun _ : Nat => List Int) := ∅
  cond : Option Condition := none

namespace Block

variable {I : Type}

/-- `dynamic_cast<CondBlock*>` gives a block. -/
def isCondBlock (b : Block I) : Bool := b.cls = .cond ∨ b.cls = .shortCircuit

/-- One of the two branches of a block. -/
def branch (b : Block I) (side : Bool) : Option Nat :=
  if side then b.trueBranch else b.falseBranch

/-- `CopyFrom`. -/
def copyFrom (b other : Block I) : Block I :=
  { b with
    num := other.num
    looptype := other.looptype
    interval := other.interval
    startloop := other.startloop
    type := other.type
    followIf := other.followIf
    followLoop := other.followLoop
    followSwitch := other.followSwitch
    latch := other.latch
    loopNodes := other.loopNodes
    inCatch := other.inCatch }

/-- `add_ins`. -/
def addIns (b : Block I) (new : List I) : Block I := { b with ins := b.ins ++ new }

/-- `add_variable_declaration`. -/
def addVariableDeclaration [DecidableEq I] (b : Block I) (x : I) : Block I :=
  { b with varToDeclare := pushNew b.varToDeclare x }

/-- The move of the case values to the mapped targets. -/
def remapCases (m : NodeMap) (nodeToCase : AList fun _ : Nat => List Int) :
    AList fun _ : Nat => List Int :=
  m.entries.foldl (fun cases entry =>
    match cases.lookup entry.1 with
    | none => cases
    | some values => (cases.erase entry.1).insert entry.2 values) nodeToCase

/-- `UpdateAttributeWith`. The numbers sort the loop nodes. -/
def updateAttributeWith (num : Nat → Int) (m : NodeMap) (b : Block I) : Block I :=
  let b := { b with
    latch := b.latch.map m.get
    followIf := b.followIf.map m.get
    followLoop := b.followLoop.map m.get
    followSwitch := b.followSwitch.map m.get
    loopNodes := (b.loopNodes.map m.get).dedup.insertionSort fun x y => num x ≤ num y }
  match b.cls with
  | .cond | .shortCircuit =>
    { b with
      trueBranch := b.trueBranch.map m.get
      falseBranch := b.falseBranch.map m.get }
  | .switch =>
    { b with
      cases := b.cases.map m.get
      defaultCase := b.defaultCase.map m.get
      nodeToCase := remapCases m b.nodeToCase }
  | _ => b

end Block

structure BlockGraph (I : Type) where
  entry : Option Nat := none
  nodes : List Nat := []
  edges : Table Nat := fun _ => none
  reverseEdges : Table Nat := fun _ => none
  catchEdges : Table Nat := fun _ => none
  reverseCatchEdges : Table Nat := fun _ => none
  rpo : List Nat := []
  heap : Nat → Block I := fun _ => {}
  /-- The address the next allocation gives. -/
  fresh : Nat := 0

namespace BlockGraph

variable {I : Type}

section Reads

variable (g : BlockGraph I) (v : Nat)

def sucs : List Nat := g.edges.listAt v

def catchSucs : List Nat := g.catchEdges.listAt v

def allSucs : List Nat := g.sucs v ++ g.catchSucs v

def preds : List Nat := (g.reverseEdges.listAt v).filter fun p => !(g.heap p).inCatch

def allPreds : List Nat := g.reverseEdges.listAt v ++ g.reverseCatchEdges.listAt v

end Reads

/-- The block at `v`, changed. -/
def modify (g : BlockGraph I) (v : Nat) (f : Block I → Block I) : BlockGraph I :=
  { g with heap := Function.update g.heap v (f (g.heap v)) }

/-- `add_node`. -/
def addNode (g : BlockGraph I) (v : Nat) : BlockGraph I := { g with nodes := g.nodes ++ [v] }

/-- `MakeNode`, which allocates the block and appends it to the nodes. -/
def makeNode (g : BlockGraph I) (block : Block I) : BlockGraph I :=
  ({ g with heap := Function.update g.heap g.fresh block, fresh := g.fresh + 1 }).addNode g.fresh

/-- `add_edge`. -/
def addEdge (g : BlockGraph I) (e1 e2 : Nat) : BlockGraph I :=
  { g with edges := g.edges.push e1 e2, reverseEdges := g.reverseEdges.push e2 e1 }

/-- The catch type `add_catch_edge` gives both blocks. -/
def activeType (g : BlockGraph I) (e1 e2 : Nat) : String :=
  if (g.heap e1).catchType ≠ "" then (g.heap e1).catchType else (g.heap e2).catchType

/-- `add_catch_edge`. -/
def addCatchEdge (g : BlockGraph I) (e1 e2 : Nat) : BlockGraph I :=
  let active := g.activeType e1 e2
  let g := g.modify e1 fun b => { b with catchType := active }
  let g := g.modify e2 fun b => { b with catchType := active }
  { g with
    catchEdges := g.catchEdges.push e1 e2
    reverseCatchEdges := g.reverseCatchEdges.push e2 e1 }

/-- `remove_node`. The keys of the node are erased once more at the end. -/
def removeNode (g : BlockGraph I) (v : Nat) : BlockGraph I :=
  let tables := detach g.edges g.reverseEdges v
  let catchTables := popDetach g.catchEdges g.reverseCatchEdges v
  { g with
    edges := tables.1
    reverseEdges := tables.2
    catchEdges := catchTables.1
    reverseCatchEdges := catchTables.2
    nodes := g.nodes.erase v
    rpo := g.rpo.erase v }

/-- `if (node == graph.entry) graph.entry = new`. -/
def replaceEntry (g : BlockGraph I) (node new : Nat) : BlockGraph I :=
  if g.entry = some node then { g with entry := some new } else g

/-- `UpdateAttributeWith` on the node `v`. -/
def updateAttributeWith (g : BlockGraph I) (m : NodeMap) (v : Nat) : BlockGraph I :=
  g.modify v (Block.updateAttributeWith (fun w => (g.heap w).num) m)

/-- `post_order`. -/
def postOrder (g : BlockGraph I) : List Nat :=
  match g.entry with
  | none => []
  | some entry => (DepthFirst.run g.allSucs g.nodes entry).left

/-- `compute_rpo`. -/
def computeRpo (g : BlockGraph I) : BlockGraph I :=
  let nb : Int := g.nodes.length + 1
  let po := g.postOrder
  let num (v : Nat) : Int := if v ∈ po then nb - (po.idxOf v + 1) else (g.heap v).num
  { g with
    heap := fun v => { g.heap v with num := num v }
    rpo := g.nodes.insertionSort fun a b => num a ≤ num b }

/-- A normal edge. -/
def Edge (g : BlockGraph I) (v w : Nat) : Prop := w ∈ g.edges.listAt v

/-- A catch edge. -/
def CatchEdge (g : BlockGraph I) (v w : Nat) : Prop := w ∈ g.catchEdges.listAt v

instance (g : BlockGraph I) (v w : Nat) : Decidable (g.Edge v w) :=
  inferInstanceAs (Decidable (w ∈ g.edges.listAt v))

instance (g : BlockGraph I) (v w : Nat) : Decidable (g.CatchEdge v w) :=
  inferInstanceAs (Decidable (w ∈ g.catchEdges.listAt v))

/-- The reverse tables mirror the edge tables, and no list holds a node twice. -/
structure Consistent (g : BlockGraph I) : Prop where
  edges : Mirror g.edges g.reverseEdges
  catchEdges : Mirror g.catchEdges g.reverseCatchEdges

/-- What a graph built by distinct nodes and edges between them keeps. -/
structure Sound (g : BlockGraph I) : Prop extends g.Consistent where
  nodup : g.nodes.Nodup
  rpoNodup : g.rpo.Nodup
  rpoMem : ∀ v ∈ g.rpo, v ∈ g.nodes
  entryMem : ∀ e, g.entry = some e → e ∈ g.nodes
  edgeMem : ∀ v w, g.Edge v w → v ∈ g.nodes ∧ w ∈ g.nodes
  catchMem : ∀ v w, g.CatchEdge v w → v ∈ g.nodes ∧ w ∈ g.nodes
  freshNodes : ∀ v ∈ g.nodes, v < g.fresh

variable {g : BlockGraph I} {e1 e2 n v w : Nat} {f : Block I → Block I} {m : NodeMap}

section Spec

@[simp] theorem nodes_modify : (g.modify v f).nodes = g.nodes := rfl

@[simp] theorem entry_modify : (g.modify v f).entry = g.entry := rfl

@[simp] theorem fresh_modify : (g.modify v f).fresh = g.fresh := rfl

@[simp] theorem edge_modify : (g.modify n f).Edge v w ↔ g.Edge v w := Iff.rfl

@[simp] theorem catchEdge_modify : (g.modify n f).CatchEdge v w ↔ g.CatchEdge v w := Iff.rfl

theorem heap_modify : (g.modify v f).heap w = if w = v then f (g.heap v) else g.heap w := by
  unfold modify
  rcases eq_or_ne w v with rfl | hne
  · simp
  · simp [hne]

@[simp] theorem nodes_addEdge : (g.addEdge e1 e2).nodes = g.nodes := rfl

@[simp] theorem entry_addEdge : (g.addEdge e1 e2).entry = g.entry := rfl

@[simp] theorem fresh_addEdge : (g.addEdge e1 e2).fresh = g.fresh := rfl

@[simp] theorem heap_addEdge : (g.addEdge e1 e2).heap = g.heap := rfl

@[simp] theorem edge_addEdge : (g.addEdge e1 e2).Edge v w ↔ g.Edge v w ∨ (v = e1 ∧ w = e2) :=
  Table.mem_push

@[simp] theorem catchEdge_addEdge : (g.addEdge e1 e2).CatchEdge v w ↔ g.CatchEdge v w := Iff.rfl

@[simp] theorem nodes_addCatchEdge : (g.addCatchEdge e1 e2).nodes = g.nodes := rfl

@[simp] theorem entry_addCatchEdge : (g.addCatchEdge e1 e2).entry = g.entry := rfl

@[simp] theorem fresh_addCatchEdge : (g.addCatchEdge e1 e2).fresh = g.fresh := rfl

@[simp] theorem edge_addCatchEdge : (g.addCatchEdge e1 e2).Edge v w ↔ g.Edge v w := Iff.rfl

@[simp] theorem catchEdge_addCatchEdge :
    (g.addCatchEdge e1 e2).CatchEdge v w ↔ g.CatchEdge v w ∨ (v = e1 ∧ w = e2) :=
  Table.mem_push

@[simp] theorem nodes_makeNode {block : Block I} :
    (g.makeNode block).nodes = g.nodes ++ [g.fresh] := rfl

@[simp] theorem entry_makeNode {block : Block I} : (g.makeNode block).entry = g.entry := rfl

@[simp] theorem fresh_makeNode {block : Block I} : (g.makeNode block).fresh = g.fresh + 1 := rfl

@[simp] theorem edge_makeNode {block : Block I} : (g.makeNode block).Edge v w ↔ g.Edge v w :=
  Iff.rfl

@[simp] theorem catchEdge_makeNode {block : Block I} :
    (g.makeNode block).CatchEdge v w ↔ g.CatchEdge v w := Iff.rfl

@[simp] theorem entry_removeNode : (g.removeNode n).entry = g.entry := rfl

@[simp] theorem fresh_removeNode : (g.removeNode n).fresh = g.fresh := rfl

@[simp] theorem heap_removeNode : (g.removeNode n).heap = g.heap := rfl

theorem frame_replaceEntry : (g.replaceEntry n v).nodes = g.nodes ∧
    (g.replaceEntry n v).fresh = g.fresh ∧ (g.replaceEntry n v).heap = g.heap ∧
    (g.replaceEntry n v).edges = g.edges ∧ (g.replaceEntry n v).catchEdges = g.catchEdges := by
  unfold replaceEntry
  split
  · exact ⟨rfl, rfl, rfl, rfl, rfl⟩
  · exact ⟨rfl, rfl, rfl, rfl, rfl⟩

theorem entry_replaceEntry :
    (g.replaceEntry n v).entry = g.entry.map fun e => if e = n then v else e := by
  unfold replaceEntry
  cases h : g.entry with
  | none => simp [h]
  | some e =>
    rcases eq_or_ne e n with rfl | hne
    · simp
    · simp [h, hne]

theorem entry_replaceEntry_ne (hne : v ≠ n) : (g.replaceEntry n v).entry ≠ some n := by
  rw [entry_replaceEntry]
  cases g.entry with
  | none => simp
  | some e =>
    rw [Option.map_some]
    split
    · exact fun heq => hne (Option.some.inj heq)
    · rename_i he
      exact fun heq => he (Option.some.inj heq)

@[simp] theorem edge_replaceEntry {e : Nat} : (g.replaceEntry n e).Edge v w ↔ g.Edge v w := by
  unfold Edge
  rw [frame_replaceEntry.2.2.2.1]

@[simp] theorem catchEdge_replaceEntry {e : Nat} :
    (g.replaceEntry n e).CatchEdge v w ↔ g.CatchEdge v w := by
  unfold CatchEdge
  rw [frame_replaceEntry.2.2.2.2]

theorem Consistent.edge_removeNode (h : g.Consistent) :
    (g.removeNode n).Edge v w ↔ g.Edge v w ∧ v ≠ n ∧ w ≠ n := h.edges.mem_detach_fst

theorem Consistent.catchEdge_removeNode (h : g.Consistent) :
    (g.removeNode n).CatchEdge v w ↔ g.CatchEdge v w ∧ v ≠ n ∧ w ≠ n :=
  h.catchEdges.mem_popDetach_fst

theorem Consistent.mem_allPreds (h : g.Consistent) :
    v ∈ g.allPreds w ↔ g.Edge v w ∨ g.CatchEdge v w := by
  unfold allPreds
  rw [List.mem_append, ← h.edges.mem, ← h.catchEdges.mem]
  rfl

theorem mem_sucs : w ∈ g.sucs v ↔ g.Edge v w := Iff.rfl

theorem mem_catchSucs : w ∈ g.catchSucs v ↔ g.CatchEdge v w := Iff.rfl

theorem mem_allSucs : w ∈ g.allSucs v ↔ g.Edge v w ∨ g.CatchEdge v w := by
  unfold allSucs
  rw [List.mem_append, mem_sucs, mem_catchSucs]

end Spec

section Keeps

theorem Consistent.modify (h : g.Consistent) : (g.modify v f).Consistent := ⟨h.edges, h.catchEdges⟩

theorem Consistent.addNode (h : g.Consistent) : (g.addNode v).Consistent := ⟨h.edges, h.catchEdges⟩

theorem Consistent.makeNode {block : Block I} (h : g.Consistent) :
    (g.makeNode block).Consistent := ⟨h.edges, h.catchEdges⟩

theorem Consistent.addEdge (h : g.Consistent) : (g.addEdge e1 e2).Consistent :=
  ⟨h.edges.push, h.catchEdges⟩

theorem Consistent.addCatchEdge (h : g.Consistent) : (g.addCatchEdge e1 e2).Consistent :=
  ⟨h.edges, h.catchEdges.push⟩

theorem Consistent.removeNode (h : g.Consistent) : (g.removeNode n).Consistent :=
  ⟨h.edges.detach, h.catchEdges.popDetach⟩

/-- The graph without nodes. -/
theorem sound_empty : ({} : BlockGraph I).Sound where
  edges := mirror_empty
  catchEdges := mirror_empty
  nodup := List.nodup_nil
  rpoNodup := List.nodup_nil
  rpoMem := fun _ hv => absurd hv List.not_mem_nil
  entryMem := by simp
  edgeMem := fun _ _ h => absurd h List.not_mem_nil
  catchMem := fun _ _ h => absurd h List.not_mem_nil
  freshNodes := fun _ hv => absurd hv List.not_mem_nil

theorem Sound.modify (h : g.Sound) : (g.modify v f).Sound :=
  { h with }

theorem Sound.addEdge (h : g.Sound) (h1 : e1 ∈ g.nodes) (h2 : e2 ∈ g.nodes) :
    (g.addEdge e1 e2).Sound :=
  { h with
    toConsistent := h.toConsistent.addEdge
    edgeMem := by
      intro v w hedge
      rcases edge_addEdge.mp hedge with hedge | ⟨rfl, rfl⟩
      · exact h.edgeMem v w hedge
      · exact ⟨h1, h2⟩ }

theorem Sound.addCatchEdge (h : g.Sound) (h1 : e1 ∈ g.nodes) (h2 : e2 ∈ g.nodes) :
    (g.addCatchEdge e1 e2).Sound :=
  { h with
    toConsistent := h.toConsistent.addCatchEdge
    catchMem := by
      intro v w hedge
      rcases catchEdge_addCatchEdge.mp hedge with hedge | ⟨rfl, rfl⟩
      · exact h.catchMem v w hedge
      · exact ⟨h1, h2⟩ }

theorem Sound.makeNode {block : Block I} (h : g.Sound) : (g.makeNode block).Sound where
  toConsistent := h.toConsistent.makeNode
  nodup := by
    apply List.nodup_append.mpr
    refine ⟨h.nodup, List.nodup_singleton _, ?_⟩
    rintro x hx y hy rfl
    have := h.freshNodes x hx
    rw [List.mem_singleton.mp hy] at this
    exact absurd this (Nat.lt_irrefl _)
  rpoNodup := h.rpoNodup
  rpoMem := fun v hv => List.mem_append_left _ (h.rpoMem v hv)
  entryMem := fun e he => List.mem_append_left _ (h.entryMem e he)
  edgeMem := fun v w hedge =>
    (h.edgeMem v w hedge).imp (List.mem_append_left _) (List.mem_append_left _)
  catchMem := fun v w hedge =>
    (h.catchMem v w hedge).imp (List.mem_append_left _) (List.mem_append_left _)
  freshNodes := by
    intro v hv
    rcases List.mem_append.mp hv with hv | hv
    · exact Nat.lt_succ_of_lt (h.freshNodes v hv)
    · rw [List.mem_singleton.mp hv]
      exact Nat.lt_succ_self _

theorem Sound.mem_removeNode (h : g.Sound) : v ∈ (g.removeNode n).nodes ↔ v ∈ g.nodes ∧ v ≠ n := by
  rw [show (g.removeNode n).nodes = g.nodes.erase n from rfl, h.nodup.mem_erase_iff]
  exact And.comm

/-- A node that is not the entry can go. -/
theorem Sound.removeNode (h : g.Sound) (hentry : g.entry ≠ some n) : (g.removeNode n).Sound where
  toConsistent := h.toConsistent.removeNode
  nodup := h.nodup.erase n
  rpoNodup := h.rpoNodup.erase n
  rpoMem := by
    intro v hv
    have hv := h.rpoNodup.mem_erase_iff.mp hv
    exact h.mem_removeNode.mpr ⟨h.rpoMem v hv.2, hv.1⟩
  entryMem := by
    intro e he
    have hne : e ≠ n := fun heq => hentry (heq ▸ he)
    exact h.mem_removeNode.mpr ⟨h.entryMem e he, hne⟩
  edgeMem := by
    intro v w hedge
    obtain ⟨hedge, hv, hw⟩ := h.edge_removeNode.mp hedge
    have hmem := h.edgeMem v w hedge
    exact ⟨h.mem_removeNode.mpr ⟨hmem.1, hv⟩, h.mem_removeNode.mpr ⟨hmem.2, hw⟩⟩
  catchMem := by
    intro v w hedge
    obtain ⟨hedge, hv, hw⟩ := h.catchEdge_removeNode.mp hedge
    have hmem := h.catchMem v w hedge
    exact ⟨h.mem_removeNode.mpr ⟨hmem.1, hv⟩, h.mem_removeNode.mpr ⟨hmem.2, hw⟩⟩
  freshNodes := fun v hv => h.freshNodes v (h.mem_removeNode.mp hv).1

theorem Sound.setEntry (h : g.Sound) (hv : v ∈ g.nodes) : ({ g with entry := some v }).Sound :=
  { h with
    entryMem := by
      intro e he
      rw [← Option.some.inj he]
      exact hv }

theorem Sound.replaceEntry (h : g.Sound) (hv : v ∈ g.nodes) : (g.replaceEntry n v).Sound := by
  unfold BlockGraph.replaceEntry
  split
  · exact h.setEntry hv
  · exact h

theorem Sound.computeRpo (h : g.Sound) : g.computeRpo.Sound :=
  { h with
    rpoNodup := (List.perm_insertionSort _ g.nodes).nodup_iff.mpr h.nodup
    rpoMem := fun _ hv => (List.perm_insertionSort _ g.nodes).mem_iff.mp hv }

/-- A run that keeps a graph sound and its nodes the same. -/
theorem Sound.foldl {f : BlockGraph I → Nat → BlockGraph I} {nodes l : List Nat}
    (hf : ∀ h x, x ∈ l → h.Sound → h.nodes = nodes → (f h x).Sound ∧ (f h x).nodes = nodes)
    {h : BlockGraph I} (hs : h.Sound) (hn : h.nodes = nodes) :
    (l.foldl f h).Sound ∧ (l.foldl f h).nodes = nodes := by
  induction l generalizing h with
  | nil => exact ⟨hs, hn⟩
  | cons x l ih =>
    obtain ⟨hs', hn'⟩ := hf h x List.mem_cons_self hs hn
    exact ih (fun h y hy => hf h y (List.mem_cons_of_mem x hy)) hs' hn'

theorem Sound.allPreds_mem (h : g.Sound) (hv : v ∈ g.allPreds w) : v ∈ g.nodes := by
  rcases h.mem_allPreds.mp hv with hv | hv
  · exact (h.edgeMem v w hv).1
  · exact (h.catchMem v w hv).1

theorem Sound.allSucs_mem (h : g.Sound) (hw : w ∈ g.allSucs v) : w ∈ g.nodes := by
  rcases BlockGraph.mem_allSucs.mp hw with hw | hw
  · exact (h.edgeMem v w hw).2
  · exact (h.catchMem v w hw).2

/-- A node in no table, not in `nodes` and not in `rpo`. -/
structure Absent (g : BlockGraph I) (v : Nat) : Prop where
  nodes : v ∉ g.nodes
  rpo : v ∉ g.rpo
  sucs : g.edges.listAt v = []
  preds : g.reverseEdges.listAt v = []
  catchSucs : g.catchEdges.listAt v = []
  catchPreds : g.reverseCatchEdges.listAt v = []
  edges : ∀ w, v ∉ g.edges.listAt w ∧ v ∉ g.reverseEdges.listAt w
  catchEdges : ∀ w, v ∉ g.catchEdges.listAt w ∧ v ∉ g.reverseCatchEdges.listAt w

/-- A node without an arc in either direction has empty lists. -/
theorem Consistent.absent (h : g.Consistent) (hnodes : v ∉ g.nodes) (hrpo : v ∉ g.rpo)
    (hedge : ∀ w, ¬ g.Edge v w ∧ ¬ g.Edge w v)
    (hcatch : ∀ w, ¬ g.CatchEdge v w ∧ ¬ g.CatchEdge w v) : g.Absent v where
  nodes := hnodes
  rpo := hrpo
  sucs := List.eq_nil_iff_forall_not_mem.mpr fun w => (hedge w).1
  preds := List.eq_nil_iff_forall_not_mem.mpr fun w hw => (hedge w).2 ((h.edges.mem w v).mpr hw)
  catchSucs := List.eq_nil_iff_forall_not_mem.mpr fun w => (hcatch w).1
  catchPreds := List.eq_nil_iff_forall_not_mem.mpr fun w hw =>
    (hcatch w).2 ((h.catchEdges.mem w v).mpr hw)
  edges := fun w => ⟨(hedge w).2, fun hw => (hedge w).1 ((h.edges.mem v w).mpr hw)⟩
  catchEdges := fun w => ⟨(hcatch w).2, fun hw => (hcatch w).1 ((h.catchEdges.mem v w).mpr hw)⟩

/-- What is no node of a sound graph is nowhere in it. -/
theorem Sound.absent (h : g.Sound) (hv : v ∉ g.nodes) : g.Absent v := by
  apply h.toConsistent.absent hv (fun hrpo => hv (h.rpoMem v hrpo))
  · exact fun w => ⟨fun he => hv (h.edgeMem v w he).1, fun he => hv (h.edgeMem w v he).2⟩
  · exact fun w => ⟨fun he => hv (h.catchMem v w he).1, fun he => hv (h.catchMem w v he).2⟩

end Keeps

end BlockGraph

end Dexllm.Dad
