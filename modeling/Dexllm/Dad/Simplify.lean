import Dexllm.Dad.BlockGraph

/-!
The removal of empty statement blocks and the merge of a statement block with
its one successor, in rounds until nothing changes.
-/

namespace Dexllm.Dad

open Adjacency

variable {I : Type} [DecidableEq I]

/-- What one round of `Simplify` keeps between two nodes of its snapshot. -/
structure Simplifying (I : Type) where
  graph : BlockGraph I
  nodeMap : NodeMap := ∅
  toUpdate : List Nat := []
  redo : Bool := false

namespace Simplifying

/-- One predecessor of a removed empty block. -/
def bypassPred (nodeMap : NodeMap) (node suc : Nat) (g : BlockGraph I) (pred : Nat) :
    BlockGraph I :=
  let g := g.updateAttributeWith nodeMap pred
  if node ∉ g.sucs pred then g.addCatchEdge pred suc else g.addEdge pred suc

/-- The removal of an empty block with one successor. -/
def bypass (st : Simplifying I) (node suc : Nat) : Simplifying I :=
  let nodeMap := st.nodeMap.insert node suc
  let g := (st.graph.allPreds node).foldl (bypassPred nodeMap node suc) st.graph
  let g := g.replaceEntry node suc
  { st with graph := g.removeNode node, nodeMap, redo := true }

/-- The test for the merge of `node` with its successor. -/
def canMerge (g : BlockGraph I) (node suc : Nat) : Bool :=
  (g.heap suc).type = .stmt && (g.allPreds suc).length = 1 && (g.catchEdges suc).isNone &&
    node ≠ suc && g.entry ≠ some suc

/-- The merge of `suc` into `node`. Without a key in the catch table `suc` has
no catch edge to move. -/
def merge (st : Simplifying I) (node suc : Nat) : Simplifying I :=
  let block := st.graph.heap suc
  let g := st.graph.modify node fun b =>
    block.varToDeclare.foldl Block.addVariableDeclaration (b.addIns block.ins)
  let g :=
    match g.sucs suc with
    | [] => g
    | new :: _ => g.addEdge node new
  let g := (g.catchSucs suc).foldl (fun g es => g.addCatchEdge node es) g
  { st with graph := g.removeNode suc, redo := true }

/-- One node of the snapshot. -/
def simplifyNode (st : Simplifying I) (node : Nat) : Simplifying I :=
  let g := st.graph
  if (g.heap node).type = .stmt ∧ node ∈ g.nodes then
    match g.allSucs node with
    | [suc] =>
      if (g.heap node).ins = [] then
        if (g.allPreds node).any fun p => (g.heap p).type = .switch then st
        else if node = suc then st
        else st.bypass node suc
      else if canMerge g node suc then st.merge node suc
      else st
    | _ => st
  else { st with toUpdate := pushNew st.toUpdate node }

/-- One round over the nodes there are at its start. -/
def round (g : BlockGraph I) : Simplifying I :=
  let st := g.nodes.foldl simplifyNode { graph := g }
  { st with
    graph := st.toUpdate.foldl (fun g n => g.updateAttributeWith st.nodeMap n) st.graph }

/-- Rounds until one changes nothing. -/
def rounds : (fuel : Nat) → BlockGraph I → Option (BlockGraph I)
  | 0, _ => none
  | fuel + 1, g =>
    let st := round g
    if st.redo then rounds fuel st.graph else some st.graph

end Simplifying

/-- `Simplify`, as its rounds end. -/
def simplify (g : BlockGraph I) : Option (BlockGraph I) := Simplifying.rounds (g.nodes.length + 1) g

end Dexllm.Dad

/-!
The rounds of `Simplify`: each keeps a graph sound, and one that changes
anything leaves fewer nodes.
-/

namespace Dexllm.Dad

open Adjacency BlockGraph

namespace Simplifying

variable {I : Type} [DecidableEq I] {g : BlockGraph I} {st : Simplifying I} {m : NodeMap}
  {node suc p : Nat} {fuel : Nat}

omit [DecidableEq I] in
theorem sound_bypassPred (h : g.Sound) (hp : p ∈ g.nodes) (hsuc : suc ∈ g.nodes) :
    (bypassPred m node suc g p).Sound ∧ (bypassPred m node suc g p).nodes = g.nodes := by
  have hupdate : (g.updateAttributeWith m p).Sound := h.modify
  unfold bypassPred
  dsimp only
  split
  · exact ⟨hupdate.addCatchEdge hp hsuc, rfl⟩
  · exact ⟨hupdate.addEdge hp hsuc, rfl⟩

omit [DecidableEq I] in
theorem bypass_spec (h : st.graph.Sound) (hsuc : suc ∈ st.graph.nodes) (hne : node ≠ suc) :
    (st.bypass node suc).graph.Sound ∧
      (st.bypass node suc).graph.nodes = st.graph.nodes.erase node := by
  obtain ⟨hs, hnodes⟩ := @Sound.foldl I (bypassPred (st.nodeMap.insert node suc) node suc)
    st.graph.nodes (st.graph.allPreds node)
    (by
      intro g p hp hs hn
      obtain ⟨hs', hn'⟩ := @sound_bypassPred I g (st.nodeMap.insert node suc) node suc p hs
        (hn ▸ h.allPreds_mem hp) (hn ▸ hsuc)
      exact ⟨hs', hn'.trans hn⟩) st.graph h rfl
  have hreplaced := @Sound.replaceEntry I _ node suc hs (hnodes ▸ hsuc)
  refine ⟨hreplaced.removeNode (entry_replaceEntry_ne hne.symm), ?_⟩
  exact congrArg (fun l : List Nat => l.erase node) (frame_replaceEntry.1.trans hnodes)

/-- The edge that takes the place of the one to a merged successor, whose own
successors are these. -/
def linked (g : BlockGraph I) (node : Nat) : List Nat → BlockGraph I
  | [] => g
  | new :: _ => g.addEdge node new

/-- The block that takes in the instructions of another. -/
def absorb (block b : Block I) : Block I :=
  block.varToDeclare.foldl Block.addVariableDeclaration (b.addIns block.ins)

theorem graph_merge {g : BlockGraph I}
    (hg : g = linked (st.graph.modify node (absorb (st.graph.heap suc))) node
      ((st.graph.modify node (absorb (st.graph.heap suc))).sucs suc)) :
    (st.merge node suc).graph =
      ((g.catchSucs suc).foldl (fun g es => g.addCatchEdge node es) g).removeNode suc := by
  unfold merge
  dsimp only
  split
  next hnil =>
    have hbase : g = st.graph.modify node (absorb (st.graph.heap suc)) := by
      rw [hg]
      exact congrArg (linked _ node) hnil
    rw [hbase]
    rfl
  next new rest hcons =>
    have hbase : g = (st.graph.modify node (absorb (st.graph.heap suc))).addEdge node new := by
      rw [hg]
      exact congrArg (linked _ node) hcons
    rw [hbase]
    rfl

theorem merge_spec (h : st.graph.Sound) (hnode : node ∈ st.graph.nodes)
    (hmerge : canMerge st.graph node suc = true) :
    (st.merge node suc).graph.Sound ∧
      (st.merge node suc).graph.nodes = st.graph.nodes.erase suc := by
  have hentry : st.graph.entry ≠ some suc := by
    unfold canMerge at hmerge
    simp only [Bool.and_eq_true, decide_eq_true_eq] at hmerge
    exact hmerge.2
  let g := st.graph.modify node (absorb (st.graph.heap suc))
  have hg : g.Sound := h.modify
  have hstep : (linked g node (g.sucs suc)).Sound ∧
      (linked g node (g.sucs suc)).nodes = st.graph.nodes ∧
      (linked g node (g.sucs suc)).entry = st.graph.entry := by
    cases hsucs : g.sucs suc with
    | nil => exact ⟨hg, rfl, rfl⟩
    | cons new rest =>
      have hnew : g.Edge suc new := by
        change new ∈ g.sucs suc
        rw [hsucs]
        exact List.mem_cons_self
      exact ⟨hg.addEdge hnode (hg.edgeMem suc new hnew).2, rfl, rfl⟩
  obtain ⟨hs1, hn1, he1⟩ := hstep
  have hfold := @Sound.foldl I (fun g es => g.addCatchEdge node es) st.graph.nodes _
    (by
      intro g' es hes hs hn
      exact ⟨hs.addCatchEdge (hn ▸ hnode) (hn ▸ hn1 ▸ (hs1.catchMem suc es hes).2), hn⟩) _ hs1 hn1
  have hfoldEntry (l : List Nat) (g' : BlockGraph I) :
      (l.foldl (fun g es => g.addCatchEdge node es) g').entry = g'.entry := by
    induction l generalizing g' with
    | nil => rfl
    | cons es l ih => exact ih (g'.addCatchEdge node es)
  rw [graph_merge rfl]
  refine ⟨hfold.1.removeNode ?_, congrArg (fun l : List Nat => l.erase suc) hfold.2⟩
  rw [hfoldEntry, he1]
  exact hentry

/-- One node of a round: the graph stays sound, and a change takes a node out. -/
theorem simplifyNode_spec (h : st.graph.Sound) :
    (simplifyNode st node).graph.Sound ∧
      (simplifyNode st node = { st with toUpdate := (simplifyNode st node).toUpdate } ∨
        ((simplifyNode st node).redo = true ∧
          (simplifyNode st node).graph.nodes.length + 1 = st.graph.nodes.length)) := by
  have herase {x : Nat} (hx : x ∈ st.graph.nodes) :
      (st.graph.nodes.erase x).length + 1 = st.graph.nodes.length := by
    have hpos := List.length_pos_of_mem hx
    rw [List.length_erase_of_mem hx]
    omega
  unfold simplifyNode
  dsimp only
  split
  · rename_i hstmt
    split
    · rename_i suc hsucs
      have hsuc : suc ∈ st.graph.nodes := h.allSucs_mem (hsucs ▸ List.mem_singleton_self suc)
      split
      · split
        · exact ⟨h, Or.inl rfl⟩
        · split
          · exact ⟨h, Or.inl rfl⟩
          · rename_i hne
            obtain ⟨hs, hnodes⟩ := bypass_spec h hsuc hne
            exact ⟨hs, Or.inr ⟨rfl, by rw [hnodes]; exact herase hstmt.2⟩⟩
      · split
        · rename_i hmerge
          obtain ⟨hs, hnodes⟩ := merge_spec h hstmt.2 hmerge
          exact ⟨hs, Or.inr ⟨rfl, by rw [hnodes]; exact herase hsuc⟩⟩
        · exact ⟨h, Or.inl rfl⟩
    · exact ⟨h, Or.inl rfl⟩
  · exact ⟨h, Or.inl rfl⟩

theorem fold_spec {l : List Nat} (h : st.graph.Sound) :
    (l.foldl simplifyNode st).graph.Sound ∧
      (l.foldl simplifyNode st).graph.nodes.length ≤ st.graph.nodes.length ∧
      ((l.foldl simplifyNode st).redo = true → st.redo = true ∨
        (l.foldl simplifyNode st).graph.nodes.length < st.graph.nodes.length) := by
  induction l generalizing st with
  | nil => exact ⟨h, Nat.le_refl _, Or.inl⟩
  | cons node l ih =>
    obtain ⟨hs, hstep⟩ := @simplifyNode_spec I _ st node h
    obtain ⟨hs', hle, hredo⟩ := ih hs
    rw [List.foldl_cons]
    rcases hstep with heq | ⟨-, hlt⟩
    · have hgraph : (simplifyNode st node).graph = st.graph := by rw [heq]
      have hredo' : (simplifyNode st node).redo = st.redo := by rw [heq]
      rw [hgraph] at hle hredo
      rw [hredo'] at hredo
      exact ⟨hs', hle, hredo⟩
    · exact ⟨hs', by omega, fun _ => Or.inr (by omega)⟩

theorem round_spec (h : g.Sound) : (round g).graph.Sound ∧
    ((round g).redo = true → (round g).graph.nodes.length < g.nodes.length) := by
  obtain ⟨hs, -, hredo⟩ := @fold_spec I _ { graph := g } g.nodes h
  have hupdate (l : List Nat) (m : NodeMap) (g' : BlockGraph I) (h' : g'.Sound) :
      (l.foldl (fun g n => g.updateAttributeWith m n) g').Sound ∧
        (l.foldl (fun g n => g.updateAttributeWith m n) g').nodes = g'.nodes := by
    induction l generalizing g' with
    | nil => exact ⟨h', rfl⟩
    | cons n l ih => exact ih (g'.updateAttributeWith m n) h'.modify
  obtain ⟨hs', hnodes⟩ := hupdate (g.nodes.foldl simplifyNode { graph := g }).toUpdate
    (g.nodes.foldl simplifyNode { graph := g }).nodeMap _ hs
  refine ⟨hs', fun hr => ?_⟩
  rcases hredo hr with hfalse | hlt
  · exact absurd hfalse Bool.false_ne_true
  · exact hnodes.symm ▸ hlt

/-- The rounds end, with a sound graph. -/
theorem rounds_spec (h : g.Sound) (hfuel : g.nodes.length < fuel) :
    ∃ g', rounds fuel g = some g' ∧ g'.Sound := by
  induction fuel generalizing g with
  | zero => omega
  | succ fuel ih =>
    obtain ⟨hs, hredo⟩ := round_spec h
    unfold rounds
    dsimp only
    split
    · rename_i hr
      have := hredo hr
      exact ih hs (by omega)
    · exact ⟨_, rfl, hs⟩

end Simplifying

end Dexllm.Dad
