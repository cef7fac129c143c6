import Mathlib.Data.List.Sort
import Dexllm.Dad.BlockGraph

/-!
The merge of two conditions into a short-circuit block, in rounds until one
merges nothing or the cap of the loop is reached.
-/

namespace Dexllm.Dad

open Adjacency

variable {I : Type}

/-- The order in which a hash set of nodes is iterated. -/
structure HashOrder where
  order : List Nat → List Nat
  perm : ∀ l, (order l).Perm l

/-- One call of `MergeShortCircuit`: the two nodes and the graph on both sides. -/
structure Merge (I : Type) where
  before : BlockGraph I
  node1 : Nat
  node2 : Nat
  after : BlockGraph I

/-- What the calls of `MergeShortCircuit` share. The calls themselves are kept
in `merges`, in their order. -/
structure Merging (I : Type) where
  graph : BlockGraph I
  idom : AList fun _ : Nat => Option Nat
  nodeMap : NodeMap
  done : List Nat
  change : Bool
  merges : List (Merge I)

/-- The successor test that fuses a condition with one of its two branches. -/
structure Fusion where
  node2 : Nat
  isand : Bool
  isnot : Bool
  trueBranch : Option Nat
  falseBranch : Option Nat

/-- What the loop of `ShortCircuitStruct` does with one node. -/
inductive Visit
  | skip
  | keep
  | fuse (fusion : Fusion)

namespace Merging

/-- `by_num`: the post-order number, then the name. -/
def byNum (g : BlockGraph I) (a b : Nat) : Bool :=
  if (g.heap a).num ≠ (g.heap b).num then (g.heap a).num < (g.heap b).num
  else (g.heap a).name ≤ (g.heap b).name

/-- What the first loop of `MergeShortCircuit` collects and removes. -/
structure Removing (I : Type) where
  graph : BlockGraph I
  lpreds : List Nat := []
  ldests : List Nat := []

def removeOne (r : Removing I) (node : Nat) : Removing I :=
  { graph := r.graph.removeNode node
    lpreds := (r.graph.preds node).foldl pushNew r.lpreds
    ldests := (r.graph.sucs node).foldl pushNew r.ldests }

/-- The pointers to a merged node in the values of the node map. -/
def renameValues (m : NodeMap) (node1 node2 new : Nat) : NodeMap :=
  m.entries.foldl (fun m entry =>
    if entry.2 = node1 ∨ entry.2 = node2 then m.insert entry.1 new else m) m

/-- `MergeShortCircuit`. The new node has the address `fresh` of the graph before
the call. -/
def mergeShortCircuit (hash : HashOrder) (st : Merging I) (node1 node2 : Nat)
    (isand isnot : Bool) : Merging I :=
  let removed := [node1, node2].foldl removeOne { graph := st.graph }
  let lpreds := (removed.lpreds.erase node1).erase node2
  let ldests := (removed.ldests.erase node1).erase node2
  let g := removed.graph
  let isEntry := g.entry = some node1 ∨ g.entry = some node2
  let new := g.fresh
  let block : Block I :=
    { cls := .shortCircuit
      name := (g.heap node1).name ++ "+" ++ (g.heap node2).name
      type := .cond
      cond := some ⟨node1, node2, isand, isnot⟩ }
  let g := g.makeNode block
  let nodeMap : NodeMap :=
    ((renameValues st.nodeMap node1 node2 new).insert node1 new).insert node2 new
  let idom := ((st.idom.insert new (st.idom.lookup node1).join).erase node1).erase node2
  let g := g.modify new fun b => b.copyFrom (g.heap node1)
  let lpreds := (hash.order lpreds).insertionSort fun a b => byNum g a b
  let ldests := (hash.order ldests).insertionSort fun a b => byNum g a b
  let g := lpreds.foldl (fun g pred =>
    (g.updateAttributeWith nodeMap pred).addEdge (nodeMap.get pred) new) g
  let g := ldests.foldl (fun g dest => g.addEdge new (nodeMap.get dest)) g
  let g := if isEntry then { g with entry := some new } else g
  { graph := g
    idom
    nodeMap
    done := pushNew (pushNew st.done node1) node2
    change := st.change
    merges := st.merges ++ [⟨st.graph, node1, node2, g⟩] }

/-- `dynamic_cast<CondBlock*>` of a branch pointer. -/
def condBlock (g : BlockGraph I) : Option Nat → Option Nat
  | none => none
  | some v => if (g.heap v).isCondBlock then some v else none

/-- The branch is a condition block with exactly one predecessor. -/
def onePred (g : BlockGraph I) (branch : Option Nat) : Option Nat :=
  (condBlock g branch).filter fun v => (g.preds v).length = 1

/-- The tests of the loop body of `ShortCircuitStruct`. -/
def visitOf (g : BlockGraph I) (done : List Nat) (n : Nat) : Visit :=
  let node := g.heap n
  if ¬ node.isCondBlock ∨ node.type ≠ .cond ∨ n ∈ done then .skip
  else
    let thenN := node.trueBranch
    let elsN := node.falseBranch
    if thenN = some n ∨ elsN = some n then .skip
    else
      match onePred g thenN with
      | some thenB =>
        let t := g.heap thenB
        if t.trueBranch = some n ∨ t.falseBranch = some n then .skip
        else if t.falseBranch = elsN then .fuse ⟨thenB, true, false, t.trueBranch, elsN⟩
        else if t.trueBranch = elsN then .fuse ⟨thenB, false, true, elsN, t.falseBranch⟩
        else .keep
      | none =>
        match onePred g elsN with
        | some elsB =>
          let e := g.heap elsB
          if e.falseBranch = some n ∨ e.trueBranch = some n then .skip
          else if e.falseBranch = thenN then .fuse ⟨elsB, true, true, e.trueBranch, thenN⟩
          else if e.trueBranch = thenN then .fuse ⟨elsB, false, false, thenN, e.falseBranch⟩
          else .keep
        | none => .keep

/-- One node of the post-order. -/
def visit (hash : HashOrder) (st : Merging I) (n : Nat) : Merging I :=
  match visitOf st.graph st.done n with
  | .skip => st
  | .keep => { st with done := pushNew st.done n }
  | .fuse f =>
    let new := st.graph.fresh
    let st := st.mergeShortCircuit hash n f.node2 f.isand f.isnot
    { st with
      graph := st.graph.modify new fun b =>
        { b with trueBranch := f.trueBranch, falseBranch := f.falseBranch }
      change := true
      done := pushNew st.done n }

/-- One round over the post-order of the graph at its start. -/
def round (hash : HashOrder) (st : Merging I) : Merging I :=
  st.graph.postOrder.foldl (visit hash) { st with change := false, done := [] }

/-- How the loop of `ShortCircuitStruct` ends. -/
structure Ended (I : Type) where
  state : Merging I
  /-- The rounds that ran. -/
  rounds : Nat
  /-- The cap was reached. -/
  bailed : Bool

/-- The loop with `left` rounds before the cap, after `ran` rounds. -/
def rounds (hash : HashOrder) : (left ran : Nat) → Merging I → Ended I
  | 0, ran, st => ⟨st, ran, true⟩
  | left + 1, ran, st =>
    let next := round hash st
    if next.change then
      rounds hash left (ran + 1) { next with graph := next.graph.computeRpo }
    else ⟨next, ran + 1, false⟩

end Merging

/-- `ShortCircuitStruct`, called with an empty node map. -/
def shortCircuitStruct (hash : HashOrder) (g : BlockGraph I)
    (idom : AList fun _ : Nat => Option Nat) : Merging.Ended I :=
  Merging.rounds hash (max (g.nodes.length * 10) 1000) 0 ⟨g, idom, ∅, [], true, []⟩

end Dexllm.Dad

/-!
`ShortCircuitStruct` ends before its cap. A merge takes two nodes of the graph
out and puts a new one in, and what it takes out is a key of the node map, which
no later merge meets.
-/

namespace Dexllm.Dad

open Adjacency

section Lists

variable {l s : List Nat} {x y : Nat}

theorem nodup_pushNew (h : l.Nodup) : (pushNew l x).Nodup := by
  unfold pushNew
  split
  · exact h
  · rename_i hx
    apply List.nodup_append.mpr
    refine ⟨h, List.nodup_singleton x, ?_⟩
    rintro y hy z hz rfl
    exact hx (List.mem_singleton.mp hz ▸ hy)

theorem nodup_foldl_pushNew (h : s.Nodup) : (l.foldl pushNew s).Nodup := by
  induction l generalizing s with
  | nil => exact h
  | cons x l ih => exact ih (nodup_pushNew h)

theorem mem_foldl_pushNew : y ∈ l.foldl pushNew s ↔ y ∈ s ∨ y ∈ l := by
  induction l generalizing s with
  | nil => simp
  | cons x l ih =>
    rw [List.foldl_cons, ih, mem_pushNew, List.mem_cons, or_assoc]

end Lists

namespace BlockGraph

variable {I : Type} {g : BlockGraph I} {n v w : Nat}

/-- The tables of a consistent graph, in pairs. -/
def Consistent.view (h : g.Consistent) : Graph Nat where
  entry := g.entry
  nodes := g.nodes
  edges := ⟨g.edges.listAt, g.reverseEdges.listAt, h.edges.mem⟩
  catchEdges := ⟨g.catchEdges.listAt, g.reverseCatchEdges.listAt, h.catchEdges.mem⟩

theorem Sound.wellFormed_view (h : g.Sound) : h.view.WellFormed where
  nodup := h.nodup
  entryMem := h.entryMem
  edgesMem := h.edgeMem
  catchMem := h.catchMem

theorem Consistent.postOrder_view (h : g.Consistent) : h.view.postOrder = g.postOrder := by
  unfold Graph.postOrder BlockGraph.postOrder
  rw [show h.view.entry = g.entry from rfl]
  cases g.entry with
  | none => rfl
  | some e => rfl

theorem Sound.postOrder_mem (h : g.Sound) (hv : v ∈ g.postOrder) : v ∈ g.nodes := by
  have hpost : v ∈ h.view.postOrder := h.postOrder_view ▸ hv
  exact h.wellFormed_view.reachable_mem (h.wellFormed_view.mem_postOrder.mp hpost)

theorem Sound.preds_mem (h : g.Sound) (hv : v ∈ g.preds w) : v ∈ g.nodes ∧ w ∈ g.nodes := by
  have hedge : g.Edge v w := (h.edges.mem v w).mpr (List.mem_of_mem_filter hv)
  exact h.edgeMem v w hedge

theorem Sound.sucs_mem (h : g.Sound) (hw : w ∈ g.sucs v) : w ∈ g.nodes := (h.edgeMem v w hw).2

/-- The graph while its entry may be gone. -/
def withoutEntry (g : BlockGraph I) : BlockGraph I := { g with entry := none }

theorem Sound.withoutEntry (h : g.Sound) : g.withoutEntry.Sound :=
  { h with entryMem := by simp [BlockGraph.withoutEntry] }

theorem Sound.of_withoutEntry (h : g.withoutEntry.Sound)
    (hentry : ∀ e, g.entry = some e → e ∈ g.nodes) : g.Sound :=
  { h with entryMem := hentry }

end BlockGraph

open BlockGraph

/-- A merge takes two nodes out and puts a new one in. -/
structure Merge.Swaps {I : Type} (m : Merge I) : Prop where
  node1 : m.node1 ∈ m.before.nodes
  node2 : m.node2 ∈ m.before.nodes
  ne : m.node1 ≠ m.node2
  new : m.before.fresh ∉ m.before.nodes
  after : m.after.nodes = (m.before.nodes.erase m.node1).erase m.node2 ++ [m.before.fresh]

/-- Two merges without a node in common. -/
def Merge.Apart {I : Type} (m m' : Merge I) : Prop :=
  m'.node1 ≠ m.node1 ∧ m'.node1 ≠ m.node2 ∧ m'.node2 ≠ m.node1 ∧ m'.node2 ≠ m.node2

namespace Merging

variable {I : Type} {hash : HashOrder} {st : Merging I} {g : BlockGraph I} {m : NodeMap}
  {n node1 node2 new k v : Nat} {isand isnot : Bool} {l done : List Nat}

section NodeMap

theorem mem_renameValues : k ∈ renameValues m node1 node2 new ↔ k ∈ m := by
  unfold renameValues
  suffices ∀ (l : List (Sigma fun _ : Nat => Nat)) (m' : NodeMap), (∀ e ∈ l, e.1 ∈ m') →
      (k ∈ l.foldl (fun m entry =>
        if entry.2 = node1 ∨ entry.2 = node2 then m.insert entry.1 new else m) m' ↔ k ∈ m') by
    apply this
    exact fun e he => List.mem_keys_of_mem he
  intro l
  induction l with
  | nil => exact fun _ _ => Iff.rfl
  | cons e l ih =>
    intro m' hl
    have he := hl e List.mem_cons_self
    have hrest (e') (he' : e' ∈ l) : e'.1 ∈ m' := hl e' (List.mem_cons_of_mem e he')
    rw [List.foldl_cons]
    split
    · rw [ih _ fun e' he' => (AList.mem_insert m').mpr (Or.inr (hrest e' he')),
        AList.mem_insert]
      constructor
      · rintro (rfl | hk)
        · exact he
        · exact hk
      · exact Or.inr
    · exact ih m' hrest

end NodeMap

section Merge

theorem nodes_removed (h : g.Sound) :
    v ∈ ((g.removeNode node1).removeNode node2).nodes ↔
      v ∈ g.nodes ∧ v ≠ node1 ∧ v ≠ node2 := by
  have hgone : v ∈ (g.nodes.erase node1).erase node2 ↔ v ∈ g.nodes ∧ v ≠ node1 ∧ v ≠ node2 := by
    rw [(h.nodup.erase node1).mem_erase_iff, h.nodup.mem_erase_iff]
    tauto
  exact hgone

/-- What the two rounds of the first loop collect, without the merged nodes, is
still there. -/
theorem mem_left (h : g.Sound) {first second : List Nat} (hfirst : ∀ x ∈ first, x ∈ g.nodes)
    (hsecond : ∀ x ∈ second, x ∈ g.nodes)
    (hv : v ∈ ((second.foldl pushNew (first.foldl pushNew [])).erase node1).erase node2) :
    v ∈ ((g.removeNode node1).removeNode node2).nodes := by
  have hnodup : (second.foldl pushNew (first.foldl pushNew [])).Nodup :=
    nodup_foldl_pushNew (nodup_foldl_pushNew List.nodup_nil)
  rw [(hnodup.erase node1).mem_erase_iff, hnodup.mem_erase_iff, mem_foldl_pushNew,
    mem_foldl_pushNew] at hv
  obtain ⟨hne2, hne1, (hv | hv) | hv⟩ := hv
  · exact absurd hv List.not_mem_nil
  · exact (nodes_removed h).mpr ⟨hfirst v hv, hne1, hne2⟩
  · exact (nodes_removed h).mpr ⟨hsecond v hv, hne1, hne2⟩

theorem mem_hashed {r : Nat → Nat → Bool} :
    v ∈ (hash.order l).insertionSort (fun a b => r a b) ↔ v ∈ l :=
  ((List.perm_insertionSort _ _).trans (hash.perm l)).mem_iff

/-- The keys of the node map after a merge. -/
theorem mem_nodeMap_merge : k ∈ (st.mergeShortCircuit hash node1 node2 isand isnot).nodeMap ↔
    k ∈ st.nodeMap ∨ k = node1 ∨ k = node2 := by
  have hkeys : k ∈ ((renameValues st.nodeMap node1 node2 st.graph.fresh).insert node1
      st.graph.fresh).insert node2 st.graph.fresh ↔ k ∈ st.nodeMap ∨ k = node1 ∨ k = node2 := by
    rw [AList.mem_insert, AList.mem_insert, mem_renameValues]
    tauto
  exact hkeys

/-- The wiring of a merge: it keeps the nodes, and the entry as it finds it. -/
structure Wired (g g' : BlockGraph I) : Prop where
  sound : g'.withoutEntry.Sound
  nodes : g'.nodes = g.nodes
  fresh : g'.fresh = g.fresh
  entry : g'.entry = g.entry

theorem wired_preds (h : g.withoutEntry.Sound) (hnew : new ∈ g.nodes)
    (hl : ∀ p ∈ l, p ∈ g.nodes ∧ p ∉ m) :
    Wired g (l.foldl (fun g p => (g.updateAttributeWith m p).addEdge (m.get p) new) g) := by
  induction l generalizing g with
  | nil => exact ⟨h, rfl, rfl, rfl⟩
  | cons p l ih =>
    obtain ⟨hp, hkey⟩ := hl p List.mem_cons_self
    have hstep : ((g.updateAttributeWith m p).addEdge (m.get p) new).withoutEntry.Sound := by
      rw [NodeMap.get_of_not_mem hkey]
      exact Sound.addEdge (@Sound.modify I g.withoutEntry p _ h) hp hnew
    have hrest := ih hstep hnew fun q hq => hl q (List.mem_cons_of_mem p hq)
    exact ⟨hrest.sound, hrest.nodes, hrest.fresh, hrest.entry⟩

theorem wired_dests (h : g.withoutEntry.Sound) (hnew : new ∈ g.nodes)
    (hl : ∀ d ∈ l, d ∈ g.nodes ∧ d ∉ m) :
    Wired g (l.foldl (fun g d => g.addEdge new (m.get d)) g) := by
  induction l generalizing g with
  | nil => exact ⟨h, rfl, rfl, rfl⟩
  | cons d l ih =>
    obtain ⟨hd, hkey⟩ := hl d List.mem_cons_self
    have hstep : (g.addEdge new (m.get d)).withoutEntry.Sound := by
      rw [NodeMap.get_of_not_mem hkey]
      exact Sound.addEdge h hnew hd
    have hrest := ih hstep hnew fun q hq => hl q (List.mem_cons_of_mem d hq)
    exact ⟨hrest.sound, hrest.nodes, hrest.fresh, hrest.entry⟩

/-- Two nodes go, a new one comes, and no table names what is gone. -/
theorem merge_spec (h : st.graph.Sound) (hkeys : ∀ k ∈ st.nodeMap, k ∉ st.graph.nodes) :
    (st.mergeShortCircuit hash node1 node2 isand isnot).graph.Sound ∧
      (st.mergeShortCircuit hash node1 node2 isand isnot).graph.nodes =
        (st.graph.nodes.erase node1).erase node2 ++ [st.graph.fresh] ∧
      (st.mergeShortCircuit hash node1 node2 isand isnot).graph.fresh = st.graph.fresh + 1 := by
  set st' := st.mergeShortCircuit hash node1 node2 isand isnot with hst'
  let removed := (st.graph.removeNode node1).removeNode node2
  have hrest : (st.graph.removeNode node1).withoutEntry.Sound :=
    h.withoutEntry.removeNode (by simp [withoutEntry])
  have hgone : removed.withoutEntry.Sound := hrest.removeNode (by simp [withoutEntry])
  have hcollected (b : Block I) (v) (hv : v ∈ removed.nodes) :
      v ∈ (removed.makeNode b).nodes ∧ v ∉ st'.nodeMap := by
    obtain ⟨hmem, hne1, hne2⟩ := (nodes_removed h).mp hv
    refine ⟨List.mem_append_left _ hv, fun hkey => ?_⟩
    rcases mem_nodeMap_merge.mp hkey with hkey | rfl | rfl
    · exact hkeys v hkey hmem
    · exact hne1 rfl
    · exact hne2 rfl
  let first := [node1, node2].foldl removeOne { graph := st.graph }
  let block : Block I :=
    { cls := .shortCircuit
      name := (removed.heap node1).name ++ "+" ++ (removed.heap node2).name
      type := .cond
      cond := some ⟨node1, node2, isand, isnot⟩ }
  let made := removed.makeNode block
  let copy (b : Block I) : Block I := b.copyFrom (made.heap node1)
  let start := made.modify st.graph.fresh copy
  let lpreds := (hash.order ((first.lpreds.erase node1).erase node2)).insertionSort
    fun a b => byNum start a b
  let ldests := (hash.order ((first.ldests.erase node1).erase node2)).insertionSort
    fun a b => byNum start a b
  have hmade : made.withoutEntry.Sound := @Sound.makeNode I removed.withoutEntry block hgone
  have hstart : start.withoutEntry.Sound := 
    @Sound.modify I made.withoutEntry st.graph.fresh copy hmade
  have hnew : st.graph.fresh ∈ start.nodes := List.mem_append_right _ (List.mem_singleton_self _)
  have hpreds : ∀ p ∈ lpreds, p ∈ start.nodes ∧ p ∉ st'.nodeMap := by
    intro p hp
    apply hcollected
    apply mem_left h _ _ (mem_hashed.mp hp)
    · exact fun x hx => (h.preds_mem hx).1
    · exact fun x hx => (List.mem_of_mem_erase ((hrest.preds_mem hx).1))
  have hdests : ∀ d ∈ ldests, d ∈ start.nodes ∧ d ∉ st'.nodeMap := by
    intro d hd
    apply hcollected
    apply mem_left h _ _ (mem_hashed.mp hd)
    · exact fun x hx => h.sucs_mem hx
    · exact fun x hx => List.mem_of_mem_erase (hrest.sucs_mem hx)
  have hwired := wired_preds hstart hnew hpreds
  have hdone := wired_dests hwired.sound (hwired.nodes ▸ hnew)
    fun d hd => hwired.nodes ▸ hdests d hd
  have hnodes := hdone.nodes.trans hwired.nodes
  have hentry := hdone.entry.trans hwired.entry
  have hgraph : st'.graph = if st.graph.entry = some node1 ∨ st.graph.entry = some node2 then
      { ldests.foldl (fun g d => g.addEdge st.graph.fresh (st'.nodeMap.get d))
          (lpreds.foldl (fun g p => (g.updateAttributeWith st'.nodeMap p).addEdge
            (st'.nodeMap.get p) st.graph.fresh) start) with entry := some st.graph.fresh }
      else ldests.foldl (fun g d => g.addEdge st.graph.fresh (st'.nodeMap.get d))
          (lpreds.foldl (fun g p => (g.updateAttributeWith st'.nodeMap p).addEdge
            (st'.nodeMap.get p) st.graph.fresh) start) := rfl
  rw [hgraph]
  split
  · refine ⟨Sound.of_withoutEntry hdone.sound ?_, hnodes, hdone.fresh.trans hwired.fresh⟩
    intro e he
    rw [← Option.some.inj he]
    exact hnodes ▸ hnew
  · rename_i hkept
    refine ⟨Sound.of_withoutEntry hdone.sound ?_, hnodes, hdone.fresh.trans hwired.fresh⟩
    intro e he
    have he : st.graph.entry = some e := hentry ▸ he
    have hne1 : e ≠ node1 := fun heq => hkept (Or.inl (heq ▸ he))
    have hne2 : e ≠ node2 := fun heq => hkept (Or.inr (heq ▸ he))
    rw [hnodes]
    exact List.mem_append_left _ ((nodes_removed h).mpr ⟨h.entryMem e he, hne1, hne2⟩)

end Merge

section Rounds

/-- What the visits of a round keep, `left` being the nodes still to come. -/
structure MergeInv (left : List Nat) (st : Merging I) : Prop where
  sound : st.graph.Sound
  keys : ∀ k ∈ st.nodeMap, k ∉ st.graph.nodes ∧ k < st.graph.fresh
  live : ∀ n ∈ left, n ∈ st.graph.nodes ∨ n ∈ st.done
  swaps : ∀ m ∈ st.merges, m.Swaps
  merged : ∀ m ∈ st.merges, m.node1 ∈ st.nodeMap ∧ m.node2 ∈ st.nodeMap
  apart : st.merges.Pairwise Merge.Apart

/-- The successor test names another node, with one visible predecessor. -/
theorem fuse_spec {f : Fusion} (h : visitOf g done n = .fuse f) :
    n ∉ done ∧ f.node2 ≠ n ∧ (g.preds f.node2).length = 1 := by
  have honly {branch : Option Nat} {b : Nat} (hb : onePred g branch = some b) :
      branch = some b ∧ (g.preds b).length = 1 := by
    unfold onePred condBlock at hb
    obtain ⟨hb, hlen⟩ := Option.filter_eq_some_iff.mp hb
    refine ⟨?_, of_decide_eq_true hlen⟩
    cases branch with
    | none => cases hb
    | some w =>
      dsimp only at hb
      split at hb
      · exact hb
      · cases hb
  unfold visitOf at h
  dsimp only at h
  split at h
  · cases h
  · rename_i hkept
    have hdone : n ∉ done := fun hn => hkept (Or.inr (Or.inr hn))
    split at h
    · cases h
    · rename_i hself
      split at h
      · rename_i b hb
        obtain ⟨hbranch, hlen⟩ := honly hb
        have hne : b ≠ n := fun heq => hself (Or.inl (heq ▸ hbranch))
        split at h
        · cases h
        · split at h
          · obtain rfl := Visit.fuse.inj h
            exact ⟨hdone, hne, hlen⟩
          · split at h
            · obtain rfl := Visit.fuse.inj h
              exact ⟨hdone, hne, hlen⟩
            · cases h
      · split at h
        · rename_i b hb
          obtain ⟨hbranch, hlen⟩ := honly hb
          have hne : b ≠ n := fun heq => hself (Or.inr (heq ▸ hbranch))
          split at h
          · cases h
          · split at h
            · obtain rfl := Visit.fuse.inj h
              exact ⟨hdone, hne, hlen⟩
            · split at h
              · obtain rfl := Visit.fuse.inj h
                exact ⟨hdone, hne, hlen⟩
              · cases h
        · cases h

theorem mem_nodes_swapped {v new : Nat} (h : g.Sound)
    (hv : v ∈ (g.nodes.erase node1).erase node2 ++ [new]) :
    (v ∈ g.nodes ∧ v ≠ node1 ∧ v ≠ node2) ∨ v = new := by
  rcases List.mem_append.mp hv with hv | hv
  · exact Or.inl ((nodes_removed h).mp hv)
  · exact Or.inr (List.mem_singleton.mp hv)

/-- The merge of two nodes of the graph keeps what the visits keep. -/
theorem merge_inv {f : Fusion} (h : MergeInv (n :: l) st) (hn : n ∈ st.graph.nodes)
    (hnode2 : f.node2 ∈ st.graph.nodes) (hne : f.node2 ≠ n)
    (hvisit : visitOf st.graph st.done n = .fuse f) : MergeInv l (visit hash st n) := by
  obtain ⟨hsound, hnodes, hfresh⟩ := @merge_spec I hash st n f.node2 f.isand f.isnot h.sound
    fun k hk => (h.keys k hk).1
  have hstep : visit hash st n =
      { st.mergeShortCircuit hash n f.node2 f.isand f.isnot with
        graph := (st.mergeShortCircuit hash n f.node2 f.isand f.isnot).graph.modify st.graph.fresh
          fun b => { b with trueBranch := f.trueBranch, falseBranch := f.falseBranch }
        change := true
        done := pushNew (st.mergeShortCircuit hash n f.node2 f.isand f.isnot).done n } := by
    unfold visit
    rw [hvisit]
  have hmerges : (visit hash st n).merges = st.merges ++ [⟨st.graph, n, f.node2,
      (st.mergeShortCircuit hash n f.node2 f.isand f.isnot).graph⟩] := by
    rw [hstep]
    rfl
  have hkeys (k : Nat) : k ∈ (visit hash st n).nodeMap ↔
      k ∈ st.nodeMap ∨ k = n ∨ k = f.node2 := by
    rw [hstep]
    exact @mem_nodeMap_merge I hash st n f.node2 k f.isand f.isnot
  have hdone (x : Nat) : x ∈ (visit hash st n).done ↔
      ((x ∈ st.done ∨ x = n) ∨ x = f.node2) ∨ x = n := by
    rw [hstep, mem_pushNew]
    exact or_congr_left (mem_pushNew.trans (or_congr_left mem_pushNew))
  have hgraph : (visit hash st n).graph.nodes =
      (st.graph.nodes.erase n).erase f.node2 ++ [st.graph.fresh] := by
    rw [hstep]
    exact hnodes
  have hmodified : (visit hash st n).graph.Sound := by
    rw [hstep]
    exact @Sound.modify I _ st.graph.fresh
      (fun b => { b with trueBranch := f.trueBranch, falseBranch := f.falseBranch }) hsound
  constructor
  · exact hmodified
  · intro k hk
    have hlt : k < st.graph.fresh := by
      rcases (hkeys k).mp hk with hk | rfl | rfl
      · exact (h.keys k hk).2
      · exact h.sound.freshNodes k hn
      · exact h.sound.freshNodes f.node2 hnode2
    constructor
    · intro hmem
      rcases mem_nodes_swapped h.sound (hgraph ▸ hmem) with ⟨hmem, hne1, hne2⟩ | heq
      · rcases (hkeys k).mp hk with hk | hk | hk
        · exact (h.keys k hk).1 hmem
        · exact hne1 hk
        · exact hne2 hk
      · omega
    · rw [hstep]
      exact hfresh ▸ Nat.lt_succ_of_lt hlt
  · intro x hx
    rcases h.live x (List.mem_cons_of_mem n hx) with hmem | hmem
    · rcases eq_or_ne x n with rfl | hne1
      · exact Or.inr ((hdone x).mpr (Or.inr rfl))
      · rcases eq_or_ne x f.node2 with heq | hne2
        · exact Or.inr ((hdone x).mpr (Or.inl (Or.inr heq)))
        · rw [hgraph]
          exact Or.inl (List.mem_append_left _ ((nodes_removed h.sound).mpr ⟨hmem, hne1, hne2⟩))
    · exact Or.inr ((hdone x).mpr (Or.inl (Or.inl (Or.inl hmem))))
  · intro m hm
    rcases List.mem_append.mp (hmerges ▸ hm) with hm | hm
    · exact h.swaps m hm
    · obtain rfl := List.mem_singleton.mp hm
      exact ⟨hn, hnode2, hne.symm, fun hmem => Nat.lt_irrefl _ (h.sound.freshNodes _ hmem), hnodes⟩
  · intro m hm
    rw [hkeys, hkeys]
    rcases List.mem_append.mp (hmerges ▸ hm) with hm | hm
    · exact (h.merged m hm).imp Or.inl Or.inl
    · obtain rfl := List.mem_singleton.mp hm
      exact ⟨Or.inr (Or.inl rfl), Or.inr (Or.inr rfl)⟩
  · rw [hmerges, List.pairwise_append]
    refine ⟨h.apart, List.pairwise_singleton _ _, fun m hm m' hm' => ?_⟩
    obtain rfl := List.mem_singleton.mp hm'
    obtain ⟨hkey1, hkey2⟩ := h.merged m hm
    have hgone1 := (h.keys m.node1 hkey1).1
    have hgone2 := (h.keys m.node2 hkey2).1
    exact ⟨fun heq => hgone1 (heq ▸ hn), fun heq => hgone2 (heq ▸ hn),
      fun heq => hgone1 (heq ▸ hnode2), fun heq => hgone2 (heq ▸ hnode2)⟩

/-- One visit: the graph stays as it is, or it loses a node. -/
theorem visit_spec (h : MergeInv (n :: l) st) : MergeInv l (visit hash st n) ∧
    ((visit hash st n).graph = st.graph ∧ (visit hash st n).change = st.change ∨
      0 < (visit hash st n).graph.nodes.length ∧
        (visit hash st n).graph.nodes.length + 1 = st.graph.nodes.length) := by
  have hrest (x) (hx : x ∈ l) : x ∈ st.graph.nodes ∨ x ∈ st.done :=
    h.live x (List.mem_cons_of_mem n hx)
  cases hvisit : visitOf st.graph st.done n with
  | skip =>
    have hstep : visit hash st n = st := by
      unfold visit
      rw [hvisit]
    rw [hstep]
    exact ⟨{ h with live := hrest }, Or.inl ⟨rfl, rfl⟩⟩
  | keep =>
    have hstep : visit hash st n = { st with done := pushNew st.done n } := by
      unfold visit
      rw [hvisit]
    rw [hstep]
    refine ⟨{ h with live := ?_ }, Or.inl ⟨rfl, rfl⟩⟩
    exact fun x hx => (hrest x hx).imp_right fun hx => mem_pushNew.mpr (Or.inl hx)
  | fuse f =>
    obtain ⟨hdone, hne, hlen⟩ := fuse_spec hvisit
    have hn := (h.live n List.mem_cons_self).resolve_right hdone
    obtain ⟨p, hp⟩ := List.length_eq_one_iff.mp hlen
    have hnode2 : f.node2 ∈ st.graph.nodes :=
      (h.sound.preds_mem (hp ▸ List.mem_singleton_self p : p ∈ st.graph.preds f.node2)).2
    refine ⟨merge_inv h hn hnode2 hne hvisit, Or.inr ?_⟩
    obtain ⟨-, hnodes, -⟩ := @merge_spec I hash st n f.node2 f.isand f.isnot h.sound
      fun k hk => (h.keys k hk).1
    have hgraph : (visit hash st n).graph.nodes =
        (st.graph.nodes.erase n).erase f.node2 ++ [st.graph.fresh] := by
      unfold visit
      rw [hvisit]
      exact hnodes
    have hrest2 : f.node2 ∈ st.graph.nodes.erase n := (List.mem_erase_of_ne hne).mpr hnode2
    have hlen1 := List.length_erase_of_mem hn
    have hlen2 := List.length_erase_of_mem hrest2
    have hpos := List.length_pos_of_mem hn
    have hpos2 := List.length_pos_of_mem hrest2
    rw [hgraph, List.length_append, List.length_singleton, hlen2, hlen1]
    omega

theorem fold_spec (h : MergeInv l st) : MergeInv [] (l.foldl (visit hash) st) ∧
    (l.foldl (visit hash) st).graph.nodes.length ≤ st.graph.nodes.length ∧
    (0 < st.graph.nodes.length → 0 < (l.foldl (visit hash) st).graph.nodes.length) ∧
    ((l.foldl (visit hash) st).change = true → st.change = true ∨
      (l.foldl (visit hash) st).graph.nodes.length < st.graph.nodes.length ∧
        1 < st.graph.nodes.length) := by
  induction l generalizing st with
  | nil => exact ⟨h, Nat.le_refl _, id, Or.inl⟩
  | cons n l ih =>
    obtain ⟨hinv, hstep⟩ := @visit_spec I hash st n l h
    obtain ⟨hinv', hle, hpos, hchange⟩ := ih hinv
    rw [List.foldl_cons]
    rcases hstep with ⟨hgraph, hsame⟩ | ⟨hpos', hlen⟩
    · rw [hgraph] at hle hpos hchange
      rw [hsame] at hchange
      exact ⟨hinv', hle, hpos, hchange⟩
    · exact ⟨hinv', by omega, fun _ => hpos hpos', fun _ => Or.inr ⟨by omega, by omega⟩⟩

theorem round_spec (h : MergeInv [] st) : MergeInv [] (round hash st) ∧
    ((round hash st).change = true → 0 < (round hash st).graph.nodes.length ∧
      (round hash st).graph.nodes.length < st.graph.nodes.length) := by
  have hstart : MergeInv st.graph.postOrder { st with change := false, done := [] } :=
    { h with live := fun n hn => Or.inl (h.sound.postOrder_mem hn) }
  obtain ⟨hinv, -, hpos, hchange⟩ := @fold_spec I hash _ _ hstart
  refine ⟨hinv, fun hr => ?_⟩
  rcases hchange hr with hfalse | ⟨hlt, hmany⟩
  · exact absurd hfalse Bool.false_ne_true
  · exact ⟨hpos (Nat.lt_of_succ_lt hmany), hlt⟩

/-- The rounds end with one that merges nothing. -/
theorem rounds_spec {left ran : Nat} (h : MergeInv [] st)
    (hleft : max 1 st.graph.nodes.length ≤ left) :
    MergeInv [] (rounds hash left ran st).state ∧ (rounds hash left ran st).bailed = false ∧
      (rounds hash left ran st).rounds ≤ ran + max 1 st.graph.nodes.length := by
  induction left generalizing ran st with
  | zero => omega
  | succ left ih =>
    obtain ⟨hinv, hchange⟩ := @round_spec I hash st h
    unfold rounds
    dsimp only
    split
    · rename_i hr
      have hlt := hchange hr
      have hsound : MergeInv [] { round hash st with graph := (round hash st).graph.computeRpo } :=
        { hinv with sound := hinv.sound.computeRpo }
      have hnodes : (round hash st).graph.computeRpo.nodes = (round hash st).graph.nodes := rfl
      obtain ⟨hend, hbailed, hran⟩ := @ih _ (ran + 1) hsound (by rw [hnodes]; omega)
      rw [hnodes] at hran
      exact ⟨hend, hbailed, Nat.le_trans hran (by omega)⟩
    · exact ⟨hinv, rfl, by dsimp only; omega⟩

end Rounds

end Merging

section Result

variable {I : Type} {g : BlockGraph I}

theorem mergeInv_start (hg : g.Sound) (idom : AList fun _ : Nat => Option Nat) :
    Merging.MergeInv [] (⟨g, idom, ∅, [], true, []⟩ : Merging I) :=
  { sound := hg
    keys := fun k hk => absurd hk (AList.notMem_empty k)
    live := fun _ hn => absurd hn List.not_mem_nil
    swaps := fun _ hm => absurd hm List.not_mem_nil
    merged := fun _ hm => absurd hm List.not_mem_nil
    apart := List.Pairwise.nil }

theorem shortCircuitStruct_spec (hg : g.Sound) (hash : HashOrder)
    (idom : AList fun _ : Nat => Option Nat) :
    Merging.MergeInv [] (shortCircuitStruct hash g idom).state ∧
      (shortCircuitStruct hash g idom).bailed = false ∧
      (shortCircuitStruct hash g idom).rounds ≤ max 1 g.nodes.length := by
  have hcap : max 1 g.nodes.length ≤ max (g.nodes.length * 10) 1000 := by omega
  obtain ⟨hinv, hbailed, hrounds⟩ := @Merging.rounds_spec I hash _ _ 0 (mergeInv_start hg idom) hcap
  rw [Nat.zero_add] at hrounds
  exact ⟨hinv, hbailed, hrounds⟩

theorem sound_shortCircuitStruct (hg : g.Sound) (hash : HashOrder)
    (idom : AList fun _ : Nat => Option Nat) :
    (shortCircuitStruct hash g idom).state.graph.Sound :=
  (shortCircuitStruct_spec hg hash idom).1.sound

/-- The pass ends by itself, after at most as many rounds as there are nodes (one
for the graph without nodes). Each merge takes two nodes of the graph out and
puts a new one in, and no node is merged twice. -/
theorem short_circuit_struct_ends (hg : g.Sound) (hash : HashOrder)
    (idom : AList fun _ : Nat => Option Nat) :
    (shortCircuitStruct hash g idom).bailed = false ∧
      (shortCircuitStruct hash g idom).rounds ≤ max 1 g.nodes.length ∧
      (∀ m ∈ (shortCircuitStruct hash g idom).state.merges, m.Swaps) ∧
      (shortCircuitStruct hash g idom).state.merges.Pairwise Merge.Apart := by
  obtain ⟨hinv, hbailed, hrounds⟩ := shortCircuitStruct_spec hg hash idom
  exact ⟨hbailed, hrounds, hinv.swaps, hinv.apart⟩

end Result

/-- Two conditions that go to the same block: `0 && 1`. -/
def nestedIf : BlockGraph Nat :=
  let outer : Block Nat :=
    { cls := .cond, type := .cond, ins := [1], trueBranch := some 1, falseBranch := some 2 }
  let inner : Block Nat :=
    { cls := .cond, type := .cond, ins := [2], trueBranch := some 3, falseBranch := some 2 }
  let ret : Block Nat := { cls := .ret, type := .ret, ins := [3] }
  let g := (((({} : BlockGraph Nat).makeNode outer).makeNode inner).makeNode ret).makeNode ret
  let g := (((g.addEdge 0 1).addEdge 0 2).addEdge 1 3).addEdge 1 2
  { g with entry := some 0 }

theorem nestedIf_sound : nestedIf.Sound := by
  apply Sound.setEntry
  · have hempty : ({} : BlockGraph Nat).Sound := sound_empty
    apply Sound.addEdge _ (by decide) (by decide)
    apply Sound.addEdge _ (by decide) (by decide)
    apply Sound.addEdge _ (by decide) (by decide)
    apply Sound.addEdge _ (by decide) (by decide)
    exact hempty.makeNode.makeNode.makeNode.makeNode
  · decide

/-- A hash set that keeps the order of insertion. -/
def HashOrder.inserted : HashOrder := ⟨id, fun l => List.Perm.refl l⟩

theorem short_circuit_struct_ends_nestedIf :
    (shortCircuitStruct .inserted nestedIf ∅).bailed = false ∧
      (shortCircuitStruct .inserted nestedIf ∅).rounds ≤ max 1 nestedIf.nodes.length ∧
      (∀ m ∈ (shortCircuitStruct .inserted nestedIf ∅).state.merges, m.Swaps) ∧
      (shortCircuitStruct .inserted nestedIf ∅).state.merges.Pairwise Merge.Apart :=
  short_circuit_struct_ends nestedIf_sound .inserted ∅

set_option maxRecDepth 20000 in
example : ((shortCircuitStruct .inserted nestedIf ∅).state.merges.map fun m =>
    (m.node1, m.node2)) = [(0, 1)] := by decide

/-- Without nodes one round runs all the same. -/
theorem short_circuit_struct_empty_round : ¬∀ g : BlockGraph Nat, g.Sound →
    ∀ (hash : HashOrder) (idom : AList fun _ : Nat => Option Nat),
      (shortCircuitStruct hash g idom).bailed = false ∧
        (shortCircuitStruct hash g idom).rounds ≤ g.nodes.length ∧
        (∀ m ∈ (shortCircuitStruct hash g idom).state.merges, m.Swaps) ∧
        (shortCircuitStruct hash g idom).state.merges.Pairwise Merge.Apart := by
  intro hall
  have hrounds := (hall {} sound_empty .inserted ∅).2.1
  have hone : (shortCircuitStruct .inserted ({} : BlockGraph Nat) ∅).rounds = 1 := rfl
  rw [hone] at hrounds
  exact absurd hrounds (by decide)

end Dexllm.Dad
