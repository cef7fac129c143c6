import Dexllm.Dad.IntervalGraph
import Mathlib.Data.Finset.Prod

/-!
`DerivedSequenceOf` repeats `Intervals` until one interval is left. An edge to a
head that waits already is left out, so that the sequence ends for irreducible
graphs as well: a graph that keeps its nodes loses an edge.
-/

namespace Dexllm.Dad

open DepthFirst Relation

/-- The graphs with the intervals of each; the nodes of the next graph are the
intervals. The graph of the last result has one node. -/
inductive DerivedSequence : Type → Type 1
  | last {α : Type} (graph : Graph α) (result : IntervalResult α) : DerivedSequence α
  | next {α : Type} (graph : Graph α) (result : IntervalResult α)
      (rest : DerivedSequence (Interval α)) : DerivedSequence α

/-- The size of the last interval graph. -/
def DerivedSequence.lastSize {α : Type} : DerivedSequence α → Nat
  | .last _ result => result.graph.nodes.length
  | .next _ _ rest => rest.lastSize

/-- Without a result a loop has run out of rounds. -/
def derivedSequenceOf (fuel : Nat) : Nat → {α : Type} → [DecidableEq α] → Graph α →
    Option (DerivedSequence α)
  | 0, _, _, _ => none
  | rounds + 1, _, _, current =>
    match intervals fuel current with
    | none => none
    | some r =>
      let next := r.graph.computeRpo
      if next.nodes.length = 1 then some (.last current { r with graph := next })
      else (derivedSequenceOf fuel rounds next).map
        (.next current { r with graph := next })

variable {α : Type} [DecidableEq α]

/-- The pairs of nodes joined by an edge. -/
def edgeSet (g : Graph α) : Finset (α × α) :=
  (g.nodes.toFinset ×ˢ g.nodes.toFinset).filter fun p => p.2 ∈ g.allSucs p.1

/-- The interval of a node. -/
def IntervalsState.intervalOf (st : IntervalsState α) (v : α) : Option (Interval α) :=
  (st.owner v).bind st.intervHeads

section Step

variable {g : Graph α} {e : α} {fuel : Nat} {st : IntervalsState α}

theorem mem_edgeSet (hg : g.WellFormed) {v w : α} :
    (v, w) ∈ edgeSet g ↔ w ∈ g.allSucs v := by
  unfold edgeSet
  rw [Finset.mem_filter, Finset.mem_product, List.mem_toFinset, List.mem_toFinset]
  constructor
  · exact fun h => h.2
  · exact fun h => ⟨hg.closed h, h⟩

theorem edgeSet_le (g : Graph α) : (edgeSet g).card ≤ g.nodes.length * g.nodes.length := by
  refine (Finset.card_filter_le _ _).trans ?_
  rw [Finset.card_product]
  exact Nat.mul_le_mul (List.toFinset_card_le _) (List.toFinset_card_le _)

theorem Ended.intervalOf (h : Ended g e fuel st) {f : Interval α × List α} (hf : f ∈ st.formed)
    {v : α} (hv : v ∈ f.1.content) : st.intervalOf v = some f.1 := by
  have howner := (h.inv.owner v f.1.head).mpr ⟨f, hf, rfl, hv⟩
  unfold IntervalsState.intervalOf
  rw [howner]
  exact h.intervHeads_iff.mpr ⟨List.mem_map_of_mem hf, rfl⟩

theorem Ended.mem_allSucs (h : Ended g e fuel st) {iv iv' : Interval α}
    (harc : iv' ∈ (st.result g).graph.allSucs iv) :
    ∃ f ∈ st.formed, ∃ f' ∈ st.formed, f.1 = iv ∧ f'.1 = iv' ∧ f'.1.head ∈ f.2 := by
  have hcatch : (st.result g).graph.catchEdges = EdgeTable.empty :=
    (addEdges_other st.edgeList _).1
  have hlist : (iv, iv') ∈ st.edgeList := by
    unfold Graph.allSucs at harc
    rw [hcatch] at harc
    have hedges : iv' ∈ (st.result g).graph.edges.sucs iv := by
      simpa [EdgeTable.empty] using harc
    simpa [EdgeTable.empty] using (mem_addEdges st.edgeList _).mp hedges
  unfold IntervalsState.edgeList at hlist
  obtain ⟨f, hf, hmem⟩ := List.mem_flatMap.mp hlist
  obtain ⟨iv1, hiv1, heq⟩ := List.mem_map.mp hmem
  obtain ⟨rfl, rfl⟩ := Prod.mk.inj heq
  obtain ⟨v, hv, hhead⟩ := List.mem_filterMap.mp hiv1
  obtain ⟨hmem1, rfl⟩ := h.intervHeads_iff.mp hhead
  obtain ⟨f', hf', rfl⟩ := List.mem_map.mp hmem1
  exact ⟨f, hf, f', hf', rfl, rfl, hv⟩

theorem Ended.heads_nodup (h : Ended g e fuel st) : (st.formed.map Prod.fst).Nodup := by
  have hdistinct := h.inv.distinct
  have hmap : (st.formed.map fun f => f.1.head) = (st.formed.map Prod.fst).map Interval.head := by
    rw [List.map_map]
    rfl
  rw [hmap] at hdistinct
  exact hdistinct.of_map

theorem Ended.size_le (h : Ended g e fuel st) :
    (st.result g).graph.nodes.length ≤ g.nodes.length := by
  have hsub : (st.formed.map fun f => f.1.head) ⊆ g.nodes := by
    intro v hv
    obtain ⟨f, hf, rfl⟩ := List.mem_map.mp hv
    exact (h.inv.grown f hf).sub _ (h.inv.grown f hf).head_mem
  have hle := (h.inv.distinct.subperm hsub).length_le
  rw [nodes_result]
  simpa using hle

/-- The interval graph is one that `Intervals` can go on with. -/
theorem Ended.next_wellFormed (hready : Ready g e) (h : Ended g e fuel st) :
    ∃ e', (st.result g).graph.WellFormed ∧ (st.result g).graph.entry = some e' ∧
      ∀ iv ∈ (st.result g).graph.nodes, (st.result g).graph.Reachable iv := by
  obtain ⟨fe, hfe, hehead⟩ := h.processed_of h.inv.entry
  have hemem : e ∈ fe.1.content := hehead ▸ (h.inv.grown fe hfe).head_mem
  have hentry : (st.result g).graph.entry = some fe.1 := by
    have hres : (st.result g).graph.entry = g.entry.bind st.intervalOf :=
      ((addEdges_other st.edgeList _).2.2).trans (Option.bind_assoc ..)
    rw [hres, hready.entry]
    exact h.intervalOf hfe hemem
  have hcatch : (st.result g).graph.catchEdges = EdgeTable.empty :=
    (addEdges_other st.edgeList _).1
  refine ⟨fe.1, ?_, hentry, ?_⟩
  · constructor
    case nodup =>
      rw [nodes_result]
      exact h.heads_nodup
    case entryMem =>
      intro iv hiv
      obtain rfl := Option.some.inj (hentry.symm.trans hiv)
      rw [nodes_result]
      exact List.mem_map_of_mem hfe
    case edgesMem =>
      intro iv iv' harc
      obtain ⟨f, hf, f', hf', rfl, rfl, _⟩ := h.mem_allSucs (List.mem_append_left _ harc)
      rw [nodes_result]
      exact ⟨List.mem_map_of_mem hf, List.mem_map_of_mem hf'⟩
    case catchMem =>
      intro iv iv' harc
      rw [hcatch] at harc
      cases harc
  · intro iv hiv
    rw [nodes_result] at hiv
    obtain ⟨f, hf, rfl⟩ := List.mem_map.mp hiv
    refine ⟨fe.1, hentry, ?_⟩
    rw [reaches_iff]
    -- along the chain of queued heads that leads to the head of the interval
    have hchain {v : α} (hv : ReflTransGen (Queues st.formed) e v) : ∃ f' ∈ st.formed,
        f'.1.head = v ∧
          ReflTransGen (fun a b => b ∈ (st.result g).graph.allSucs a) fe.1 f'.1 := by
      induction hv with
      | refl => exact ⟨fe, hfe, hehead, ReflTransGen.refl⟩
      | @tail u w _ hstep ih =>
        obtain ⟨f1, hf1, hu, hreach⟩ := ih
        obtain ⟨f2, hf2, hhead, hw⟩ := hstep
        obtain rfl := h.eq_of_head hf2 hf1 (hhead.trans hu.symm)
        obtain ⟨f3, hf3, hw3⟩ := h.processed_of (h.inv.waits hf2 hw)
        exact ⟨f3, hf3, hw3, hreach.tail ((h.mem_sucs hf2 hf3).mpr (hw3 ▸ hw))⟩
    obtain ⟨f', hf', hhead, hreach⟩ := hchain (h.inv.queues f hf)
    obtain rfl := h.eq_of_head hf' hf hhead
    exact hreach

/-- Every edge of the interval graph comes from an edge of the graph, and not
from one whose head was not queued by the interval it leaves. -/
theorem Ended.edges_lt (hready : Ready g e) (h : Ended g e fuel st)
    (hnext : (st.result g).graph.WellFormed) {q v : α} (harc : v ∈ g.allSucs q)
    (hlost : ∀ f ∈ st.formed, q ∈ f.1.content → v ∉ f.2) :
    (edgeSet (st.result g).graph).card < (edgeSet g).card := by
  have hmem : (q, v) ∈ edgeSet g := (mem_edgeSet hready.wellFormed).mpr harc
  have hsub : (edgeSet (st.result g).graph).image (fun p => (some p.1, some p.2)) ⊆
      ((edgeSet g).erase (q, v)).image fun p => (st.intervalOf p.1, st.intervalOf p.2) := by
    intro p hp
    obtain ⟨⟨iv, iv'⟩, harc', rfl⟩ := Finset.mem_image.mp hp
    obtain ⟨f, hf, f', hf', rfl, rfl, hqueued⟩ := h.mem_allSucs ((mem_edgeSet hnext).mp harc')
    obtain ⟨_, _, hat⟩ := h.inv.formedAt f hf
    obtain ⟨_, _, _, u, hu, huf⟩ := (hat.found _).mp hqueued
    rw [Finset.mem_image]
    refine ⟨(u, f'.1.head), Finset.mem_erase.mpr ⟨?_, ?_⟩, ?_⟩
    · intro heq
      obtain ⟨rfl, rfl⟩ := Prod.mk.inj heq
      exact hlost f hf huf hqueued
    · exact (mem_edgeSet hready.wellFormed).mpr (Graph.mem_allPreds.mp hu)
    · rw [h.intervalOf hf huf, h.intervalOf hf' (h.inv.grown f' hf').head_mem]
  have hinj : ((edgeSet (st.result g).graph).image fun p => (some p.1, some p.2)).card =
      (edgeSet (st.result g).graph).card := by
    apply Finset.card_image_of_injective
    rintro ⟨a, b⟩ ⟨c, d⟩ heq
    simpa using heq
  rw [← hinj]
  calc ((edgeSet (st.result g).graph).image fun p => (some p.1, some p.2)).card
      ≤ (((edgeSet g).erase (q, v)).image
          fun p => (st.intervalOf p.1, st.intervalOf p.2)).card := Finset.card_le_card hsub
    _ ≤ ((edgeSet g).erase (q, v)).card := Finset.card_image_le
    _ < (edgeSet g).card := Finset.card_erase_lt_of_mem hmem

/-- With as many intervals as nodes every node is an interval of its own. -/
theorem Ended.single (h : Ended g e fuel st)
    (hsize : st.formed.length = g.nodes.length) {v : α} (hv : v ∈ g.nodes) :
    ∃ f ∈ st.formed, f.1.head = v ∧ ∀ x ∈ f.1.content, x = v := by
  have hsub : (st.formed.map fun f => f.1.head) ⊆ g.nodes := by
    intro x hx
    obtain ⟨f, hf, rfl⟩ := List.mem_map.mp hx
    exact (h.inv.grown f hf).sub _ (h.inv.grown f hf).head_mem
  have hperm : (st.formed.map fun f => f.1.head).Perm g.nodes := by
    apply (h.inv.distinct.subperm hsub).perm_of_length_le
    rw [List.length_map, hsize]
  have hhead {x : α} (hx : x ∈ g.nodes) : ∃ f ∈ st.formed, f.1.head = x := by
    obtain ⟨f, hf, heq⟩ := List.mem_map.mp (hperm.mem_iff.mpr hx)
    exact ⟨f, hf, heq⟩
  obtain ⟨f, hf, rfl⟩ := hhead hv
  refine ⟨f, hf, rfl, fun x hx => ?_⟩
  obtain ⟨f', hf', rfl⟩ := hhead ((h.inv.grown f hf).sub x hx)
  exact (h.inv.disjoint f hf f' hf' _ hx (h.inv.grown f' hf').head_mem).symm

/-- Among several intervals, as many as nodes, the last one formed loses an edge
to its head: its node has two predecessors, one interval of which found it
waiting, or an edge to itself. -/
theorem Ended.exists_lost (hready : Ready g e)
    (hfull : ∀ v ∈ g.nodes, v ≠ e → v ∈ g.rpo.tail) (h : Ended g e fuel st)
    (hsize : st.formed.length = g.nodes.length) (htwo : 2 ≤ st.formed.length) :
    ∃ q v, v ∈ g.allSucs q ∧ ∀ f ∈ st.formed, q ∈ f.1.content → v ∉ f.2 := by
  have hne : st.formed ≠ [] := by
    rintro heq
    rw [heq] at htwo
    simp at htwo
  obtain ⟨init, last, hlast⟩ : ∃ init last, st.formed = init ++ [last] :=
    ⟨_, _, (List.dropLast_append_getLast hne).symm⟩
  have hlastmem : last ∈ st.formed := by simp [hlast]
  have hgrown := h.inv.grown last hlastmem
  have hvnode := hgrown.sub _ hgrown.head_mem
  have hve : last.1.head ≠ e := by
    intro heq
    rcases h.inv.first with ⟨hnone, _⟩ | ⟨f, rest, hfirst, hfe⟩
    · exact hne hnone
    · have hf : f ∈ st.formed := hfirst ▸ List.mem_cons_self
      obtain rfl := h.eq_of_head hf hlastmem (hfe.trans heq.symm)
      -- the first interval is the last one only when it is the only one
      have hnodup := h.inv.distinct
      rw [hlast] at hnodup hfirst htwo
      cases init with
      | nil => simp at htwo
      | cons f' init =>
        obtain rfl := (List.cons.inj hfirst).1
        simp at hnodup
  have hinit {f : Interval α × List α} (hf : f ∈ st.formed) (hfv : f.1.head ≠ last.1.head) :
      f ∈ init := by
    rw [hlast] at hf
    rcases List.mem_append.mp hf with hf | hf
    · exact hf
    · exact absurd (congrArg (fun f => f.1.head) (List.mem_singleton.mp hf)) hfv
  obtain ⟨p, hp, hpv⟩ := hready.exists_pred hvnode hve
  have hpnode := (hready.wellFormed.closed (Graph.mem_allPreds.mp hp)).1
  obtain ⟨fp, hfp, hfphead, hfpc⟩ := h.single hsize hpnode
  have hout : last.1.head ∉ fp.1.content := fun hmem => hpv (hfpc _ hmem).symm
  obtain ⟨q, hq, hqout⟩ := h.inv.maximal fp hfp _ (hfull _ hvnode hve) hout
  have hqp : q ≠ p := by
    rintro rfl
    exact hqout (hfphead ▸ (h.inv.grown fp hfp).head_mem)
  have hqnode := (hready.wellFormed.closed (Graph.mem_allPreds.mp hq)).1
  obtain ⟨fq, hfq, hfqhead, hfqc⟩ := h.single hsize hqnode
  have honly {f' : Interval α × List α} (hf' : f' ∈ st.formed) {x : α} (hx : x ∈ f'.1.content)
      {f : Interval α × List α} (hf : f ∈ st.formed) (hhead : f.1.head = x) : f' = f :=
    h.eq_of_head hf' hf (h.inv.disjoint f' hf' f hf x hx (hhead ▸ (h.inv.grown f hf).head_mem))
  by_cases hqv : q = last.1.head
  · refine ⟨q, last.1.head, Graph.mem_allPreds.mp hq, fun f hf hqf hqueued => ?_⟩
    obtain ⟨_, _, hat⟩ := h.inv.formedAt f hf
    obtain ⟨_, hnot, _⟩ := (hat.found _).mp hqueued
    exact hnot (hqv ▸ hqf)
  · by_cases hfpv : last.1.head ∈ fp.2
    · refine ⟨q, last.1.head, Graph.mem_allPreds.mp hq, fun f hf hqf hqueued => hqp ?_⟩
      obtain rfl := honly hf hqf hfq hfqhead
      rw [← hfqhead, ← hfphead]
      exact h.inv.lastOnce init last hlast f (hinit hf (hfqhead ▸ hqv)) fp
        (hinit hfp (hfphead ▸ hpv)) hqueued hfpv
    · refine ⟨p, last.1.head, Graph.mem_allPreds.mp hp, fun f hf hpf hqueued => hfpv ?_⟩
      obtain rfl := honly hf hpf hfp hfphead
      exact hqueued

end Step

/-- One round of `DerivedSequenceOf`: the next graph has no more nodes, and if it
has as many, fewer edges. -/
theorem exists_next {g : Graph α} {e : α} (hready : Ready g e) {fuel : Nat}
    (hfuel : g.nodes.length * (g.nodes.length + 1) + 1 < fuel) :
    ∃ r e', intervals fuel g = some r ∧ Ready r.graph.computeRpo e' ∧
      (∀ iv ∈ r.graph.nodes, iv ≠ e' → iv ∈ r.graph.computeRpo.rpo.tail) ∧
      r.graph.nodes.length ≤ g.nodes.length ∧
      ((∀ v ∈ g.nodes, v ≠ e → v ∈ g.rpo.tail) → 2 ≤ r.graph.nodes.length →
        r.graph.nodes.length = g.nodes.length →
        (edgeSet r.graph).card < (edgeSet g).card) := by
  obtain ⟨st, hend, hres⟩ := exists_ended hready hfuel
  obtain ⟨e', hnext, hentry, hreach⟩ := hend.next_wellFormed hready
  refine ⟨_, e', hres, ready_computeRpo hnext hentry hreach, ?_, hend.size_le, ?_⟩
  · exact fun iv hiv hne => (mem_rpo_tail hnext hentry hreach).mpr ⟨hiv, hne⟩
  · intro hfull htwo hsize
    have hlen : st.formed.length = (st.result g).graph.nodes.length := by
      rw [nodes_result, List.length_map]
    obtain ⟨q, v, harc, hlost⟩ := hend.exists_lost hready hfull (hlen.trans hsize) (hlen ▸ htwo)
    exact hend.edges_lt hready hnext harc hlost

/-- The rounds that a graph with `nodes` nodes and `edges` edges needs at most,
when there are `size` nodes in the beginning. -/
def roundsBound (size nodes edges : Nat) : Nat := nodes * (size * size + 1) + edges

theorem derivedSequenceOf_computed (size fuel : Nat) (hfuel : size * (size + 1) + 1 < fuel)
    (rounds : Nat) : ∀ {α : Type} [DecidableEq α] {g : Graph α} {e : α}, Ready g e →
      (∀ v ∈ g.nodes, v ≠ e → v ∈ g.rpo.tail) → g.nodes.length ≤ size →
      roundsBound size g.nodes.length (edgeSet g).card < rounds →
      ∃ ds, derivedSequenceOf fuel rounds g = some ds ∧ ds.lastSize = 1 := by
  induction rounds with
  | zero => exact fun _ _ _ hrounds => absurd hrounds (Nat.not_lt_zero _)
  | succ rounds ih =>
    intro α _ g e hready hfull hsize hrounds
    have hroom : g.nodes.length * (g.nodes.length + 1) + 1 < fuel := by
      have hmul : g.nodes.length * (g.nodes.length + 1) ≤ size * (size + 1) :=
        Nat.mul_le_mul hsize (Nat.succ_le_succ hsize)
      omega
    obtain ⟨r, e', hr, hnext, hnextFull, hle, hlt⟩ := exists_next hready hroom
    rw [derivedSequenceOf, hr]
    dsimp only
    by_cases hone : r.graph.computeRpo.nodes.length = 1
    · rw [if_pos hone]
      exact ⟨_, rfl, hone⟩
    · rw [if_neg hone]
      rw [Graph.nodes_computeRpo] at hone
      have hpos : 0 < r.graph.nodes.length :=
        List.length_pos_of_mem (hnext.wellFormed.entryMem e' hnext.entry)
      have hless : roundsBound size r.graph.nodes.length (edgeSet r.graph).card < rounds := by
        unfold roundsBound at hrounds ⊢
        rcases Nat.lt_or_ge r.graph.nodes.length g.nodes.length with hfewer | hsame
        · have hedges := edgeSet_le r.graph
          have hsq := Nat.mul_le_mul (hle.trans hsize) (hle.trans hsize)
          have hmul := Nat.mul_le_mul_right (size * size + 1) (Nat.succ_le_of_lt hfewer)
          rw [Nat.succ_mul] at hmul
          omega
        · have heq := Nat.le_antisymm hle hsame
          have hedges := hlt hfull (by omega) heq
          rw [heq]
          omega
      obtain ⟨ds, hds, hlast⟩ := ih hnext hnextFull (hle.trans hsize) hless
      rw [hds]
      exact ⟨_, rfl, hlast⟩

/-- `DerivedSequenceOf` ends with an interval graph of one node, whatever the
graph: its rounds are bounded by its size. -/
theorem derivedSequenceOf_ends {g : Graph α} {e : α} (hg : g.WellFormed) (he : g.entry = some e)
    (hreach : ∀ v ∈ g.nodes, g.Reachable v) (hrpo : ∀ v ∈ g.rpo.tail, v ∈ g.nodes ∧ v ≠ e)
    {fuel rounds : Nat} (hfuel : g.nodes.length * (g.nodes.length + 1) + 1 < fuel)
    (hrounds : (g.nodes.length + 1) * (g.nodes.length * g.nodes.length + 1) < rounds) :
    ∃ ds, derivedSequenceOf fuel rounds g = some ds ∧ ds.lastSize = 1 := by
  have hready : Ready g e := ⟨hg, he, hreach, hrpo⟩
  obtain ⟨r, e', hr, hnext, hnextFull, hle, _⟩ := exists_next hready hfuel
  cases rounds with
  | zero => exact absurd hrounds (Nat.not_lt_zero _)
  | succ rounds =>
    rw [derivedSequenceOf, hr]
    dsimp only
    by_cases hone : r.graph.computeRpo.nodes.length = 1
    · rw [if_pos hone]
      exact ⟨_, rfl, hone⟩
    · rw [if_neg hone]
      have hless : roundsBound g.nodes.length r.graph.computeRpo.nodes.length
          (edgeSet r.graph.computeRpo).card < rounds := by
        have hedges := edgeSet_le r.graph
        have hsq := Nat.mul_le_mul hle hle
        have hmul := Nat.mul_le_mul_right (g.nodes.length * g.nodes.length + 1) hle
        rw [Nat.succ_mul] at hrounds
        change r.graph.nodes.length * (g.nodes.length * g.nodes.length + 1) +
          (edgeSet r.graph).card < rounds
        omega
      obtain ⟨ds, hds, hlast⟩ := derivedSequenceOf_computed g.nodes.length fuel hfuel rounds hnext
        hnextFull hle hless
      rw [hds]
      exact ⟨_, rfl, hlast⟩

theorem derivedSequenceOf_ends_loopGraph :
    ∃ ds, derivedSequenceOf 22 86 loopGraph.computeRpo = some ds ∧ ds.lastSize = 1 :=
  derivedSequenceOf_ends loopGraph_wellFormed.computeRpo rfl loopGraph_allReachable
    (by decide) (by decide) (by decide)

end Dexllm.Dad
