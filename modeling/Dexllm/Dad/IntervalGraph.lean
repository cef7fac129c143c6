import Dexllm.Dad.IntervalsRounds

/-!
The result of `Intervals`: its intervals are a partition of the nodes, closed
under predecessors but for their heads, and its graph has the edges to the heads
that did not wait in the queue already.
-/

namespace Dexllm.Dad

open DepthFirst Relation

variable {α : Type} [DecidableEq α]

section Edges

/-- Adding a list of edges. -/
theorem mem_addEdges (l : List (α × α)) (g : Graph α) {v w : α} :
    w ∈ (l.foldl (fun ig (p : α × α) => ig.addEdge p.1 p.2) g).edges.sucs v ↔
      w ∈ g.edges.sucs v ∨ (v, w) ∈ l := by
  induction l generalizing g with
  | nil => simp
  | cons p l ih =>
    have hstep : w ∈ (g.addEdge p.1 p.2).edges.sucs v ↔
        w ∈ g.edges.sucs v ∨ (v = p.1 ∧ w = p.2) := EdgeTable.mem_add
    rw [List.foldl_cons, ih, hstep, List.mem_cons, Prod.ext_iff]
    tauto

theorem addEdges_other (l : List (α × α)) (g : Graph α) :
    (l.foldl (fun ig (p : α × α) => ig.addEdge p.1 p.2) g).catchEdges = g.catchEdges ∧
      (l.foldl (fun ig (p : α × α) => ig.addEdge p.1 p.2) g).nodes = g.nodes ∧
      (l.foldl (fun ig (p : α × α) => ig.addEdge p.1 p.2) g).entry = g.entry := by
  induction l generalizing g with
  | nil => exact ⟨rfl, rfl, rfl⟩
  | cons p l ih => exact ih (g.addEdge p.1 p.2)

end Edges

/-- A run of `Intervals` that has ended. -/
structure Ended (g : Graph α) (e : α) (fuel : Nat) (st : IntervalsState α) : Prop where
  inv : IntervalsInv g e fuel st
  heads : st.heads = []

section Result

variable {g : Graph α} {e : α} {fuel : Nat} {st : IntervalsState α}

theorem exists_ended (hready : Ready g e)
    (hfuel : g.nodes.length * (g.nodes.length + 1) + 1 < fuel) :
    ∃ st, Ended g e fuel st ∧ intervals fuel g = some (st.result g) := by
  have hle : g.nodes.length ≤ g.nodes.length * (g.nodes.length + 1) :=
    Nat.le_mul_of_pos_right _ (Nat.succ_pos _)
  have hrounds : roundsLeft g (IntervalsState.start g) < fuel := by
    have hlen := List.length_filter_le (fun v => !(IntervalsState.start g).processed v) g.nodes
    have hmul := Nat.mul_le_mul_right (g.nodes.length + 1) hlen
    have hheads : (IntervalsState.start g).heads.length = 1 := by
      unfold IntervalsState.start
      rw [hready.entry]
      rfl
    unfold roundsLeft
    omega
  have hfuel' : g.nodes.length < fuel := by omega
  obtain ⟨st, hst⟩ := exists_run hready hfuel' IntervalsRun.start hrounds
  obtain ⟨hrun, hheads⟩ := run_spec IntervalsRun.start hst
  refine ⟨st, ⟨hrun.inv hready, hheads⟩, ?_⟩
  unfold intervals
  rw [hst]
  rfl

theorem Ended.eq_of_head (h : Ended g e fuel st) {f f' : Interval α × List α}
    (hf : f ∈ st.formed) (hf' : f' ∈ st.formed) (hsame : f.1.head = f'.1.head) : f = f' :=
  List.inj_on_of_nodup_map h.inv.distinct hf hf' hsame

theorem Ended.intervHeads_iff (h : Ended g e fuel st) {v : α} {iv : Interval α} :
    st.intervHeads v = some iv ↔ iv ∈ st.formed.map Prod.fst ∧ iv.head = v := by
  unfold IntervalsState.intervHeads
  constructor
  · intro hfind
    exact ⟨List.mem_of_find?_eq_some hfind, of_decide_eq_true
      (List.find?_some (p := fun iv : Interval α => decide (iv.head = v)) hfind)⟩
  · rintro ⟨hmem, hhead⟩
    have hsome : ((st.formed.map Prod.fst).find? fun iv => decide (iv.head = v)).isSome := by
      rw [List.find?_isSome]
      exact ⟨iv, hmem, decide_eq_true hhead⟩
    obtain ⟨iv', hiv'⟩ := Option.isSome_iff_exists.mp hsome
    have hmem' := List.mem_of_find?_eq_some hiv'
    have hhead' := of_decide_eq_true
      (List.find?_some (p := fun iv : Interval α => decide (iv.head = v)) hiv')
    obtain ⟨f, hf, rfl⟩ := List.mem_map.mp hmem
    obtain ⟨f', hf', rfl⟩ := List.mem_map.mp hmem'
    rw [hiv', h.eq_of_head hf' hf (hhead'.trans hhead.symm)]

/-- Every head queued is processed in the end. -/
theorem Ended.processed_of (h : Ended g e fuel st) {v : α}
    (hv : v ∈ st.heads ∨ st.processed v = true) : ∃ f ∈ st.formed, f.1.head = v := by
  rw [h.heads] at hv
  exact (h.inv.processed v).mp (hv.resolve_left List.not_mem_nil)

theorem Ended.covered (hready : Ready g e) (h : Ended g e fuel st) {v : α} (hv : v ∈ g.nodes) :
    ∃ f ∈ st.formed, v ∈ f.1.content := by
  obtain ⟨e', he', hreach⟩ := hready.reachable v hv
  obtain rfl := Option.some.inj (hready.entry.symm.trans he')
  rw [reaches_iff] at hreach
  clear hv
  induction hreach with
  | refl =>
    obtain ⟨f, hf, hhead⟩ := h.processed_of h.inv.entry
    exact ⟨f, hf, hhead ▸ (h.inv.grown f hf).head_mem⟩
  | @tail u w _ harc ih =>
    obtain ⟨f, hf, hu⟩ := ih
    by_cases hw : w ∈ f.1.content
    · exact ⟨f, hf, hw⟩
    · have hnode := (hready.wellFormed.closed harc).2
      obtain ⟨f', hf', hhead⟩ := h.processed_of
        (h.inv.frontier f hf w hnode hw ⟨u, Graph.mem_allPreds.mpr harc, hu⟩)
      exact ⟨f', hf', hhead ▸ (h.inv.grown f' hf').head_mem⟩

@[simp] theorem nodes_result : (st.result g).graph.nodes = st.formed.map Prod.fst :=
  (addEdges_other st.edgeList _).2.1

@[simp] theorem intervals_result : (st.result g).intervals = st.formed.map Prod.fst := rfl

/-- The successors of an interval are the intervals of the heads it has queued. -/
theorem Ended.mem_sucs (h : Ended g e fuel st) {f f' : Interval α × List α} (hf : f ∈ st.formed)
    (hf' : f' ∈ st.formed) :
    f'.1 ∈ (st.result g).graph.allSucs f.1 ↔ f'.1.head ∈ f.2 := by
  have hcatch : (st.result g).graph.catchEdges = EdgeTable.empty :=
    (addEdges_other st.edgeList _).1
  have hedges : f'.1 ∈ (st.result g).graph.edges.sucs f.1 ↔ (f.1, f'.1) ∈ st.edgeList := by
    refine (mem_addEdges st.edgeList _).trans ?_
    simp [EdgeTable.empty]
  have hlist : (f.1, f'.1) ∈ st.edgeList ↔ f'.1.head ∈ f.2 := by
    unfold IntervalsState.edgeList
    rw [List.mem_flatMap]
    constructor
    · rintro ⟨f1, hf1, hmem⟩
      obtain ⟨iv, hiv, heq⟩ := List.mem_map.mp hmem
      obtain ⟨hf1f, rfl⟩ := Prod.mk.inj heq
      obtain ⟨v, hv, hhead⟩ := List.mem_filterMap.mp hiv
      obtain ⟨_, rfl⟩ := h.intervHeads_iff.mp hhead
      obtain rfl := h.eq_of_head hf1 hf (congrArg Interval.head hf1f)
      exact hv
    · intro hmem
      refine ⟨f, hf, List.mem_map.mpr ⟨f'.1, List.mem_filterMap.mpr ⟨f'.1.head, hmem, ?_⟩, rfl⟩⟩
      exact h.intervHeads_iff.mpr ⟨List.mem_map_of_mem hf', rfl⟩
  unfold Graph.allSucs
  rw [List.mem_append, hcatch, hedges, hlist]
  simp [EdgeTable.empty]

end Result

section Rpo

variable {g : Graph α} {e : α}

/-- After `compute_rpo` the entry is first and every other node follows. -/
theorem mem_rpo_tail (hg : g.WellFormed) (he : g.entry = some e)
    (hreach : ∀ v ∈ g.nodes, g.Reachable v) {v : α} :
    v ∈ g.computeRpo.rpo.tail ↔ v ∈ g.nodes ∧ v ≠ e := by
  have hnum := numbered_domLt hg he SetOrders.filled
  have hentry := hg.entryMem e he
  have hperm : g.computeRpo.rpo.Perm g.nodes := List.perm_insertionSort _ _
  have hsorted : g.computeRpo.rpo.Pairwise fun a b => g.computeRpo.num a ≤ g.computeRpo.num b := by
    have htotal : Std.Total fun a b => g.computeRpo.num a ≤ g.computeRpo.num b :=
      ⟨fun a b => Int.le_total _ _⟩
    have htrans : IsTrans α fun a b => g.computeRpo.num a ≤ g.computeRpo.num b :=
      ⟨fun _ _ _ hab hbc => Int.le_trans hab hbc⟩
    exact List.pairwise_insertionSort (fun a b => g.computeRpo.num a ≤ g.computeRpo.num b) g.nodes
  have hhead : ∃ rest, g.computeRpo.rpo = e :: rest := by
    cases hrpo : g.computeRpo.rpo with
    | nil =>
      rw [hrpo] at hperm
      rw [List.nil_perm.mp hperm] at hentry
      cases hentry
    | cons x rest =>
      rw [hrpo] at hperm hsorted
      have hx := hperm.mem_iff.mp List.mem_cons_self
      have hle : x = e ∨ g.computeRpo.num x ≤ g.computeRpo.num e := by
        rcases List.mem_cons.mp (hperm.mem_iff.mpr hentry) with heq | hrest
        · exact .inl heq.symm
        · exact .inr ((List.pairwise_cons.mp hsorted).1 e hrest)
      have hxe : x = e := by
        rcases hle with heq | hle
        · exact heq
        · by_contra hne
          have hlt := hnum.first x (hreach x hx) hne
          omega
      exact ⟨rest, by rw [hxe]⟩
  obtain ⟨rest, hrest⟩ := hhead
  have hnodup := hperm.nodup_iff.mpr hg.nodup
  rw [hrest] at hperm hnodup ⊢
  obtain ⟨hnot, _⟩ := List.nodup_cons.mp hnodup
  rw [List.tail_cons, ← hperm.mem_iff, List.mem_cons]
  constructor
  · exact fun hv => ⟨.inr hv, fun heq => hnot (heq ▸ hv)⟩
  · exact fun hv => hv.1.resolve_left hv.2

theorem ready_computeRpo (hg : g.WellFormed) (he : g.entry = some e)
    (hreach : ∀ v ∈ g.nodes, g.Reachable v) : Ready g.computeRpo e where
  wellFormed := hg.computeRpo
  entry := he
  reachable := hreach
  rpo := fun _ hv => (mem_rpo_tail hg he hreach).mp hv

/-- `Intervals` partitions the nodes into intervals whose members but the head
have all predecessors inside. An interval has an edge to another one when a
member has an edge to its head and that head did not wait in the queue when the
interval was formed. -/
theorem intervals_partition (hg : g.WellFormed) (he : g.entry = some e)
    (hreach : ∀ v ∈ g.nodes, g.Reachable v) {fuel : Nat}
    (hfuel : g.nodes.length * (g.nodes.length + 1) + 1 < fuel) :
    ∃ r, intervals fuel g.computeRpo = some r ∧ r.graph.nodes = r.intervals ∧
      (∀ iv ∈ r.intervals, iv.head ∈ iv.content ∧ iv.content.Nodup ∧ iv.content ⊆ g.nodes) ∧
      (∀ v ∈ g.nodes, ∃! iv, iv ∈ r.intervals ∧ v ∈ iv.content) ∧
      (∀ iv ∈ r.intervals, ∀ v ∈ iv.content, v ≠ iv.head →
        ∀ p ∈ g.allPreds v, p ∈ iv.content) ∧
      ∀ iv ∈ r.intervals, ∃ st queue, IntervalsRun g.computeRpo fuel st ∧
        st.heads = iv.head :: queue ∧ st.processed iv.head = false ∧
        ∀ iv' ∈ r.intervals, iv' ≠ iv →
          (iv' ∈ r.graph.allSucs iv ↔
            (∃ v ∈ iv.content, iv'.head ∈ g.allSucs v) ∧ iv'.head ∉ queue) := by
  have hready := ready_computeRpo hg he hreach
  obtain ⟨st, hend, hres⟩ := exists_ended hready hfuel
  refine ⟨_, hres, nodes_result, ?_, ?_, ?_, ?_⟩
  · intro iv hiv
    obtain ⟨f, hf, rfl⟩ := List.mem_map.mp hiv
    have hgrown := hend.inv.grown f hf
    exact ⟨hgrown.head_mem, hgrown.nodup, hgrown.sub⟩
  · intro v hv
    obtain ⟨f, hf, hvf⟩ := hend.covered hready hv
    refine ⟨f.1, ⟨List.mem_map_of_mem hf, hvf⟩, ?_⟩
    rintro iv ⟨hiv, hviv⟩
    obtain ⟨f', hf', rfl⟩ := List.mem_map.mp hiv
    exact congrArg Prod.fst (hend.eq_of_head hf' hf (hend.inv.disjoint f' hf' f hf v hviv hvf))
  · intro iv hiv v hv hne p hp
    obtain ⟨f, hf, rfl⟩ := List.mem_map.mp hiv
    exact ((hend.inv.grown f hf).inside v hv hne).2 p hp
  · intro iv hiv
    obtain ⟨f, hf, rfl⟩ := List.mem_map.mp hiv
    obtain ⟨st', queue, hat⟩ := hend.inv.formedAt f hf
    refine ⟨st', queue, hat.run, hat.heads, hat.unprocessed, ?_⟩
    intro iv' hiv' hne
    obtain ⟨f', hf', rfl⟩ := List.mem_map.mp hiv'
    have hhead := (hend.inv.grown f' hf').head_mem
    rw [hend.mem_sucs hf hf', hat.found]
    constructor
    · rintro ⟨_, _, hwait, p, hp, hpf⟩
      exact ⟨⟨p, hpf, Graph.mem_allPreds.mp hp⟩, hwait⟩
    · rintro ⟨⟨p, hpf, hp⟩, hwait⟩
      refine ⟨(hend.inv.grown f' hf').sub _ hhead, fun hmem => hne ?_, hwait, p,
        Graph.mem_allPreds.mpr hp, hpf⟩
      exact congrArg Prod.fst
        (hend.eq_of_head hf' hf (hend.inv.disjoint f' hf' f hf _ hhead hmem))

theorem loopGraph_allReachable : ∀ v ∈ loopGraph.nodes, loopGraph.Reachable v := by
  intro v hv
  have hlist : v ∈ [0, 1, 2, 3] := hv
  have hnodes : v = 0 ∨ v = 1 ∨ v = 2 ∨ v = 3 := by simpa using hlist
  rcases hnodes with rfl | rfl | rfl | rfl
  · exact ⟨0, rfl, [0], Walk.stay 0⟩
  · exact ⟨0, rfl, [0, 1], Walk.go (by decide) (Walk.stay 1)⟩
  · exact ⟨0, rfl, [0, 2], Walk.go (by decide) (Walk.stay 2)⟩
  · exact loopGraph_reachable

theorem intervals_partition_loopGraph :
    ∃ r, intervals 22 loopGraph.computeRpo = some r ∧
      ∀ v ∈ loopGraph.nodes, ∃! iv, iv ∈ r.intervals ∧ v ∈ iv.content := by
  obtain ⟨r, hr, _, _, hpart, _⟩ := @intervals_partition _ _ loopGraph 0 loopGraph_wellFormed rfl
    loopGraph_allReachable 22 (by decide)
  exact ⟨r, hr, hpart⟩

/-- Node 2 waits in the queue when the interval of node 1 is formed, and the edge
between the two intervals is left out. -/
theorem loopGraph_edge_missing :
    loopGraph.WellFormed ∧ (∀ v ∈ loopGraph.nodes, loopGraph.Reachable v) ∧
      ∃ r, intervals 22 loopGraph.computeRpo = some r ∧
        ∃ iv ∈ r.intervals, ∃ iv' ∈ r.intervals, iv ≠ iv' ∧
          (∃ v ∈ iv.content, iv'.head ∈ loopGraph.allSucs v) ∧ iv' ∉ r.graph.allSucs iv := by
  refine ⟨loopGraph_wellFormed, loopGraph_allReachable, ?_⟩
  have hsome : (intervals 22 loopGraph.computeRpo).isSome := by decide
  obtain ⟨r, hr⟩ := Option.isSome_iff_exists.mp hsome
  have hmissing : (intervals 22 loopGraph.computeRpo).any fun r =>
      r.intervals.any fun iv => r.intervals.any fun iv' => decide (iv ≠ iv') &&
        (iv.content.any fun v => decide (iv'.head ∈ loopGraph.allSucs v)) &&
        decide (iv' ∉ r.graph.allSucs iv) := by decide
  rw [hr] at hmissing
  refine ⟨r, hr, ?_⟩
  simpa [and_assoc] using hmissing

end Rpo

end Dexllm.Dad
