import Dexllm.Dad.ConditionTrees

/-!
The merged conditions go where the original tests go, as long as no exception
handler is a predecessor of a merged node.
-/

namespace Dexllm.Dad

open Adjacency BlockGraph

variable {I : Type}

/-- No predecessor of the merged nodes is hidden as a part of a handler. -/
def Merge.Visible (m : Merge I) : Prop :=
  ∀ p, m.before.Edge p m.node1 ∨ m.before.Edge p m.node2 → (m.before.heap p).inCatch = false

namespace Merging

variable {hash : HashOrder} {st : Merging I} {g : BlockGraph I} {m : NodeMap} {f : Fusion}
  {n node1 node2 new k : Nat} {isand isnot side : Bool} {l : List Nat}

section Names

/-- The value of a key after its merge. -/
def renamed (node1 node2 new y : Nat) : Nat := if y = node1 ∨ y = node2 then new else y

theorem lookup_renameValues : (renameValues m node1 node2 new).lookup k =
    (m.lookup k).map (renamed node1 node2 new) := by
  unfold renameValues
  suffices ∀ (l : List (Sigma fun _ : Nat => Nat)) (m' : NodeMap), l.NodupKeys →
      (∀ e ∈ l, m'.lookup e.1 = some e.2) →
      (l.foldl (fun m entry =>
        if entry.2 = node1 ∨ entry.2 = node2 then m.insert entry.1 new else m) m').lookup k =
        if k ∈ l.keys then (m'.lookup k).map (renamed node1 node2 new) else m'.lookup k by
    rw [this m.entries m m.nodupKeys fun e he => AList.mem_lookup_iff.mpr he]
    split
    · rfl
    · rename_i hk
      rw [AList.lookup_eq_none.mpr hk]
      rfl
  intro l
  induction l with
  | nil => exact fun m' _ _ => (if_neg List.not_mem_nil).symm
  | cons e l ih =>
    intro m' hnodup hl
    obtain ⟨he, hrest⟩ := List.nodupKeys_cons.mp hnodup
    have hvalue := hl e List.mem_cons_self
    let m'' := if e.2 = node1 ∨ e.2 = node2 then m'.insert e.1 new else m'
    have hat : m''.lookup e.1 = (m'.lookup e.1).map (renamed node1 node2 new) := by
      rw [hvalue]
      change (if e.2 = node1 ∨ e.2 = node2 then m'.insert e.1 new else m').lookup e.1 =
        some (if e.2 = node1 ∨ e.2 = node2 then new else e.2)
      split
      · exact AList.lookup_insert _
      · exact hvalue
    have hother (x : Nat) (hx : x ≠ e.1) : m''.lookup x = m'.lookup x := by
      change (if e.2 = node1 ∨ e.2 = node2 then m'.insert e.1 new else m').lookup x = _
      split
      · exact AList.lookup_insert_ne hx
      · rfl
    have hstep := ih m'' hrest (by
      intro e' he'
      have hne : e'.1 ≠ e.1 := fun heq => he (heq ▸ List.mem_keys_of_mem he')
      rw [hother e'.1 hne]
      exact hl e' (List.mem_cons_of_mem e he'))
    rw [List.foldl_cons, hstep, List.keys_cons]
    rcases eq_or_ne k e.1 with rfl | hne
    · rw [if_neg he, if_pos List.mem_cons_self, hat]
    · rw [hother k hne]
      exact if_congr ((or_iff_right hne).symm.trans List.mem_cons.symm) rfl rfl

/-- Where the node map sends a block after a merge. -/
theorem get_merge {x : Nat} (hkeys : ∀ k ∈ st.nodeMap, k ∉ st.graph.nodes)
    (h1 : node1 ∈ st.graph.nodes) (h2 : node2 ∈ st.graph.nodes) :
    (st.mergeShortCircuit hash node1 node2 isand isnot).nodeMap.get x =
      renamed node1 node2 st.graph.fresh (st.nodeMap.get x) := by
  have hmap : (st.mergeShortCircuit hash node1 node2 isand isnot).nodeMap =
      ((renameValues st.nodeMap node1 node2 st.graph.fresh).insert node1 st.graph.fresh).insert
        node2 st.graph.fresh := rfl
  have hown {y : Nat} (hy : y ∈ st.graph.nodes) : st.nodeMap.get y = y :=
    NodeMap.get_of_not_mem fun hkey => hkeys y hkey hy
  rw [hmap]
  rcases eq_or_ne x node2 with rfl | hne2
  · rw [hown h2]
    unfold NodeMap.get renamed
    rw [AList.lookup_insert, if_pos (Or.inr rfl)]
    rfl
  · rcases eq_or_ne x node1 with rfl | hne1
    · rw [hown h1]
      unfold NodeMap.get renamed
      rw [AList.lookup_insert_ne hne2, AList.lookup_insert, if_pos (Or.inl rfl)]
      rfl
    · unfold NodeMap.get
      rw [AList.lookup_insert_ne hne2, AList.lookup_insert_ne hne1, lookup_renameValues]
      cases st.nodeMap.lookup x with
      | some y => rfl
      | none =>
        unfold renamed
        rw [Option.map_none, Option.getD_none, if_neg]
        rintro (heq | heq)
        · exact hne1 heq
        · exact hne2 heq

end Names

/-- What the merges keep of the graph `g` they start from. -/
structure Meaning (g : BlockGraph I) (st : Merging I) : Prop where
  old : ∀ v ∈ st.graph.nodes, v ∈ g.nodes → (st.graph.heap v).cls = (g.heap v).cls
  follow : ∀ v ∈ st.graph.nodes, (st.graph.heap v).isCondBlock = true →
    ∀ side u, (st.graph.heap v).branch side = some u → st.graph.Edge v u
  total : ∀ v ∈ st.graph.nodes, (st.graph.heap v).isCondBlock = true →
    ∀ side, ∃ u, (st.graph.heap v).branch side = some u
  shows : ∀ v ∈ st.graph.nodes, (st.graph.heap v).isCondBlock = true →
    ∃ t, Shows st.graph.heap v t
  path : ∀ v ∈ st.graph.nodes, ∀ t, Shows st.graph.heap v t → ∀ valuation u,
    (st.graph.heap v).branch (t.eval valuation).2 = some u →
      ∃ n, Begins st.graph.heap u n ∧ TestPath g valuation t.first (t.eval valuation).1 n
  gone : ∀ v ∈ st.graph.nodes, (st.graph.heap v).cls = .shortCircuit → ∀ t,
    Shows st.graph.heap v t → ∀ valuation, ∀ x ∈ (t.eval valuation).1, x ∉ st.graph.nodes
  names : ∀ x ∈ g.nodes, st.nodeMap.get x ∈ st.graph.nodes
  edge : ∀ p x, g.Edge p x → st.nodeMap.get p ≠ st.nodeMap.get x →
    st.graph.Edge (st.nodeMap.get p) (st.nodeMap.get x) ∧
      Begins st.graph.heap (st.nodeMap.get x) x
  kept : ∀ p ∈ g.nodes, p ∈ st.graph.nodes → (g.heap p).isCondBlock = true → ∀ side x,
    (g.heap p).branch side = some x → (st.graph.heap p).branch side = some (st.nodeMap.get x)

section Step

/-- The block of a merge behaves as the first test followed by the second. -/
theorem path_node {heap : Nat → Block I} {t1 t2 : Tests} {valuation : Nat → Bool} {u : Nat}
    (hf : Fuses st.graph n f side)
    (hpath1 : ∀ u, (st.graph.heap n).branch (t1.eval valuation).2 = some u →
      ∃ e, Begins heap u e ∧ TestPath g valuation t1.first (t1.eval valuation).1 e)
    (hpath2 : ∀ u, (st.graph.heap f.node2).branch (t2.eval valuation).2 = some u →
      ∃ e, Begins heap u e ∧ TestPath g valuation t2.first (t2.eval valuation).1 e)
    (hbegins : Begins heap f.node2 t2.first)
    (hu : (st.graph.heap f.node2).branch
      ((Tests.node f.isand f.isnot t1 t2).eval valuation).2 = some u) :
    ∃ e, Begins heap u e ∧
      TestPath g valuation t1.first ((Tests.node f.isand f.isnot t1 t2).eval valuation).1 e := by
  have heval : (Tests.node f.isand f.isnot t1 t2).eval valuation =
      if ((t1.eval valuation).2 ^^ f.isnot) = f.isand then
        ((t1.eval valuation).1 ++ (t2.eval valuation).1, (t2.eval valuation).2)
      else ((t1.eval valuation).1, (t1.eval valuation).2 ^^ f.isnot) := rfl
  have hgoes : ((t1.eval valuation).2 ^^ f.isnot) = f.isand ↔ (t1.eval valuation).2 = side := by
    rw [hf.isnot]
    cases (t1.eval valuation).2 <;> cases side <;> cases f.isand <;> decide
  rw [heval] at hu ⊢
  split
  · rename_i hvalue
    rw [if_pos hvalue] at hu
    have hside := hgoes.mp hvalue
    obtain ⟨e, he, hfirst⟩ := hpath1 f.node2 (hside ▸ hf.goes)
    obtain ⟨e', he', hsecond⟩ := hpath2 u hu
    obtain rfl := he.unique hbegins
    exact ⟨e', he', hfirst.append hsecond⟩
  · rename_i hvalue
    rw [if_neg hvalue] at hu
    have hside : (t1.eval valuation).2 = !side := Bool.eq_not.mpr (mt hgoes.mpr hvalue)
    have hoperand : ((t1.eval valuation).2 ^^ f.isnot) = !f.isand := Bool.eq_not.mpr hvalue
    rw [hoperand, ← hf.shared, ← hside] at hu
    exact hpath1 u hu

/-- The state after a visit that merges. -/
def fused (hash : HashOrder) (st : Merging I) (n : Nat) (f : Fusion) : Merging I :=
  { st.mergeShortCircuit hash n f.node2 f.isand f.isnot with
    graph := (st.mergeShortCircuit hash n f.node2 f.isand f.isnot).graph.modify st.graph.fresh
      fun b => { b with trueBranch := f.trueBranch, falseBranch := f.falseBranch }
    change := true
    done := pushNew (st.mergeShortCircuit hash n f.node2 f.isand f.isnot).done n }

/-- What a merge without hidden predecessors does, in terms of the graph before. -/
structure Joined (st st' : Merging I) (n : Nat) (f : Fusion) : Prop where
  nodes : ∀ v, v ∈ st'.graph.nodes ↔
    (v ∈ st.graph.nodes ∧ v ≠ n ∧ v ≠ f.node2) ∨ v = st.graph.fresh
  block : ∀ v < st.graph.fresh, (st'.graph.heap v).cls = (st.graph.heap v).cls ∧
    (st'.graph.heap v).cond = (st.graph.heap v).cond
  newCls : (st'.graph.heap st.graph.fresh).cls = .shortCircuit
  newCond : (st'.graph.heap st.graph.fresh).cond = some ⟨n, f.node2, f.isand, f.isnot⟩
  newBranch : ∀ value, (st'.graph.heap st.graph.fresh).branch value =
    (st.graph.heap f.node2).branch value
  branch : ∀ v ∈ st.graph.nodes, v ≠ n → v ≠ f.node2 → (st.graph.heap v).isCondBlock = true →
    ∀ value, (st'.graph.heap v).branch value =
      ((st.graph.heap v).branch value).map (renamed n f.node2 st.graph.fresh)
  edge : ∀ a b, st.graph.Edge a b → ¬((a = n ∨ a = f.node2) ∧ (b = n ∨ b = f.node2)) →
    st'.graph.Edge (renamed n f.node2 st.graph.fresh a) (renamed n f.node2 st.graph.fresh b)
  get : ∀ x, st'.nodeMap.get x = renamed n f.node2 st.graph.fresh (st.nodeMap.get x)
  onePred : ∀ p, st.graph.Edge p f.node2 → p = n
  below : n < st.graph.fresh ∧ f.node2 < st.graph.fresh

theorem joined (hinv : MergeInv l st) (h : Meaning g st) (hf : Fuses st.graph n f side)
    (hn : n ∈ st.graph.nodes) (hnode2 : f.node2 ∈ st.graph.nodes)
    (hvisible : ∀ p, st.graph.Edge p n ∨ st.graph.Edge p f.node2 →
      (st.graph.heap p).inCatch = false) : Joined st (fused hash st n f) n f := by
  have hsound := hinv.sound
  have hkeys (k : Nat) (hk : k ∈ st.nodeMap) : k ∉ st.graph.nodes := (hinv.keys k hk).1
  have heffect : Effect st (st.mergeShortCircuit hash n f.node2 f.isand f.isnot) n f.node2 f.isand
      f.isnot := merge_effect hsound hkeys hf.ne hvisible
  obtain ⟨-, hnodes, -⟩ := @merge_spec I hash st n f.node2 f.isand f.isnot hsound hkeys
  have hget (x : Nat) := @get_merge I hash st n f.node2 f.isand f.isnot x hkeys hn hnode2
  have hlt {v : Nat} (hv : v ∈ st.graph.nodes) : v < st.graph.fresh := hsound.freshNodes v hv
  have hown {v : Nat} (hv : v ∈ st.graph.nodes) : st.nodeMap.get v = v :=
    NodeMap.get_of_not_mem fun hkey => hkeys v hkey hv
  have hheap (v : Nat) (hv : v ≠ st.graph.fresh) : (fused hash st n f).graph.heap v =
      (st.mergeShortCircuit hash n f.node2 f.isand f.isnot).graph.heap v := by
    unfold fused
    rw [heap_modify, if_neg hv]
  have hnew : (fused hash st n f).graph.heap st.graph.fresh =
      { (st.mergeShortCircuit hash n f.node2 f.isand f.isnot).graph.heap st.graph.fresh with
        trueBranch := f.trueBranch, falseBranch := f.falseBranch } := by
    unfold fused
    rw [heap_modify, if_pos rfl]
  have hgoes : st.graph.Edge n f.node2 := h.follow n hn hf.node1 side f.node2 hf.goes
  have honly (p : Nat) (hp : st.graph.Edge p f.node2) : p = n := by
    have hmem {q : Nat} (hq : st.graph.Edge q f.node2) : q ∈ st.graph.preds f.node2 := by
      unfold BlockGraph.preds
      rw [List.mem_filter, ← hsound.edges.mem]
      exact ⟨hq, by rw [hvisible q (Or.inr hq)]; rfl⟩
    obtain ⟨x, hx⟩ := List.length_eq_one_iff.mp hf.onePred
    have hpx := hmem hp
    have hnx := hmem hgoes
    rw [hx, List.mem_singleton] at hpx hnx
    rw [hpx, hnx]
  refine ⟨fun v => ?_, fun v hv => ?_, ?_, ?_, fun value => ?_, fun v hv hv1 hv2 hc value => ?_,
    fun a b hab hne => ?_, hget, honly, hlt hn, hlt hnode2⟩
  · have hmem : v ∈ (fused hash st n f).graph.nodes ↔
        v ∈ (st.graph.nodes.erase n).erase f.node2 ++ [st.graph.fresh] := by
      rw [← hnodes]
      exact Iff.rfl
    rw [hmem, List.mem_append, List.mem_singleton]
    exact or_congr (nodes_removed hsound) Iff.rfl
  · rw [hheap v (Nat.ne_of_lt hv)]
    exact heffect.block v (Nat.ne_of_lt hv)
  · rw [hnew]
    exact heffect.newCls
  · rw [hnew]
    exact heffect.newCond
  · rw [hnew]
    cases value
    · exact hf.falseBranch
    · exact hf.trueBranch
  · rw [hheap v (Nat.ne_of_lt (hlt hv)), heffect.branch v (Nat.ne_of_lt (hlt hv)) hc value]
    cases hbranch : (st.graph.heap v).branch value with
    | none =>
      rw [Option.map_none, Option.map_none]
      exact ite_self none
    | some u =>
      have hedge := h.follow v hv hc value u hbranch
      have hu := (hsound.edgeMem v u hedge).2
      rw [Option.map_some, Option.map_some, hget, hown hu]
      split
      · rfl
      · rename_i hnot
        unfold renamed
        rw [if_neg]
        rintro (rfl | rfl)
        · exact hnot ⟨hv1, hv2, Or.inl hedge⟩
        · exact hnot ⟨hv1, hv2, Or.inr hedge⟩
  · have hafter : (fused hash st n f).graph.Edge (renamed n f.node2 st.graph.fresh a)
        (renamed n f.node2 st.graph.fresh b) ↔
        (st.mergeShortCircuit hash n f.node2 f.isand f.isnot).graph.Edge
          (renamed n f.node2 st.graph.fresh a) (renamed n f.node2 st.graph.fresh b) := Iff.rfl
    rw [hafter, heffect.edge]
    unfold renamed
    by_cases ha' : a = n ∨ a = f.node2
    · have hb' : ¬(b = n ∨ b = f.node2) := fun hb' => hne ⟨ha', hb'⟩
      rw [if_pos ha', if_neg hb']
      refine Or.inr (Or.inr ⟨rfl, fun heq => hb' (Or.inl heq), fun heq => hb' (Or.inr heq), ?_⟩)
      rcases ha' with rfl | rfl
      · exact Or.inl hab
      · exact Or.inr hab
    · rw [if_neg ha']
      have ha1 : a ≠ n := fun heq => ha' (Or.inl heq)
      have ha2 : a ≠ f.node2 := fun heq => ha' (Or.inr heq)
      by_cases hb' : b = n ∨ b = f.node2
      · rw [if_pos hb']
        refine Or.inr (Or.inl ⟨ha1, ha2, ?_, rfl⟩)
        rcases hb' with rfl | rfl
        · exact Or.inl hab
        · exact Or.inr hab
      · rw [if_neg hb']
        exact Or.inl ⟨ha1, ha2, fun heq => hb' (Or.inl heq), fun heq => hb' (Or.inr heq), hab⟩

/-- A merge without hidden predecessors keeps the meaning. -/
theorem meaning_fused (hinv : MergeInv l st) (h : Meaning g st) (hf : Fuses st.graph n f side)
    (hn : n ∈ st.graph.nodes) (hnode2 : f.node2 ∈ st.graph.nodes)
    (hgnodes : ∀ v ∈ g.nodes, v < g.fresh) (hgfresh : g.fresh ≤ st.graph.fresh)
    (hvisible : ∀ p, st.graph.Edge p n ∨ st.graph.Edge p f.node2 →
      (st.graph.heap p).inCatch = false) : Meaning g (fused hash st n f) := by
  have hj : Joined st (fused hash st n f) n f := joined hinv h hf hn hnode2 hvisible
  have hlt {v : Nat} (hv : v ∈ st.graph.nodes) : v < st.graph.fresh := hinv.sound.freshNodes v hv
  have hback : ∀ v < st.graph.fresh, (st.graph.heap v).cls =
      ((fused hash st n f).graph.heap v).cls ∧ (st.graph.heap v).cond =
      ((fused hash st n f).graph.heap v).cond :=
    fun v hv => ⟨(hj.block v hv).1.symm, (hj.block v hv).2.symm⟩
  have hcond {v : Nat} (hv : v < st.graph.fresh)
      (hc : ((fused hash st n f).graph.heap v).isCondBlock = true) :
      (st.graph.heap v).isCondBlock = true := by
    unfold Block.isCondBlock at hc ⊢
    rw [← (hj.block v hv).1]
    exact hc
  obtain ⟨t1, ht1⟩ := h.shows n hn hf.node1
  obtain ⟨t2, ht2⟩ := h.shows f.node2 hnode2 hf.node2
  have hnewShows : Shows (fused hash st n f).graph.heap st.graph.fresh
      (.node f.isand f.isnot t1 t2) :=
    Shows.node hj.newCls hj.newCond hj.below.1 hj.below.2
      (ht1.congr hj.below.1 hj.block) (ht2.congr hj.below.2 hj.block)
  have hbegins {u e : Nat} (hu : u ∈ st.graph.nodes) (hne : u ≠ f.node2)
      (he : Begins st.graph.heap u e) :
      Begins (fused hash st n f).graph.heap (renamed n f.node2 st.graph.fresh u) e := by
    unfold renamed
    by_cases hun : u = n
    · rw [if_pos (Or.inl hun)]
      obtain rfl := he.unique (hun ▸ ht1.begins)
      exact hnewShows.begins
    · rw [if_neg]
      · exact he.congr (hlt hu) hj.block
      · rintro (heq | heq)
        · exact hun heq
        · exact hne heq
  have hrenamed {y : Nat} (hy : y ∈ st.graph.nodes) :
      renamed n f.node2 st.graph.fresh y ∈ (fused hash st n f).graph.nodes := by
    unfold renamed
    rw [hj.nodes]
    split
    · exact Or.inr rfl
    · rename_i hno
      exact Or.inl ⟨hy, fun heq => hno (Or.inl heq), fun heq => hno (Or.inr heq)⟩
  have htarget {v u : Nat} {value : Bool} (hv : v ∈ st.graph.nodes) (hvn : v ≠ n)
      (hc : (st.graph.heap v).isCondBlock = true)
      (hu : (st.graph.heap v).branch value = some u) : u ∈ st.graph.nodes ∧ u ≠ f.node2 := by
    have hedge := h.follow v hv hc value u hu
    exact ⟨(hinv.sound.edgeMem v u hedge).2, fun heq => hvn (hj.onePred v (heq ▸ hedge))⟩
  have hown : ∀ value u, (st.graph.heap f.node2).branch value = some u →
      u ∈ st.graph.nodes ∧ u ≠ f.node2 ∧ u ≠ n := by
    intro value u hu
    obtain ⟨hmem, hne⟩ := htarget hnode2 hf.ne hf.node2 hu
    exact ⟨hmem, hne, fun heq => hf.back value (heq ▸ hu)⟩
  have hfixed {u : Nat} (h1 : u ≠ n) (h2 : u ≠ f.node2) :
      renamed n f.node2 st.graph.fresh u = u := by
    unfold renamed
    rw [if_neg]
    rintro (heq | heq)
    · exact h1 heq
    · exact h2 heq
  constructor
  · intro v hv hvg
    rcases (hj.nodes v).mp hv with ⟨hv, -, -⟩ | rfl
    · exact (hj.block v (hlt hv)).1.trans (h.old v hv hvg)
    · exact absurd (hgnodes _ hvg) (Nat.not_lt.mpr hgfresh)
  · intro v hv hc value u hu
    rcases (hj.nodes v).mp hv with ⟨hv, hv1, hv2⟩ | rfl
    · have hc := hcond (hlt hv) hc
      rw [hj.branch v hv hv1 hv2 hc value] at hu
      obtain ⟨u', hu', rfl⟩ := Option.map_eq_some_iff.mp hu
      have hstep := hj.edge v u' (h.follow v hv hc value u' hu') fun hboth =>
        hboth.1.elim hv1 hv2
      rw [hfixed hv1 hv2] at hstep
      exact hstep
    · rw [hj.newBranch] at hu
      obtain ⟨hmem, hne2, hne1⟩ := hown value u hu
      have hstep := hj.edge f.node2 u (h.follow f.node2 hnode2 hf.node2 value u hu) fun hboth =>
        hboth.2.elim hne1 hne2
      rw [hfixed hne1 hne2] at hstep
      have hnode : renamed n f.node2 st.graph.fresh f.node2 = st.graph.fresh :=
        if_pos (Or.inr rfl)
      exact hnode ▸ hstep
  · intro v hv hc value
    rcases (hj.nodes v).mp hv with ⟨hv, hv1, hv2⟩ | rfl
    · have hc := hcond (hlt hv) hc
      obtain ⟨u, hu⟩ := h.total v hv hc value
      exact ⟨_, by rw [hj.branch v hv hv1 hv2 hc value, hu]; rfl⟩
    · obtain ⟨u, hu⟩ := h.total f.node2 hnode2 hf.node2 value
      exact ⟨u, (hj.newBranch value).trans hu⟩
  · intro v hv hc
    rcases (hj.nodes v).mp hv with ⟨hv, -, -⟩ | rfl
    · obtain ⟨t, ht⟩ := h.shows v hv (hcond (hlt hv) hc)
      exact ⟨t, ht.congr (hlt hv) hj.block⟩
    · exact ⟨_, hnewShows⟩
  · intro v hv t ht valuation u hu
    rcases (hj.nodes v).mp hv with ⟨hv, hv1, hv2⟩ | rfl
    · have ht := ht.congr (hlt hv) hback
      have hc : (st.graph.heap v).isCondBlock = true := by
        unfold Block.isCondBlock
        cases ht with
        | test hcls => rw [hcls]; rfl
        | node hcls => rw [hcls]; rfl
      rw [hj.branch v hv hv1 hv2 hc] at hu
      obtain ⟨u', hu', rfl⟩ := Option.map_eq_some_iff.mp hu
      obtain ⟨hmem, hne⟩ := htarget hv hv1 hc hu'
      obtain ⟨e, he, hpath⟩ := h.path v hv t ht valuation u' hu'
      exact ⟨e, hbegins hmem hne he, hpath⟩
    · obtain rfl := ht.unique hnewShows
      rw [hj.newBranch] at hu
      obtain ⟨hmem, hne2, hne1⟩ := hown _ u hu
      obtain ⟨e, he, hpath⟩ := path_node hf (h.path n hn t1 ht1 valuation)
        (h.path f.node2 hnode2 t2 ht2 valuation) ht2.begins hu
      exact ⟨e, he.congr (hlt hmem) hj.block, hpath⟩
  · intro v hv hcls t ht valuation x hx hmem
    have hold {w : Nat} {tw : Tests} (hw : w ∈ st.graph.nodes) (htw : Shows st.graph.heap w tw)
        (hxw : x ∈ (tw.eval valuation).1) : x < st.graph.fresh ∧ (x ∉ st.graph.nodes ∨ x = w) := by
      refine ⟨Nat.lt_of_le_of_lt (htw.eval_le valuation x hxw) (hlt hw), ?_⟩
      cases htw with
      | test _ => exact Or.inr (List.mem_singleton.mp hxw)
      | node hcls hcond h1 h2 ht1 ht2 =>
        exact Or.inl (h.gone w hw hcls _ (Shows.node hcls hcond h1 h2 ht1 ht2) valuation x hxw)
    rcases (hj.nodes v).mp hv with ⟨hv, -, -⟩ | rfl
    · have ht := ht.congr (hlt hv) hback
      have hcls := (hj.block v (hlt hv)).1.symm.trans hcls
      have hgone := h.gone v hv hcls t ht valuation x hx
      have hbelow := (hold hv ht hx).1
      rcases (hj.nodes x).mp hmem with ⟨hmem, -, -⟩ | rfl
      · exact hgone hmem
      · exact Nat.lt_irrefl _ hbelow
    · obtain rfl := ht.unique hnewShows
      have hparts : (x < st.graph.fresh ∧ (x ∉ st.graph.nodes ∨ x = n)) ∨
          (x < st.graph.fresh ∧ (x ∉ st.graph.nodes ∨ x = f.node2)) :=
        (Tests.mem_eval_node hx).imp (hold hn ht1) (hold hnode2 ht2)
      rcases (hj.nodes x).mp hmem with ⟨hmem, hne1, hne2⟩ | rfl
      · rcases hparts with ⟨-, hgone | heq⟩ | ⟨-, hgone | heq⟩
        · exact hgone hmem
        · exact hne1 heq
        · exact hgone hmem
        · exact hne2 heq
      · rcases hparts with ⟨hbelow, -⟩ | ⟨hbelow, -⟩
        · exact Nat.lt_irrefl _ hbelow
        · exact Nat.lt_irrefl _ hbelow
  · intro x hx
    rw [hj.get]
    exact hrenamed (h.names x hx)
  · intro p x hpx hne
    rw [hj.get, hj.get] at hne ⊢
    have hboth : ¬((st.nodeMap.get p = n ∨ st.nodeMap.get p = f.node2) ∧
        (st.nodeMap.get x = n ∨ st.nodeMap.get x = f.node2)) := by
      rintro ⟨hp, hx⟩
      unfold renamed at hne
      rw [if_pos hp, if_pos hx] at hne
      exact hne rfl
    obtain ⟨hedge, hbegin⟩ := h.edge p x hpx fun heq => hne (congrArg _ heq)
    have hlast : st.nodeMap.get x ≠ f.node2 := by
      intro heq
      exact hboth ⟨Or.inl (hj.onePred _ (heq ▸ hedge)), Or.inr heq⟩
    exact ⟨hj.edge _ _ hedge hboth, hbegins (hinv.sound.edgeMem _ _ hedge).2 hlast hbegin⟩
  · intro p hpg hp hc value x hx
    rcases (hj.nodes p).mp hp with ⟨hp, hp1, hp2⟩ | rfl
    · have hc' : (st.graph.heap p).isCondBlock = true := by
        unfold Block.isCondBlock at hc ⊢
        rw [h.old p hp hpg]
        exact hc
      rw [hj.branch p hp hp1 hp2 hc', h.kept p hpg hp hc value x hx, hj.get]
      rfl
    · exact absurd (hgnodes _ hpg) (Nat.not_lt.mpr hgfresh)

end Step

section Run

/-- What the visits keep, given that no merge had a hidden predecessor. -/
structure Follows (g : BlockGraph I) (st : Merging I) : Prop where
  fresh : g.fresh ≤ st.graph.fresh
  before : ∀ m ∈ st.merges, m.before.Sound
  meaning : (∀ m ∈ st.merges, m.Visible) → Meaning g st

theorem visit_fuse (h : visitOf st.graph st.done n = .fuse f) :
    visit hash st n = fused hash st n f := by
  unfold visit
  rw [h]
  rfl

theorem follows_visit (hgnodes : ∀ v ∈ g.nodes, v < g.fresh) (hinv : MergeInv (n :: l) st)
    (h : Follows g st) : Follows g (visit hash st n) := by
  cases hvisit : visitOf st.graph st.done n with
  | skip =>
    have hstep : visit hash st n = st := by
      unfold visit
      rw [hvisit]
    exact hstep.symm ▸ h
  | keep =>
    have hstep : visit hash st n = { st with done := pushNew st.done n } := by
      unfold visit
      rw [hvisit]
    rw [hstep]
    exact ⟨h.fresh, h.before, fun hvisible => { h.meaning hvisible with }⟩
  | fuse f =>
    obtain ⟨hdone, hne, hlen⟩ := fuse_spec hvisit
    obtain ⟨side, hf⟩ := fuses_of_visit hvisit
    have hn := (hinv.live n List.mem_cons_self).resolve_right hdone
    obtain ⟨p, hp⟩ := List.length_eq_one_iff.mp hlen
    have hnode2 : f.node2 ∈ st.graph.nodes :=
      (hinv.sound.preds_mem (hp ▸ List.mem_singleton_self p : p ∈ st.graph.preds f.node2)).2
    have hfresh : (fused hash st n f).graph.fresh = st.graph.fresh + 1 :=
      (@merge_spec I hash st n f.node2 f.isand f.isnot hinv.sound
        fun k hk => (hinv.keys k hk).1).2.2
    have hmerges : (fused hash st n f).merges = st.merges ++ [⟨st.graph, n, f.node2,
        (st.mergeShortCircuit hash n f.node2 f.isand f.isnot).graph⟩] := rfl
    rw [visit_fuse hvisit]
    refine ⟨?_, fun m hm => ?_, fun hvisible => ?_⟩
    · rw [hfresh]
      exact Nat.le_succ_of_le h.fresh
    · rcases List.mem_append.mp (hmerges ▸ hm) with hm | hm
      · exact h.before m hm
      · rw [List.mem_singleton.mp hm]
        exact hinv.sound
    · rw [hmerges] at hvisible
      have hbefore := h.meaning fun m hm => hvisible m (List.mem_append_left _ hm)
      have hlast := hvisible _ (List.mem_append_right _ (List.mem_singleton_self _))
      exact meaning_fused hinv hbefore hf hn hnode2 hgnodes h.fresh hlast

theorem follows_visits (hgnodes : ∀ v ∈ g.nodes, v < g.fresh) (hinv : MergeInv l st)
    (h : Follows g st) : Follows g (l.foldl (visit hash) st) := by
  induction l generalizing st with
  | nil => exact h
  | cons n l ih => exact ih (visit_spec hinv).1 (follows_visit hgnodes hinv h)

theorem meaning_computeRpo (h : Meaning g st) :
    Meaning g { st with graph := st.graph.computeRpo } := by
  have hsame (v : Nat) : ∀ w < v + 1, (st.graph.heap w).cls = (st.graph.computeRpo.heap w).cls ∧
      (st.graph.heap w).cond = (st.graph.computeRpo.heap w).cond := fun w _ => ⟨rfl, rfl⟩
  have hback (v : Nat) : ∀ w < v + 1, (st.graph.computeRpo.heap w).cls = (st.graph.heap w).cls ∧
      (st.graph.computeRpo.heap w).cond = (st.graph.heap w).cond := fun w _ => ⟨rfl, rfl⟩
  have hshows {v : Nat} {t : Tests} (ht : Shows st.graph.computeRpo.heap v t) :
      Shows st.graph.heap v t := ht.congr (Nat.lt_succ_self v) (hsame v)
  have hbegins {v e : Nat} (he : Begins st.graph.heap v e) :
      Begins st.graph.computeRpo.heap v e := he.congr (Nat.lt_succ_self v) (hback v)
  refine ⟨h.old, h.follow, h.total, fun v hv hc => ?_, fun v hv t ht valuation u hu => ?_,
    fun v hv hcls t ht => h.gone v hv hcls t (hshows ht), h.names, fun p x hpx hne => ?_, h.kept⟩
  · obtain ⟨t, ht⟩ := h.shows v hv hc
    exact ⟨t, ht.congr (Nat.lt_succ_self v) (hback v)⟩
  · obtain ⟨e, he, hpath⟩ := h.path v hv t (hshows ht) valuation u hu
    exact ⟨e, hbegins he, hpath⟩
  · exact (h.edge p x hpx hne).imp_right hbegins

theorem follows_rounds (hgnodes : ∀ v ∈ g.nodes, v < g.fresh) {left ran : Nat}
    (hinv : MergeInv [] st) (h : Follows g st) :
    Follows g (rounds hash left ran st).state := by
  induction left generalizing ran st with
  | zero => exact h
  | succ left ih =>
    have hstart : MergeInv st.graph.postOrder { st with change := false, done := [] } :=
      { hinv with live := fun n hn => Or.inl (hinv.sound.postOrder_mem hn) }
    have hround : Follows g (round hash st) :=
      follows_visits hgnodes hstart ⟨h.fresh, h.before, fun hv => { h.meaning hv with }⟩
    obtain ⟨hinv', -⟩ := @round_spec I hash st hinv
    unfold rounds
    dsimp only
    split
    · apply ih
      · exact { hinv' with sound := hinv'.sound.computeRpo }
      · exact ⟨hround.fresh, hround.before, fun hv => meaning_computeRpo (hround.meaning hv)⟩
    · exact hround

end Run

end Merging

/-- From `v` the tests `tests` of `g` lead through nodes that are gone to the node
`w` that is left. -/
inductive LeadsOut (g : BlockGraph I) (left : List Nat) (valuation : Nat → Bool) :
    Nat → List Nat → Nat → Prop
  | stop {w : Nat} : w ∈ left → LeadsOut g left valuation w [] w
  | step {v u w : Nat} {tests : List Nat} : v ∉ left →
      (g.heap v).branch (valuation v) = some u → LeadsOut g left valuation u tests w →
      LeadsOut g left valuation v (v :: tests) w

/-- From `v` the conditions of the merged blocks evaluate `tests` and lead to `w`,
which is not merged. -/
inductive EvaluatesTo (g : BlockGraph I) (valuation : Nat → Bool) :
    Nat → List Nat → Nat → Prop
  | stop {w : Nat} : (g.heap w).cls ≠ .shortCircuit → EvaluatesTo g valuation w [] w
  | step {v u w : Nat} {t : Tests} {tests : List Nat} : (g.heap v).cls = .shortCircuit →
      Shows g.heap v t → (g.heap v).branch (t.eval valuation).2 = some u →
      EvaluatesTo g valuation u tests w →
      EvaluatesTo g valuation v ((t.eval valuation).1 ++ tests) w

theorem TestPath.leadsOut {g : BlockGraph I} {left : List Nat} {valuation : Nat → Bool}
    {v e w : Nat} {l tests : List Nat} (h : TestPath g valuation v l e) (hl : ∀ x ∈ l, x ∉ left) :
    LeadsOut g left valuation v (l ++ tests) w ↔ LeadsOut g left valuation e tests w := by
  induction h with
  | nil => exact Iff.rfl
  | @cons v u _ l hside _ ih =>
    have hrest := ih fun x hx => hl x (List.mem_cons_of_mem v hx)
    have hv : v ∉ left := hl v List.mem_cons_self
    rw [← hrest]
    constructor
    · intro hout
      cases hout with
      | step _ hside' hout =>
        rw [Option.some.inj (hside.symm.trans hside')]
        exact hout
    · exact fun hout => LeadsOut.step hv hside hout

/-- Whoever leaves by tests that are all gone first follows the path of them. -/
theorem TestPath.initial {g : BlockGraph I} {left : List Nat} {valuation : Nat → Bool}
    {v e w : Nat} {l tests : List Nat} (h : TestPath g valuation v l e) (hl : ∀ x ∈ l, x ∉ left)
    (hout : LeadsOut g left valuation v tests w) : ∃ rest, tests = l ++ rest := by
  induction h generalizing tests with
  | nil => exact ⟨tests, rfl⟩
  | @cons v u _ l hside _ ih =>
    cases hout with
    | stop hw => exact absurd hw (hl _ List.mem_cons_self)
    | step _ hside' hout =>
      obtain rfl := Option.some.inj (hside.symm.trans hside')
      obtain ⟨rest, rfl⟩ := ih (fun x hx => hl x (List.mem_cons_of_mem v hx)) hout
      exact ⟨rest, rfl⟩

theorem Tests.eval_ne_nil (t : Tests) (valuation : Nat → Bool) : (t.eval valuation).1 ≠ [] := by
  induction t with
  | test v => exact List.cons_ne_nil v []
  | node isand isnot t1 t2 ih1 _ =>
    have heval : (Tests.node isand isnot t1 t2).eval valuation =
        if ((t1.eval valuation).2 ^^ isnot) = isand then
          ((t1.eval valuation).1 ++ (t2.eval valuation).1, (t2.eval valuation).2)
        else ((t1.eval valuation).1, (t1.eval valuation).2 ^^ isnot) := rfl
    rw [heval]
    split
    · exact fun hnil => ih1 (List.append_eq_nil_iff.mp hnil).1
    · exact ih1

/-- The graph that is left goes where `g` goes: along the edges into merged nodes,
along the branches of the tests that stay, and through the merged conditions, which
evaluate the tests that `g` makes, in their order. -/
structure KeepsFlow (g : BlockGraph I) (r : Merging I) : Prop where
  names : ∀ x ∈ g.nodes, r.nodeMap.get x ∈ r.graph.nodes
  edge : ∀ p x, g.Edge p x → r.nodeMap.get p ≠ r.nodeMap.get x →
    r.graph.Edge (r.nodeMap.get p) (r.nodeMap.get x) ∧ Begins r.graph.heap (r.nodeMap.get x) x
  branch : ∀ p ∈ g.nodes, p ∈ r.graph.nodes → (g.heap p).isCondBlock = true → ∀ side x,
    (g.heap p).branch side = some x → (r.graph.heap p).branch side = some (r.nodeMap.get x)
  flow : ∀ v ∈ r.graph.nodes, ∀ e, Begins r.graph.heap v e → ∀ valuation tests w,
    EvaluatesTo r.graph valuation v tests w ↔ LeadsOut g r.graph.nodes valuation e tests w

/-- What Construct and the passes before leave: the two branches of a condition are
there and are normal successors, and no condition is merged yet. -/
structure Branching (g : BlockGraph I) : Prop where
  plain : ∀ v ∈ g.nodes, (g.heap v).cls ≠ .shortCircuit
  total : ∀ v ∈ g.nodes, (g.heap v).isCondBlock = true → ∀ side, ∃ u,
    (g.heap v).branch side = some u
  follow : ∀ v ∈ g.nodes, (g.heap v).isCondBlock = true → ∀ side u,
    (g.heap v).branch side = some u → g.Edge v u

namespace Merging

variable {st : Merging I} {g : BlockGraph I} {valuation : Nat → Bool} {v e w : Nat}
  {t : Tests} {tests : List Nat}

theorem isCondBlock_of_shows (h : Shows g.heap v t) : (g.heap v).isCondBlock = true := by
  unfold Block.isCondBlock
  cases h with
  | test hcls => rw [hcls]; rfl
  | node hcls => rw [hcls]; rfl

theorem meaning_start (hg : g.Sound) (hb : Branching g) (idom : AList fun _ : Nat => Option Nat) :
    Meaning g ⟨g, idom, ∅, [], true, []⟩ := by
  have hget (x : Nat) : NodeMap.get ∅ x = x := NodeMap.get_of_not_mem (AList.notMem_empty x)
  have hatom {v : Nat} {t : Tests} (hv : v ∈ g.nodes) (ht : Shows g.heap v t) : t = .test v := by
    cases ht with
    | test => rfl
    | node hcls => exact absurd hcls (hb.plain v hv)
  refine ⟨fun _ _ _ => rfl, hb.follow, hb.total, fun v hv hc => ?_, fun v hv t ht ρ u hu => ?_,
    fun v hv hcls => absurd hcls (hb.plain v hv), fun x hx => ?_, fun p x hpx _ => ?_,
    fun p _ _ _ side x hx => ?_⟩
  · refine ⟨.test v, Shows.test ?_⟩
    unfold Block.isCondBlock at hc
    exact (of_decide_eq_true hc).resolve_right (hb.plain v hv)
  · obtain rfl := hatom hv ht
    have hmem := (hg.edgeMem v u (hb.follow v hv (isCondBlock_of_shows ht) _ u hu)).2
    exact ⟨u, Begins.block (hb.plain u hmem), TestPath.cons hu TestPath.nil⟩
  · exact (hget x).symm ▸ hx
  · rw [hget, hget]
    exact ⟨hpx, Begins.block (hb.plain x (hg.edgeMem p x hpx).2)⟩
  · rw [hget]
    exact hx

theorem leadsOut_of_evaluatesTo (hinv : MergeInv [] st) (h : Meaning g st)
    (hv : v ∈ st.graph.nodes) (he : Begins st.graph.heap v e)
    (heval : EvaluatesTo st.graph valuation v tests w) :
    LeadsOut g st.graph.nodes valuation e tests w := by
  induction heval generalizing e with
  | stop hcls =>
    cases he with
    | block => exact LeadsOut.stop hv
    | merged hcls' => exact absurd hcls' hcls
  | @step v u w t tests hcls ht hu _ ih =>
    obtain rfl := he.unique ht.begins
    obtain ⟨e', he', hpath⟩ := h.path v hv t ht valuation u hu
    have hedge := h.follow v hv (isCondBlock_of_shows ht) _ u hu
    exact (hpath.leadsOut (h.gone v hv hcls t ht valuation)).mpr
      (ih (hinv.sound.edgeMem v u hedge).2 he')

theorem evaluatesTo_of_leadsOut (hinv : MergeInv [] st) (h : Meaning g st)
    (hv : v ∈ st.graph.nodes) (he : Begins st.graph.heap v e)
    (hout : LeadsOut g st.graph.nodes valuation e tests w) :
    EvaluatesTo st.graph valuation v tests w := by
  induction hlen : tests.length using Nat.strong_induction_on generalizing v e tests with
  | _ len ih =>
    cases he with
    | block hcls =>
      cases hout with
      | stop => exact EvaluatesTo.stop hcls
      | step hgone => exact absurd hv hgone
    | @merged t hcls ht =>
      obtain ⟨u, hu⟩ := h.total v hv (isCondBlock_of_shows ht) (t.eval valuation).2
      obtain ⟨e', he', hpath⟩ := h.path v hv t ht valuation u hu
      have hgone := h.gone v hv hcls t ht valuation
      obtain ⟨rest, rfl⟩ := hpath.initial hgone hout
      have hrest := (hpath.leadsOut hgone).mp hout
      have hedge := h.follow v hv (isCondBlock_of_shows ht) _ u hu
      have hpos := List.length_pos_of_ne_nil (t.eval_ne_nil valuation)
      rw [List.length_append] at hlen
      exact EvaluatesTo.step hcls ht hu
        (ih rest.length (by omega) (hinv.sound.edgeMem v u hedge).2 he' hrest rfl)

end Merging

open Merging

/-- A run of `ShortCircuitStruct` whose merges have no hidden predecessor keeps the
control flow. -/
theorem short_circuit_struct_keeps_flow {g : BlockGraph I} (hg : g.Sound) (hb : Branching g)
    (hash : HashOrder) (idom : AList fun _ : Nat => Option Nat)
    (hvisible : ∀ m ∈ (shortCircuitStruct hash g idom).state.merges, m.Visible) :
    KeepsFlow g (shortCircuitStruct hash g idom).state := by
  obtain ⟨hinv, -⟩ := shortCircuitStruct_spec hg hash idom
  have hfollows : Follows g (shortCircuitStruct hash g idom).state :=
    follows_rounds hg.freshNodes (mergeInv_start hg idom)
      ⟨Nat.le_refl _, fun m hm => absurd hm List.not_mem_nil,
        fun _ => meaning_start hg hb idom⟩
  have h := hfollows.meaning hvisible
  exact ⟨h.names, h.edge, h.kept, fun v hv e he valuation tests w =>
    ⟨leadsOut_of_evaluatesTo hinv h hv he, evaluatesTo_of_leadsOut hinv h hv he⟩⟩

/-- A merge is visible where no block of its graph is a part of a handler. -/
theorem Merge.visible_of_all {m : Merge I} (h : m.before.Sound)
    (hall : (m.before.nodes.all fun p => !(m.before.heap p).inCatch) = true) : m.Visible := by
  intro p hp
  have hmem : p ∈ m.before.nodes := by
    rcases hp with hp | hp
    · exact (h.edgeMem p m.node1 hp).1
    · exact (h.edgeMem p m.node2 hp).1
  have hp := List.all_eq_true.mp hall p hmem
  rwa [Bool.not_eq_true'] at hp

theorem Branching.of_checks {g : BlockGraph I}
    (hplain : ∀ v ∈ g.nodes, (g.heap v).cls ≠ .shortCircuit)
    (hall : ∀ v ∈ g.nodes, (g.heap v).isCondBlock = true → ∀ side,
      ((g.heap v).branch side).isSome = true ∧ ∀ u ∈ (g.heap v).branch side, g.Edge v u) :
    Branching g :=
  ⟨hplain, fun v hv hc side => Option.isSome_iff_exists.mp (hall v hv hc side).1,
    fun v hv hc side => (hall v hv hc side).2⟩

theorem nestedIf_branching : Branching nestedIf := .of_checks (by decide) (by decide)

set_option maxRecDepth 20000 in
theorem short_circuit_struct_keeps_flow_nestedIf :
    KeepsFlow nestedIf (shortCircuitStruct .inserted nestedIf ∅).state := by
  apply short_circuit_struct_keeps_flow nestedIf_sound nestedIf_branching .inserted ∅
  have hfollows : Follows nestedIf (shortCircuitStruct .inserted nestedIf ∅).state :=
    follows_rounds nestedIf_sound.freshNodes (mergeInv_start nestedIf_sound ∅)
      ⟨Nat.le_refl _, fun m hm => absurd hm List.not_mem_nil,
        fun _ => meaning_start nestedIf_sound nestedIf_branching ∅⟩
  have hall : ((shortCircuitStruct .inserted nestedIf ∅).state.merges.all fun m =>
      m.before.nodes.all fun p => !(m.before.heap p).inCatch) = true := by decide
  intro m hm
  exact Merge.visible_of_all (hfollows.before m hm) (List.all_eq_true.mp hall m hm)

/-- The nested condition with a handler that goes on at its second test. -/
def resumedIf : BlockGraph Nat :=
  let outer : Block Nat :=
    { cls := .cond, type := .cond, ins := [1], trueBranch := some 1, falseBranch := some 2 }
  let inner : Block Nat :=
    { cls := .cond, type := .cond, ins := [2], trueBranch := some 3, falseBranch := some 2 }
  let ret : Block Nat := { cls := .ret, type := .ret, ins := [3] }
  let handler : Block Nat := { cls := .statement, type := .stmt, ins := [4], inCatch := true }
  let g := (((({} : BlockGraph Nat).makeNode outer).makeNode inner).makeNode ret).makeNode ret
  let g := (((g.addEdge 0 1).addEdge 0 2).addEdge 1 3).addEdge 1 2
  { ((g.makeNode handler).addCatchEdge 0 4).addEdge 4 1 with entry := some 0 }

theorem resumedIf_sound : resumedIf.Sound := by
  apply Sound.setEntry
  · have hempty : ({} : BlockGraph Nat).Sound := sound_empty
    apply Sound.addEdge _ (by decide) (by decide)
    apply Sound.addCatchEdge _ (by decide) (by decide)
    apply Sound.makeNode
    apply Sound.addEdge _ (by decide) (by decide)
    apply Sound.addEdge _ (by decide) (by decide)
    apply Sound.addEdge _ (by decide) (by decide)
    apply Sound.addEdge _ (by decide) (by decide)
    exact hempty.makeNode.makeNode.makeNode.makeNode
  · decide

set_option maxRecDepth 20000 in
/-- The edge from the handler to the second test is lost. -/
theorem resumedIf_loses_edge : ¬∀ g : BlockGraph Nat, g.Sound → Branching g →
    ∀ (hash : HashOrder) (idom : AList fun _ : Nat => Option Nat),
      KeepsFlow g (shortCircuitStruct hash g idom).state := by
  intro hall
  have hbranching : Branching resumedIf := .of_checks (by decide) (by decide)
  have hkeeps := hall resumedIf resumedIf_sound hbranching .inserted ∅
  have hedge : resumedIf.Edge 4 1 := by decide
  have hlost : (shortCircuitStruct .inserted resumedIf ∅).state.nodeMap.get 4 ≠
        (shortCircuitStruct .inserted resumedIf ∅).state.nodeMap.get 1 ∧
      ¬ (shortCircuitStruct .inserted resumedIf ∅).state.graph.Edge
        ((shortCircuitStruct .inserted resumedIf ∅).state.nodeMap.get 4)
        ((shortCircuitStruct .inserted resumedIf ∅).state.nodeMap.get 1) := by
    decide
  exact hlost.2 (hkeeps.edge 4 1 hedge hlost.1).1

end Dexllm.Dad
