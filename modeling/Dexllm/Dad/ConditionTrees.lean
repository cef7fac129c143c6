import Dexllm.Dad.ShortCircuit

/-!
The conditions of short-circuit blocks as trees of tests, their evaluation from
left to right, and the exact effect of one merge on the blocks and edges.
-/

namespace Dexllm.Dad

open Adjacency BlockGraph

variable {I : Type}

/-- A condition of tests, each named by its block. -/
inductive Tests
  | test (v : Nat)
  | node (isand isnot : Bool) (cond1 cond2 : Tests)
  deriving DecidableEq, Repr

namespace Tests

/-- The tests that are evaluated, from left to right, and the value. -/
def eval (valuation : Nat → Bool) : Tests → List Nat × Bool
  | test v => ([v], valuation v)
  | node isand isnot cond1 cond2 =>
    let (tests1, value1) := cond1.eval valuation
    let operand := value1 ^^ isnot
    if operand = isand then
      let (tests2, value2) := cond2.eval valuation
      (tests1 ++ tests2, value2)
    else (tests1, operand)

/-- The test that is evaluated first. -/
def first : Tests → Nat
  | test v => v
  | node _ _ cond1 _ => cond1.first

end Tests

/-- The condition of a block. The operands of a merge are older blocks. -/
inductive Shows (heap : Nat → Block I) : Nat → Tests → Prop
  | test {v : Nat} : (heap v).cls = .cond → Shows heap v (.test v)
  | node {v : Nat} {c : Condition} {t1 t2 : Tests} : (heap v).cls = .shortCircuit →
      (heap v).cond = some c → c.cond1 < v → c.cond2 < v → Shows heap c.cond1 t1 →
      Shows heap c.cond2 t2 → Shows heap v (.node c.isand c.isnot t1 t2)

/-- Control enters a block at `n`: at the block itself, or at the first test of a
merged condition. -/
inductive Begins (heap : Nat → Block I) : Nat → Nat → Prop
  | block {v : Nat} : (heap v).cls ≠ .shortCircuit → Begins heap v v
  | merged {v : Nat} {t : Tests} : (heap v).cls = .shortCircuit → Shows heap v t →
      Begins heap v t.first

variable {heap heap' : Nat → Block I} {v k n : Nat} {t t' : Tests}

theorem Shows.unique (h : Shows heap v t) (h' : Shows heap v t') : t = t' := by
  induction h generalizing t' with
  | test hcls =>
    cases h' with
    | test => rfl
    | node hcls' => rw [hcls] at hcls'; cases hcls'
  | node hcls hcond _ _ _ _ ih1 ih2 =>
    cases h' with
    | test hcls' => rw [hcls] at hcls'; cases hcls'
    | node _ hcond' _ _ h1 h2 =>
      obtain rfl := Option.some.inj (hcond.symm.trans hcond')
      rw [ih1 h1, ih2 h2]

theorem Begins.unique (h : Begins heap v n) (h' : Begins heap v k) : n = k := by
  cases h with
  | block hne =>
    cases h' with
    | block => rfl
    | merged hcls => exact absurd hcls hne
  | merged hcls ht =>
    cases h' with
    | block hne => exact absurd hcls hne
    | merged _ ht' => rw [ht.unique ht']

theorem Shows.begins (h : Shows heap v t) : Begins heap v t.first := by
  cases h with
  | test hcls =>
    apply Begins.block
    rw [hcls]
    decide
  | node hcls hcond h1 h2 ht1 ht2 =>
    exact Begins.merged hcls (Shows.node hcls hcond h1 h2 ht1 ht2)

theorem Tests.mem_eval_node {isand isnot : Bool} {t1 t2 : Tests} {valuation : Nat → Bool}
    {x : Nat} (h : x ∈ ((Tests.node isand isnot t1 t2).eval valuation).1) :
    x ∈ (t1.eval valuation).1 ∨ x ∈ (t2.eval valuation).1 := by
  have heval : (Tests.node isand isnot t1 t2).eval valuation =
      if ((t1.eval valuation).2 ^^ isnot) = isand then
        ((t1.eval valuation).1 ++ (t2.eval valuation).1, (t2.eval valuation).2)
      else ((t1.eval valuation).1, (t1.eval valuation).2 ^^ isnot) := rfl
  rw [heval] at h
  split at h
  · exact List.mem_append.mp h
  · exact Or.inl h

theorem Shows.eval_le (h : Shows heap v t) (valuation : Nat → Bool) :
    ∀ x ∈ (t.eval valuation).1, x ≤ v := by
  induction h with
  | test _ => exact fun x hx => Nat.le_of_eq (List.mem_singleton.mp hx)
  | node _ _ h1 h2 _ _ ih1 ih2 =>
    intro x hx
    rcases Tests.mem_eval_node hx with hx | hx
    · exact (ih1 x hx).trans h1.le
    · exact (ih2 x hx).trans h2.le

/-- The condition of a block depends on that block and older ones. -/
theorem Shows.congr (h : Shows heap v t) (hv : v < k)
    (hsame : ∀ w < k, (heap' w).cls = (heap w).cls ∧ (heap' w).cond = (heap w).cond) :
    Shows heap' v t := by
  induction h with
  | test hcls => exact Shows.test ((hsame _ hv).1.trans hcls)
  | node hcls hcond h1 h2 _ _ ih1 ih2 =>
    exact Shows.node ((hsame _ hv).1.trans hcls) ((hsame _ hv).2.trans hcond) h1 h2
      (ih1 (h1.trans hv)) (ih2 (h2.trans hv))

theorem Begins.congr (h : Begins heap v n) (hv : v < k)
    (hsame : ∀ w < k, (heap' w).cls = (heap w).cls ∧ (heap' w).cond = (heap w).cond) :
    Begins heap' v n := by
  cases h with
  | block hne => exact Begins.block (by rw [(hsame _ hv).1]; exact hne)
  | merged hcls ht => exact Begins.merged ((hsame _ hv).1.trans hcls) (ht.congr hv hsame)

/-- A path of `g` through tests, each of which goes to its branch under the
valuation. -/
inductive TestPath (g : BlockGraph I) (valuation : Nat → Bool) : Nat → List Nat → Nat → Prop
  | nil {v : Nat} : TestPath g valuation v [] v
  | cons {v u w : Nat} {l : List Nat} : (g.heap v).branch (valuation v) = some u →
      TestPath g valuation u l w → TestPath g valuation v (v :: l) w

theorem TestPath.append {g : BlockGraph I} {valuation : Nat → Bool} {v u w : Nat} {l l' : List Nat}
    (h : TestPath g valuation v l u) (h' : TestPath g valuation u l' w) :
    TestPath g valuation v (l ++ l') w := by
  induction h with
  | nil => exact h'
  | cons hside _ ih => exact TestPath.cons hside (ih h')

namespace Merging

variable {hash : HashOrder} {st : Merging I} {g : BlockGraph I} {m : NodeMap} {f : Fusion}
  {node1 node2 new : Nat} {isand isnot : Bool} {l done : List Nat}

section Fusions

/-- The two tests of a merge share the target that the first goes to when it does
not go to the second. -/
structure Fuses (g : BlockGraph I) (n : Nat) (f : Fusion) (side : Bool) : Prop where
  node1 : (g.heap n).isCondBlock = true
  node2 : (g.heap f.node2).isCondBlock = true
  ne : f.node2 ≠ n
  onePred : (g.preds f.node2).length = 1
  goes : (g.heap n).branch side = some f.node2
  shared : (g.heap n).branch (!side) = (g.heap f.node2).branch (!f.isand)
  isnot : f.isnot = (side != f.isand)
  back : ∀ value, (g.heap f.node2).branch value ≠ some n
  loop : ∀ value, (g.heap n).branch value ≠ some n
  trueBranch : f.trueBranch = (g.heap f.node2).trueBranch
  falseBranch : f.falseBranch = (g.heap f.node2).falseBranch

theorem onePred_eq_some {branch : Option Nat} {b : Nat} (h : onePred g branch = some b) :
    branch = some b ∧ (g.heap b).isCondBlock = true ∧ (g.preds b).length = 1 := by
  unfold onePred condBlock at h
  obtain ⟨hb, hlen⟩ := Option.filter_eq_some_iff.mp h
  cases branch with
  | none => cases hb
  | some w =>
    dsimp only at hb
    split at hb
    · rename_i hcond
      obtain rfl := Option.some.inj hb
      exact ⟨rfl, hcond, of_decide_eq_true hlen⟩
    · cases hb

theorem fuses_of_visit (h : visitOf g done n = .fuse f) : ∃ side, Fuses g n f side := by
  have hsides {b : Block I} {v : Nat} (hno : ¬(b.trueBranch = some v ∨ b.falseBranch = some v))
      (value : Bool) : b.branch value ≠ some v := by
    cases value
    · exact fun heq => hno (Or.inr heq)
    · exact fun heq => hno (Or.inl heq)
  unfold visitOf at h
  dsimp only at h
  split at h
  · cases h
  · rename_i hkept
    have hcond : (g.heap n).isCondBlock = true := by
      by_contra hnot
      exact hkept (Or.inl hnot)
    split at h
    · cases h
    · rename_i hself
      split at h
      · rename_i b hb
        obtain ⟨hbranch, hbcond, hlen⟩ := onePred_eq_some hb
        have hne : b ≠ n := fun heq => hself (Or.inl (heq ▸ hbranch))
        split at h
        · cases h
        · rename_i hback
          split at h
          · rename_i hshared
            obtain rfl := Visit.fuse.inj h
            exact ⟨true, hcond, hbcond, hne, hlen, hbranch, hshared.symm, rfl, hsides hback,
              hsides hself, rfl, hshared.symm⟩
          · split at h
            · rename_i hshared
              obtain rfl := Visit.fuse.inj h
              exact ⟨true, hcond, hbcond, hne, hlen, hbranch, hshared.symm, rfl, hsides hback,
                hsides hself, hshared.symm, rfl⟩
            · cases h
      · split at h
        · rename_i b hb
          obtain ⟨hbranch, hbcond, hlen⟩ := onePred_eq_some hb
          have hne : b ≠ n := fun heq => hself (Or.inr (heq ▸ hbranch))
          split at h
          · cases h
          · rename_i hback
            have hback := fun hor => hback (Or.symm hor)
            split at h
            · rename_i hshared
              obtain rfl := Visit.fuse.inj h
              exact ⟨false, hcond, hbcond, hne, hlen, hbranch, hshared.symm, rfl, hsides hback,
                hsides hself, rfl, hshared.symm⟩
            · split at h
              · rename_i hshared
                obtain rfl := Visit.fuse.inj h
                exact ⟨false, hcond, hbcond, hne, hlen, hbranch, hshared.symm, rfl, hsides hback,
                  hsides hself, hshared.symm, rfl⟩
              · cases h
        · cases h

end Fusions

section Effect

theorem update_block {b : Block I} {num : Nat → Int} :
    (b.updateAttributeWith num m).cls = b.cls ∧ (b.updateAttributeWith num m).cond = b.cond ∧
      (b.updateAttributeWith num m).inCatch = b.inCatch ∧ (b.isCondBlock = true → ∀ side,
        (b.updateAttributeWith num m).branch side = (b.branch side).map m.get) := by
  unfold Block.updateAttributeWith Block.isCondBlock
  cases hc : b.cls with
  | cond =>
    refine ⟨rfl, rfl, rfl, fun _ side => ?_⟩
    cases side
    · rfl
    · rfl
  | shortCircuit =>
    refine ⟨rfl, rfl, rfl, fun _ side => ?_⟩
    cases side
    · rfl
    · rfl
  | statement => exact ⟨rfl, rfl, rfl, fun hno => absurd hno (by decide)⟩
  | ret => exact ⟨rfl, rfl, rfl, fun hno => absurd hno (by decide)⟩
  | throw => exact ⟨rfl, rfl, rfl, fun hno => absurd hno (by decide)⟩
  | switch => exact ⟨rfl, rfl, rfl, fun hno => absurd hno (by decide)⟩

/-- The heap after the wiring of the predecessors: each has its pointers mapped
once. -/
theorem heap_preds (hnodup : l.Nodup) (v : Nat) :
    ((l.foldl (fun g p => (g.updateAttributeWith m p).addEdge (m.get p) new) g).heap v).cls =
        (g.heap v).cls ∧
      ((l.foldl (fun g p => (g.updateAttributeWith m p).addEdge (m.get p) new) g).heap v).cond =
        (g.heap v).cond ∧
      ((l.foldl (fun g p => (g.updateAttributeWith m p).addEdge (m.get p) new) g).heap v).inCatch =
        (g.heap v).inCatch ∧
      ((g.heap v).isCondBlock = true → ∀ side,
        ((l.foldl (fun g p => (g.updateAttributeWith m p).addEdge (m.get p) new) g).heap v).branch
          side = if v ∈ l then ((g.heap v).branch side).map m.get else (g.heap v).branch side) := by
  induction l generalizing g with
  | nil => exact ⟨rfl, rfl, rfl, fun _ side => (if_neg List.not_mem_nil).symm⟩
  | cons p l ih =>
    obtain ⟨hp, hl⟩ := List.nodup_cons.mp hnodup
    let g' := (g.updateAttributeWith m p).addEdge (m.get p) new
    obtain ⟨hcls, hcond, hcatch, hbranch⟩ := @ih g' hl
    have hupdate : (g'.heap v).cls = (g.heap v).cls ∧ (g'.heap v).cond = (g.heap v).cond ∧
        (g'.heap v).inCatch = (g.heap v).inCatch ∧ ((g.heap v).isCondBlock = true → ∀ side,
          (g'.heap v).branch side =
            if v = p then ((g.heap v).branch side).map m.get else (g.heap v).branch side) := by
      change ((g.modify p _).heap v).cls = _ ∧ ((g.modify p _).heap v).cond = _ ∧
        ((g.modify p _).heap v).inCatch = _ ∧ (_ → ∀ side, ((g.modify p _).heap v).branch side = _)
      rw [heap_modify]
      split
      · rename_i heq
        subst heq
        exact update_block
      · rename_i hne
        exact ⟨rfl, rfl, rfl, fun _ _ => rfl⟩
    obtain ⟨hcls', hcond', hcatch', hbranch'⟩ := hupdate
    rw [List.foldl_cons]
    refine ⟨hcls.trans hcls', hcond.trans hcond', hcatch.trans hcatch', fun hc side => ?_⟩
    have hc' : (g'.heap v).isCondBlock = true := by
      unfold Block.isCondBlock at hc ⊢
      rw [hcls']
      exact hc
    rw [hbranch hc' side, hbranch' hc side]
    rcases eq_or_ne v p with rfl | hne
    · rw [if_neg hp, if_pos rfl, if_pos List.mem_cons_self]
    · rw [if_neg hne]
      have hmem : v ∈ p :: l ↔ v ∈ l := by
        rw [List.mem_cons]
        exact or_iff_right hne
      rw [if_congr hmem rfl rfl]

theorem edge_preds (hl : ∀ p ∈ l, p ∉ m) {a b : Nat} :
    (l.foldl (fun g p => (g.updateAttributeWith m p).addEdge (m.get p) new) g).Edge a b ↔
      g.Edge a b ∨ (a ∈ l ∧ b = new) := by
  induction l generalizing g with
  | nil => simp
  | cons p l ih =>
    rw [List.foldl_cons, ih fun q hq => hl q (List.mem_cons_of_mem p hq), edge_addEdge,
      NodeMap.get_of_not_mem (hl p List.mem_cons_self), List.mem_cons]
    have hsame : (g.updateAttributeWith m p).Edge a b ↔ g.Edge a b := Iff.rfl
    rw [hsame]
    tauto

theorem edge_dests (hl : ∀ d ∈ l, d ∉ m) {a b : Nat} :
    (l.foldl (fun g d => g.addEdge new (m.get d)) g).Edge a b ↔
      g.Edge a b ∨ (a = new ∧ b ∈ l) := by
  induction l generalizing g with
  | nil => simp
  | cons d l ih =>
    rw [List.foldl_cons, ih fun q hq => hl q (List.mem_cons_of_mem d hq), edge_addEdge,
      NodeMap.get_of_not_mem (hl d List.mem_cons_self), List.mem_cons]
    tauto

theorem heap_dests : (l.foldl (fun g d => g.addEdge new (m.get d)) g).heap = g.heap := by
  induction l generalizing g with
  | nil => rfl
  | cons d l ih => exact ih

/-- What a merge does when no exception handler is a predecessor of its nodes. -/
structure Effect (st st' : Merging I) (node1 node2 : Nat) (isand isnot : Bool) : Prop where
  block : ∀ v, v ≠ st.graph.fresh → (st'.graph.heap v).cls = (st.graph.heap v).cls ∧
    (st'.graph.heap v).cond = (st.graph.heap v).cond
  branch : ∀ v, v ≠ st.graph.fresh → (st.graph.heap v).isCondBlock = true → ∀ side,
    (st'.graph.heap v).branch side =
      if v ≠ node1 ∧ v ≠ node2 ∧ (st.graph.Edge v node1 ∨ st.graph.Edge v node2) then
        ((st.graph.heap v).branch side).map st'.nodeMap.get
      else (st.graph.heap v).branch side
  newCls : (st'.graph.heap st.graph.fresh).cls = .shortCircuit
  newCond : (st'.graph.heap st.graph.fresh).cond = some ⟨node1, node2, isand, isnot⟩
  edge : ∀ a b, st'.graph.Edge a b ↔
    (a ≠ node1 ∧ a ≠ node2 ∧ b ≠ node1 ∧ b ≠ node2 ∧ st.graph.Edge a b) ∨
      (a ≠ node1 ∧ a ≠ node2 ∧ (st.graph.Edge a node1 ∨ st.graph.Edge a node2) ∧
        b = st.graph.fresh) ∨
      (a = st.graph.fresh ∧ b ≠ node1 ∧ b ≠ node2 ∧
        (st.graph.Edge node1 b ∨ st.graph.Edge node2 b))

theorem merge_effect (h : st.graph.Sound) (hkeys : ∀ k ∈ st.nodeMap, k ∉ st.graph.nodes)
    (hne : node2 ≠ node1)
    (hvisible : ∀ p, st.graph.Edge p node1 ∨ st.graph.Edge p node2 →
      (st.graph.heap p).inCatch = false) :
    Effect st (st.mergeShortCircuit hash node1 node2 isand isnot) node1 node2 isand isnot := by
  set st' := st.mergeShortCircuit hash node1 node2 isand isnot with hst'
  let removed := (st.graph.removeNode node1).removeNode node2
  let collected := [node1, node2].foldl removeOne { graph := st.graph }
  let made := removed.makeNode
    { cls := .shortCircuit
      name := (removed.heap node1).name ++ "+" ++ (removed.heap node2).name
      type := .cond
      cond := some ⟨node1, node2, isand, isnot⟩ }
  let start := made.modify st.graph.fresh fun b => b.copyFrom (made.heap node1)
  let lpreds := (hash.order ((collected.lpreds.erase node1).erase node2)).insertionSort
    fun a b => byNum start a b
  let ldests := (hash.order ((collected.ldests.erase node1).erase node2)).insertionSort
    fun a b => byNum start a b
  let wired := ldests.foldl (fun g d => g.addEdge st.graph.fresh (st'.nodeMap.get d))
    (lpreds.foldl (fun g p => (g.updateAttributeWith st'.nodeMap p).addEdge
      (st'.nodeMap.get p) st.graph.fresh) start)
  have hgraph : st'.graph.heap = wired.heap ∧ ∀ a b, st'.graph.Edge a b ↔ wired.Edge a b := by
    have hcases : st'.graph = if st.graph.entry = some node1 ∨ st.graph.entry = some node2 then
        { wired with entry := some st.graph.fresh } else wired := rfl
    rw [hcases]
    split
    · exact ⟨rfl, fun _ _ => Iff.rfl⟩
    · exact ⟨rfl, fun _ _ => Iff.rfl⟩
  have hconsistent := h.toConsistent.removeNode (n := node1)
  have hpreds (p : Nat) : p ∈ lpreds ↔
      p ≠ node1 ∧ p ≠ node2 ∧ (st.graph.Edge p node1 ∨ st.graph.Edge p node2) := by
    have hfirst : p ∈ st.graph.preds node1 ↔ st.graph.Edge p node1 := by
      unfold BlockGraph.preds
      rw [List.mem_filter, ← h.edges.mem]
      exact and_iff_left_of_imp fun hp => by rw [hvisible p (Or.inl hp)]; rfl
    have hsecond : p ∈ (st.graph.removeNode node1).preds node2 ↔
        st.graph.Edge p node2 ∧ p ≠ node1 := by
      unfold BlockGraph.preds
      rw [List.mem_filter, ← hconsistent.edges.mem]
      have hedge := h.edge_removeNode (n := node1) (v := p) (w := node2)
      rw [show (node2 ∈ (st.graph.removeNode node1).edges.listAt p ↔
        st.graph.Edge p node2 ∧ p ≠ node1 ∧ node2 ≠ node1) from hedge]
      constructor
      · exact fun hp => ⟨hp.1.1, hp.1.2.1⟩
      · rintro ⟨hp, hpne⟩
        refine ⟨⟨hp, hpne, hne⟩, ?_⟩
        rw [heap_removeNode, hvisible p (Or.inr hp)]
        rfl
    have hnodup : collected.lpreds.Nodup := nodup_foldl_pushNew (nodup_foldl_pushNew List.nodup_nil)
    have hmem : p ∈ collected.lpreds ↔
        (p ∈ [] ∨ p ∈ st.graph.preds node1) ∨ p ∈ (st.graph.removeNode node1).preds node2 :=
      mem_foldl_pushNew.trans (or_congr mem_foldl_pushNew Iff.rfl)
    rw [mem_hashed, (hnodup.erase node1).mem_erase_iff, hnodup.mem_erase_iff, hmem, hfirst, hsecond]
    simp only [List.not_mem_nil, false_or]
    tauto
  have hdests (d : Nat) : d ∈ ldests ↔
      d ≠ node1 ∧ d ≠ node2 ∧ (st.graph.Edge node1 d ∨ st.graph.Edge node2 d) := by
    have hnodup : collected.ldests.Nodup := nodup_foldl_pushNew (nodup_foldl_pushNew List.nodup_nil)
    have hmem : d ∈ collected.ldests ↔
        (d ∈ [] ∨ d ∈ st.graph.sucs node1) ∨ d ∈ (st.graph.removeNode node1).sucs node2 :=
      mem_foldl_pushNew.trans (or_congr mem_foldl_pushNew Iff.rfl)
    rw [mem_hashed, (hnodup.erase node1).mem_erase_iff, hnodup.mem_erase_iff, hmem, mem_sucs,
      mem_sucs, h.edge_removeNode]
    simp only [List.not_mem_nil, false_or]
    tauto
  have hlive {v : Nat} (hv : v ∈ st.graph.nodes) (h1 : v ≠ node1) (h2 : v ≠ node2) :
      v ∉ st'.nodeMap := by
    intro hkey
    rcases mem_nodeMap_merge.mp hkey with hkey | heq | heq
    · exact hkeys v hkey hv
    · exact h1 heq
    · exact h2 heq
  have hpredsLive : ∀ p ∈ lpreds, p ∉ st'.nodeMap := by
    intro p hp
    obtain ⟨h1, h2, hp | hp⟩ := (hpreds p).mp hp
    · exact hlive (h.edgeMem p node1 hp).1 h1 h2
    · exact hlive (h.edgeMem p node2 hp).1 h1 h2
  have hdestsLive : ∀ d ∈ ldests, d ∉ st'.nodeMap := by
    intro d hd
    obtain ⟨h1, h2, hd | hd⟩ := (hdests d).mp hd
    · exact hlive (h.edgeMem node1 d hd).2 h1 h2
    · exact hlive (h.edgeMem node2 d hd).2 h1 h2
  have hpredsNodup : lpreds.Nodup := by
    have hnodup : collected.lpreds.Nodup := nodup_foldl_pushNew (nodup_foldl_pushNew List.nodup_nil)
    refine (List.perm_insertionSort _ _).nodup_iff.mpr ((hash.perm _).nodup_iff.mpr ?_)
    exact (hnodup.erase node1).erase node2
  have hstart (v : Nat) (hv : v ≠ st.graph.fresh) : start.heap v = st.graph.heap v := by
    have hmade : start.heap v = made.heap v := by
      rw [heap_modify, if_neg hv]
    rw [hmade]
    exact Function.update_of_ne hv _ _
  have hstartNew : (start.heap st.graph.fresh).cls = .shortCircuit ∧
      (start.heap st.graph.fresh).cond = some ⟨node1, node2, isand, isnot⟩ := by
    have hmade : start.heap st.graph.fresh =
        (made.heap st.graph.fresh).copyFrom (made.heap node1) := by
      rw [heap_modify, if_pos rfl]
    have hblock : made.heap st.graph.fresh = _ := Function.update_self _ _ _
    rw [hmade, hblock]
    exact ⟨rfl, rfl⟩
  have hstartEdge (a b : Nat) : start.Edge a b ↔
      (st.graph.Edge a b ∧ a ≠ node1 ∧ b ≠ node1) ∧ a ≠ node2 ∧ b ≠ node2 := by
    have hremoved : start.Edge a b ↔ removed.Edge a b := Iff.rfl
    rw [hremoved, hconsistent.edge_removeNode, h.edge_removeNode]
  have hwired (v : Nat) : wired.heap v = (lpreds.foldl (fun g p =>
      (g.updateAttributeWith st'.nodeMap p).addEdge (st'.nodeMap.get p) st.graph.fresh)
        start).heap v := congrFun heap_dests v
  have hfolded (v : Nat) := @heap_preds I start st'.nodeMap st.graph.fresh lpreds hpredsNodup v
  refine ⟨fun v hv => ?_, fun v hv hc side => ?_, ?_, ?_, fun a b => ?_⟩
  · rw [hgraph.1, hwired, (hfolded v).1, (hfolded v).2.1, hstart v hv]
    exact ⟨rfl, rfl⟩
  · rw [hgraph.1, hwired, (hfolded v).2.2.2 (hstart v hv ▸ hc), hstart v hv,
      if_congr (hpreds v) rfl rfl]
  · rw [hgraph.1, hwired, (hfolded _).1]
    exact hstartNew.1
  · rw [hgraph.1, hwired, (hfolded _).2.1]
    exact hstartNew.2
  · rw [hgraph.2, edge_dests hdestsLive, edge_preds hpredsLive, hstartEdge, hpreds, hdests]
    constructor
    · rintro ((⟨⟨hab, ha1, hb1⟩, ha2, hb2⟩ | ⟨⟨ha1, ha2, ha⟩, hb⟩) | hdest)
      · exact Or.inl ⟨ha1, ha2, hb1, hb2, hab⟩
      · exact Or.inr (Or.inl ⟨ha1, ha2, ha, hb⟩)
      · exact Or.inr (Or.inr hdest)
    · rintro (⟨ha1, ha2, hb1, hb2, hab⟩ | ⟨ha1, ha2, ha, hb⟩ | hdest)
      · exact Or.inl (Or.inl ⟨⟨hab, ha1, hb1⟩, ha2, hb2⟩)
      · exact Or.inl (Or.inr ⟨⟨ha1, ha2, ha⟩, hb⟩)
      · exact Or.inr hdest

end Effect

end Merging

end Dexllm.Dad
