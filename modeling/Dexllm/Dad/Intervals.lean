import Dexllm.Dad.CommonDom

/-!
`Intervals` groups the nodes of a graph into intervals. A head takes in the
nodes all of whose predecessors it has; the nodes it only reaches are queued as
further heads, and reaching a queued head leaves an edge.
-/

namespace Dexllm.Dad

/-- An interval: `content_` with the head first, and the member `end_`. The nodes
of one graph are never in the content of an interval of the graph below it, so
membership does not look into nested intervals. -/
structure Interval (α : Type) where
  head : α
  content : List α
  end_ : Option α := none
  deriving DecidableEq, Repr

variable {α : Type} [DecidableEq α]

def Interval.contains (iv : Interval α) (item : α) : Bool := item ∈ iv.content

/-- The member with the largest number that has a successor outside, else the
head. -/
def Interval.computeEnd (iv : Interval α) (g : Graph α) : Interval α :=
  let leaving := iv.content.foldl (fun end_ member =>
    if (g.sucs member).any fun suc => !iv.contains suc then
      match end_ with
      | none => some member
      | some e => if g.num e < g.num member then some member else end_
    else end_) none
  { iv with end_ := some (leaving.getD iv.head) }

/-- One pass over `rpo[1:]`. -/
def growPass (g : Graph α) (iv : Interval α) : Bool × Interval α :=
  g.rpo.tail.foldl (fun (change, iv) node =>
    if iv.contains node then (change, iv)
    else if (g.allPreds node).all iv.contains then
      (true, { iv with content := iv.content ++ [node] })
    else (change, iv)) (false, iv)

/-- Passes until one adds nothing. Without a result the rounds have run out. -/
def grow (g : Graph α) : Nat → Interval α → Option (Interval α)
  | 0, _ => none
  | fuel + 1, iv =>
    match growPass g iv with
    | (true, iv) => grow g fuel iv
    | (false, iv) => some iv

/-- The loop over all nodes for new heads: the nodes found and the queue. -/
def collectHeads (g : Graph α) (iv : Interval α) (heads : List α) : List α × List α :=
  g.nodes.foldl (fun (found, heads) node =>
    if iv.contains node then (found, heads)
    else if node ∈ heads then (found, heads)
    else if (g.allPreds node).any iv.contains then (found ++ [node], heads ++ [node])
    else (found, heads)) ([], heads)

/-- The queue, the heads taken from it, the intervals in the order in which they
were formed with their entries of `edges`, and the `interval` pointer of each
node as the head of its interval. -/
structure IntervalsState (α : Type) where
  heads : List α
  processed : α → Bool := fun _ => false
  formed : List (Interval α × List α) := []
  owner : α → Option α := fun _ => none

/-- One round of the outer loop. -/
def IntervalsState.round (g : Graph α) (fuel : Nat) (st : IntervalsState α) :
    Option (IntervalsState α) :=
  match st.heads with
  | [] => some st
  | head :: heads =>
    if st.processed head then some { st with heads }
    else do
      let iv ← grow g fuel { head, content := [head] }
      let (found, heads) := collectHeads g iv heads
      some {
        heads
        processed := Function.update st.processed head true
        formed := st.formed ++ [(iv.computeEnd g, found)]
        owner := fun v => if iv.contains v then some head else st.owner v }

def IntervalsState.run (g : Graph α) (fuel : Nat) : Nat → IntervalsState α →
    Option (IntervalsState α)
  | 0, _ => none
  | rounds + 1, st =>
    if st.heads.isEmpty then some st
    else (st.round g fuel).bind (IntervalsState.run g fuel rounds)

structure IntervalResult (α : Type) where
  graph : Graph (Interval α)
  intervHeads : α → Option (Interval α)
  intervals : List (Interval α)

def IntervalsState.intervHeads (st : IntervalsState α) (h : α) : Option (Interval α) :=
  (st.formed.map Prod.fst).find? fun iv => iv.head = h

/-- The edges of the interval graph, in the order in which they are added. -/
def IntervalsState.edgeList (st : IntervalsState α) : List (Interval α × Interval α) :=
  st.formed.flatMap fun (iv, found) =>
    (found.filterMap st.intervHeads).map fun iv' => (iv, iv')

def IntervalsState.result (g : Graph α) (st : IntervalsState α) : IntervalResult α where
  graph := st.edgeList.foldl (fun ig (iv, iv') => ig.addEdge iv iv')
    { nodes := st.formed.map Prod.fst
      entry := (g.entry.bind st.owner).bind st.intervHeads
      exit := (g.exit.bind st.owner).bind st.intervHeads }
  intervHeads := st.intervHeads
  intervals := st.formed.map Prod.fst

def IntervalsState.start (g : Graph α) : IntervalsState α where
  heads := g.entry.toList

/-- Without a result one of the loops has run out of rounds. -/
def intervals (fuel : Nat) (g : Graph α) : Option (IntervalResult α) :=
  ((IntervalsState.start g).run g fuel fuel).map (IntervalsState.result g)

end Dexllm.Dad

/-!
What the loops of `Intervals` do: the growth of one interval, the heads it
queues, and the invariant of the outer loop.
-/

namespace Dexllm.Dad

open DepthFirst

variable {α : Type} [DecidableEq α]

/-- The graphs `Intervals` is called on: everything is reachable and `rpo[1:]`
has nodes other than the entry. -/
structure Ready (g : Graph α) (e : α) : Prop where
  wellFormed : g.WellFormed
  entry : g.entry = some e
  reachable : ∀ v ∈ g.nodes, g.Reachable v
  rpo : ∀ v ∈ g.rpo.tail, v ∈ g.nodes ∧ v ≠ e

/-- An interval under way: members but the head have all predecessors inside. -/
structure Grown (g : Graph α) (head : α) (content : List α) : Prop where
  head_mem : head ∈ content
  nodup : content.Nodup
  sub : ∀ x ∈ content, x ∈ g.nodes
  inside : ∀ x ∈ content, x ≠ head → x ∈ g.rpo.tail ∧ ∀ p ∈ g.allPreds x, p ∈ content

section Grow

variable {g : Graph α} {e : α}

/-- A node other than the entry has a predecessor other than itself. -/
theorem Ready.exists_pred (h : Ready g e) {v : α} (hv : v ∈ g.nodes) (hne : v ≠ e) :
    ∃ p ∈ g.allPreds v, p ≠ v := by
  have hmem := (h.wellFormed.entered_iff h.entry).mpr (h.reachable v hv)
  obtain ⟨p, hp⟩ := (h.wellFormed.spanning h.entry).tree v hmem hne
  refine ⟨p, Graph.mem_allPreds.mpr hp.arc, ?_⟩
  rintro rfl
  exact absurd hp.lt (Nat.lt_irrefl _)

omit [DecidableEq α] in
theorem Grown.single {v : α} (hv : v ∈ g.nodes) : Grown g v [v] where
  head_mem := List.mem_singleton.mpr rfl
  nodup := List.nodup_singleton v
  sub := fun _ hx => List.mem_singleton.mp hx ▸ hv
  inside := fun _ hx hne => absurd (List.mem_singleton.mp hx) hne

omit [DecidableEq α] in
theorem Grown.add (h : Ready g e) {head x : α} {content : List α} (hc : Grown g head content)
    (hx : x ∈ g.rpo.tail) (hnew : x ∉ content) (hpreds : ∀ p ∈ g.allPreds x, p ∈ content) :
    Grown g head (content ++ [x]) where
  head_mem := List.mem_append_left _ hc.head_mem
  nodup := by
    refine List.nodup_append.mpr ⟨hc.nodup, List.nodup_singleton x, ?_⟩
    rintro y hy z hz rfl
    exact hnew (List.mem_singleton.mp hz ▸ hy)
  sub := by
    intro y hy
    rcases List.mem_append.mp hy with hy | hy
    · exact hc.sub y hy
    · exact List.mem_singleton.mp hy ▸ (h.rpo x hx).1
  inside := by
    intro y hy hne
    rcases List.mem_append.mp hy with hy | hy
    · obtain ⟨htail, hin⟩ := hc.inside y hy hne
      exact ⟨htail, fun p hp => List.mem_append_left _ (hin p hp)⟩
    · obtain rfl := List.mem_singleton.mp hy
      exact ⟨hx, fun p hp => List.mem_append_left _ (hpreds p hp)⟩

/-- What holds of the content when the passes end: whatever each addition
preserves, and that nothing more can be added. -/
structure Stopped (g : Graph α) (P : List α → Prop) (iv iv' : Interval α) : Prop where
  head : iv'.head = iv.head
  holds : P iv'.content
  maximal : ∀ x ∈ g.rpo.tail, x ∉ iv'.content → ∃ p ∈ g.allPreds x, p ∉ iv'.content

/-- One pass over a list of nodes. -/
theorem growPass_fold {P : List α → Prop}
    (hadd : ∀ content x, P content → x ∈ g.rpo.tail → x ∉ content →
      (∀ p ∈ g.allPreds x, p ∈ content) → P (content ++ [x]))
    (l : List α) (hl : ∀ x ∈ l, x ∈ g.rpo.tail) (change : Bool) (iv : Interval α)
    (hiv : P iv.content) :
    ∃ change' iv', l.foldl (fun (acc : Bool × Interval α) node =>
        if acc.2.contains node then (acc.1, acc.2)
        else if (g.allPreds node).all acc.2.contains then
          (true, { acc.2 with content := acc.2.content ++ [node] })
        else (acc.1, acc.2)) (change, iv) = (change', iv') ∧
      iv'.head = iv.head ∧ P iv'.content ∧ iv.content.length ≤ iv'.content.length ∧
      (change' = true → change = true ∨ iv.content.length < iv'.content.length) ∧
      (change' = false → change = false ∧ iv' = iv ∧
        ∀ x ∈ l, x ∉ iv.content → ∃ p ∈ g.allPreds x, p ∉ iv.content) := by
  induction l generalizing change iv with
  | nil => exact ⟨change, iv, rfl, rfl, hiv, Nat.le_refl _, .inl, fun hf => ⟨hf, rfl, by simp⟩⟩
  | cons x l ih =>
    have hrest (y : α) (hy : y ∈ l) := hl y (List.mem_cons_of_mem _ hy)
    rw [List.foldl_cons]
    by_cases hx : x ∈ iv.content
    · have hcontains : iv.contains x = true := decide_eq_true hx
      obtain ⟨change', iv', heq, hhead, hP, hle, htrue, hfalse⟩ := ih hrest change iv hiv
      refine ⟨change', iv', ?_, hhead, hP, hle, htrue, fun hf => ?_⟩
      · dsimp only
        rw [if_pos hcontains]
        exact heq
      · obtain ⟨hc, hsame, hmax⟩ := hfalse hf
        refine ⟨hc, hsame, fun y hy hnot => ?_⟩
        rcases List.mem_cons.mp hy with rfl | hy
        · exact absurd hx hnot
        · exact hmax y hy hnot
    · have hcontains : ¬iv.contains x = true := fun hc => hx (of_decide_eq_true hc)
      by_cases hall : (g.allPreds x).all iv.contains = true
      · have hpreds (p : α) (hp : p ∈ g.allPreds x) : p ∈ iv.content :=
          of_decide_eq_true (List.all_eq_true.mp hall p hp)
        have hnew := hadd iv.content x hiv (hl x List.mem_cons_self) hx hpreds
        obtain ⟨change', iv', heq, hhead, hP, hle, htrue, hfalse⟩ :=
          ih hrest true { iv with content := iv.content ++ [x] } hnew
        rw [List.length_append, List.length_singleton] at hle
        refine ⟨change', iv', ?_, hhead, hP, by omega, fun _ => .inr (by omega), fun hf => ?_⟩
        · dsimp only
          rw [if_neg hcontains, if_pos hall]
          exact heq
        · exact absurd (hfalse hf).1 (by simp)
      · obtain ⟨change', iv', heq, hhead, hP, hle, htrue, hfalse⟩ := ih hrest change iv hiv
        refine ⟨change', iv', ?_, hhead, hP, hle, htrue, fun hf => ?_⟩
        · dsimp only
          rw [if_neg hcontains, if_neg hall]
          exact heq
        · obtain ⟨hc, hsame, hmax⟩ := hfalse hf
          refine ⟨hc, hsame, fun y hy hnot => ?_⟩
          rcases List.mem_cons.mp hy with rfl | hy
          · rw [List.all_eq_true] at hall
            push Not at hall
            obtain ⟨p, hp, hout⟩ := hall
            exact ⟨p, hp, fun hmem => hout (decide_eq_true hmem)⟩
          · exact hmax y hy hnot

/-- What the passes of `grow` end with. -/
theorem grow_stopped {P : List α → Prop}
    (hadd : ∀ content x, P content → x ∈ g.rpo.tail → x ∉ content →
      (∀ p ∈ g.allPreds x, p ∈ content) → P (content ++ [x]))
    {fuel : Nat} {iv iv' : Interval α} (hiv : P iv.content) (hgrow : grow g fuel iv = some iv') :
    Stopped g P iv iv' := by
  induction fuel generalizing iv with
  | zero => cases hgrow
  | succ fuel ih =>
    obtain ⟨change, iv'', hpass, hhead, hP, _, _, hfalse⟩ :=
      growPass_fold hadd g.rpo.tail (fun _ hx => hx) false iv hiv
    have hpass' : growPass g iv = (change, iv'') := hpass
    rw [grow, hpass'] at hgrow
    cases change with
    | true =>
      have hstop := ih hP hgrow
      exact ⟨hstop.head.trans hhead, hstop.holds, hstop.maximal⟩
    | false =>
      obtain ⟨_, hsame, hmax⟩ := hfalse rfl
      obtain rfl := Option.some.inj hgrow
      rw [hsame] at hP ⊢
      exact ⟨rfl, hP, hmax⟩

/-- The passes of `grow` end when the nodes run out. -/
theorem exists_grow (h : Ready g e) {fuel : Nat} {iv : Interval α} {head : α}
    (hiv : Grown g head iv.content) (hfuel : g.nodes.length < iv.content.length + fuel) :
    ∃ iv', grow g fuel iv = some iv' := by
  induction fuel generalizing iv with
  | zero =>
    have hle := (hiv.nodup.subperm hiv.sub).length_le
    omega
  | succ fuel ih =>
    obtain ⟨change, iv', hpass, _, hgrown, _, htrue, _⟩ := growPass_fold
      (fun content x hc hx hnew hpreds => Grown.add h hc hx hnew hpreds) g.rpo.tail
      (fun _ hx => hx) false iv hiv
    have hpass' : growPass g iv = (change, iv') := hpass
    rw [grow, hpass']
    cases change with
    | true =>
      have hlt := (htrue rfl).resolve_left (by simp)
      exact ih hgrown (by omega)
    | false => exact ⟨iv', rfl⟩

/-- The nodes that an interval queues: those it reaches that it does not have and
that do not wait already. -/
def newHeads (g : Graph α) (iv : Interval α) (heads : List α) : List α :=
  g.nodes.filter fun v =>
    !iv.contains v && decide (v ∉ heads) && (g.allPreds v).any iv.contains

theorem collectHeads_fold (iv : Interval α) (l : List α) (hl : l.Nodup) (found heads : List α) :
    l.foldl (fun (acc : List α × List α) node =>
        if iv.contains node then (acc.1, acc.2)
        else if node ∈ acc.2 then (acc.1, acc.2)
        else if (g.allPreds node).any iv.contains then (acc.1 ++ [node], acc.2 ++ [node])
        else (acc.1, acc.2)) (found, heads) =
      (found ++ l.filter (fun v =>
          !iv.contains v && decide (v ∉ heads) && (g.allPreds v).any iv.contains),
        heads ++ l.filter (fun v =>
          !iv.contains v && decide (v ∉ heads) && (g.allPreds v).any iv.contains)) := by
  induction l generalizing found heads with
  | nil => simp
  | cons x l ih =>
    obtain ⟨hx, hl⟩ := List.nodup_cons.mp hl
    rw [List.foldl_cons, List.filter_cons]
    by_cases hc : iv.contains x = true
    · simp only [hc, if_true, Bool.not_true, Bool.false_and, Bool.false_eq_true, if_false]
      exact ih hl found heads
    · by_cases hmem : x ∈ heads
      · simp only [hc, hmem, if_true, not_true, decide_false, Bool.and_false, Bool.false_and,
          Bool.false_eq_true, if_false]
        exact ih hl found heads
      · by_cases hany : (g.allPreds x).any iv.contains = true
        · have hcong : l.filter (fun v => !iv.contains v && decide (v ∉ heads ++ [x]) &&
              (g.allPreds v).any iv.contains) = l.filter (fun v => !iv.contains v &&
              decide (v ∉ heads) && (g.allPreds v).any iv.contains) := by
            apply List.filter_congr
            intro v hv
            have hne : v ≠ x := fun heq => hx (heq ▸ hv)
            simp [hne]
          simp only [hc, hmem, hany, if_true, not_false_eq_true, decide_true, Bool.and_true,
            Bool.not_false, Bool.false_eq_true, if_false]
          rw [ih hl (found ++ [x]) (heads ++ [x]), hcong, List.append_assoc, List.append_assoc]
          rfl
        · simp only [hc, hmem, hany, not_false_eq_true, decide_true, Bool.and_false,
            Bool.false_eq_true, if_false]
          exact ih hl found heads

theorem collectHeads_eq (hg : g.WellFormed) (iv : Interval α) (heads : List α) :
    collectHeads g iv heads = (newHeads g iv heads, heads ++ newHeads g iv heads) :=
  collectHeads_fold iv g.nodes hg.nodup [] heads

theorem mem_newHeads {iv : Interval α} {heads : List α} {v : α} :
    v ∈ newHeads g iv heads ↔
      v ∈ g.nodes ∧ v ∉ iv.content ∧ v ∉ heads ∧ ∃ p ∈ g.allPreds v, p ∈ iv.content := by
  unfold newHeads Interval.contains
  simp [and_assoc]

end Grow

end Dexllm.Dad
