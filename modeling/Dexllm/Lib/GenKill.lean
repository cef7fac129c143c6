import Mathlib.Data.Finset.Union
import Mathlib.Algebra.Order.BigOperators.Group.Finset

/-!
Gen/kill problems over a graph. A node passes on the facts that reach it, less
those it kills, and the facts it generates. The iteration pulls from the
predecessors and queues the successors of a node whose sets have changed; what
it leaves are the facts carried along the paths of the graph.
-/

namespace GenKill

structure Problem (α φ : Type) where
  preds : α → List α
  sucs : α → List α
  mirrored : ∀ v w, w ∈ sucs v ↔ v ∈ preds w
  gen : α → Finset φ
  kill : α → Finset φ

/-- The facts before and after each node. -/
structure Sets (α φ : Type) where
  before : α → Finset φ
  after : α → Finset φ

/-- A fact that some path to the node generates and does not kill afterwards. -/
inductive Problem.Carried {α φ : Type} (P : Problem α φ) (d : φ) : α → Prop
  | born {p v : α} (hp : p ∈ P.preds v) (hd : d ∈ P.gen p) : P.Carried d v
  | along {p v : α} (hp : p ∈ P.preds v) (hd : P.Carried d p) (hkill : d ∉ P.kill p) :
      P.Carried d v

theorem Problem.Carried.generated {α φ : Type} {P : Problem α φ} {d : φ} {v : α}
    (h : P.Carried d v) : ∃ p, d ∈ P.gen p := by
  induction h with
  | born _ hd => exact ⟨_, hd⟩
  | along _ _ _ ih => exact ih

section Transfer

variable {α φ : Type} [DecidableEq φ]

namespace Problem

def incoming (P : Problem α φ) (s : Sets α φ) (v : α) : Finset φ :=
  (P.preds v).foldl (fun new p => new ∪ s.after p) ∅

def outgoing (P : Problem α φ) (v : α) (facts : Finset φ) : Finset φ :=
  (facts \ P.kill v) ∪ P.gen v

variable {P : Problem α φ} {s : Sets α φ} {v : α} {d : φ}

theorem mem_foldl_union {f : α → Finset φ} {l : List α} {start : Finset φ} :
    d ∈ l.foldl (fun new p => new ∪ f p) start ↔ d ∈ start ∨ ∃ p ∈ l, d ∈ f p := by
  induction l generalizing start with
  | nil => simp
  | cons p l ih => rw [List.foldl_cons, ih, Finset.mem_union]; simp [or_assoc]

@[simp] theorem mem_incoming : d ∈ P.incoming s v ↔ ∃ p ∈ P.preds v, d ∈ s.after p := by
  unfold incoming
  rw [mem_foldl_union]
  simp

@[simp] theorem mem_outgoing {facts : Finset φ} :
    d ∈ P.outgoing v facts ↔ (d ∈ facts ∧ d ∉ P.kill v) ∨ d ∈ P.gen v := by
  unfold outgoing
  rw [Finset.mem_union, Finset.mem_sdiff]

theorem outgoing_mono {a b : Finset φ} (h : a ⊆ b) : P.outgoing v a ⊆ P.outgoing v b := by
  intro d hd
  rw [mem_outgoing] at hd ⊢
  exact hd.imp_left fun hd => ⟨h hd.1, hd.2⟩

end Problem

end Transfer

variable {α φ : Type} [DecidableEq α] [DecidableEq φ]

def enqueue (nodes : List α) (v : α) : List α := if v ∈ nodes then nodes else nodes ++ [v]

@[simp] theorem mem_enqueue {nodes : List α} {v w : α} :
    w ∈ enqueue nodes v ↔ w ∈ nodes ∨ w = v := by
  unfold enqueue
  split
  next hv =>
    constructor
    · exact Or.inl
    · intro h
      rcases h with h | rfl
      · exact h
      · exact hv
  next => simp

theorem mem_enqueue_all {sucs nodes : List α} {w : α} :
    w ∈ sucs.foldl enqueue nodes ↔ w ∈ nodes ∨ w ∈ sucs := by
  induction sucs generalizing nodes with
  | nil => simp
  | cons v sucs ih =>
    rw [List.foldl_cons, ih, mem_enqueue, List.mem_cons, or_assoc]

namespace Problem

/-- One round of the iteration at a node that has been taken from the queue. -/
def visit (P : Problem α φ) (v : α) (nodes : List α) (s : Sets α φ) : List α × Sets α φ :=
  let new := P.incoming s v
  let (nodes, s) :=
    if new ≠ ∅ ∧ new ≠ s.before v then
      ((P.sucs v).foldl enqueue nodes, { s with before := Function.update s.before v new })
    else (nodes, s)
  let out := P.outgoing v (s.before v)
  if out ≠ s.after v then
    ((P.sucs v).foldl enqueue nodes, { s with after := Function.update s.after v out })
  else (nodes, s)

/-- Without a result the rounds have run out. -/
def run (P : Problem α φ) : Nat → List α → Sets α φ → Option (Sets α φ)
  | _, [], s => some s
  | 0, _ :: _, _ => none
  | fuel + 1, v :: nodes, s =>
    let (nodes, s) := P.visit v nodes s
    P.run fuel nodes s

variable {P : Problem α φ} {s s' : Sets α φ} {v w : α} {nodes : List α} {d : φ}

/-- A round at a node whose facts can only grow sets both of its sets anew. -/
theorem sets_visit (hgrown : s.before v ⊆ P.incoming s v) :
    (P.visit v nodes s).2 =
      { before := Function.update s.before v (P.incoming s v)
        after := Function.update s.after v (P.outgoing v (P.incoming s v)) } := by
  have hsame : ¬ (P.incoming s v ≠ ∅ ∧ P.incoming s v ≠ s.before v) →
      s.before v = P.incoming s v := by
    intro h
    by_contra hne
    have hempty : P.incoming s v = ∅ := by
      by_contra hnew
      exact h ⟨hnew, fun heq => hne heq.symm⟩
    rw [hempty] at hgrown hne
    exact hne (Finset.subset_empty.mp hgrown)
  unfold visit
  dsimp only
  split_ifs with hnew hout hout
  · simp
  · simp only [Function.update_self] at hout ⊢
    rw [not_not] at hout
    rw [hout, Function.update_eq_self]
  · rw [hsame hnew] at hout ⊢
    rw [← hsame hnew, Function.update_eq_self, hsame hnew]
  · rw [not_not, hsame hnew] at hout
    rw [hout, ← hsame hnew, Function.update_eq_self, Function.update_eq_self]

theorem mem_visit (h : w ∈ (P.visit v nodes s).1) : w ∈ nodes ∨ w ∈ P.sucs v := by
  unfold visit at h
  dsimp only at h
  split_ifs at h <;> simp only [mem_enqueue_all] at h <;> tauto

theorem kept_visit (h : w ∈ nodes) : w ∈ (P.visit v nodes s).1 := by
  unfold visit
  dsimp only
  split_ifs <;> simp only [mem_enqueue_all] <;> tauto

theorem queued_visit (h : (P.visit v nodes s).2.after v ≠ s.after v) (hw : w ∈ P.sucs v) :
    w ∈ (P.visit v nodes s).1 := by
  unfold visit at h ⊢
  dsimp only at h ⊢
  split_ifs at h ⊢ <;> simp_all [mem_enqueue_all]

/-- What holds of the sets between two rounds, `dom` being the nodes the iteration
goes over. -/
structure Inv (P : Problem α φ) (dom : Finset α) (nodes : List α) (s : Sets α φ) : Prop where
  queued : ∀ v ∈ nodes, v ∈ dom
  outside : ∀ v, v ∉ dom → s.after v = P.gen v
  sound : ∀ v d, d ∈ s.before v → P.Carried d v
  grown : ∀ v, s.before v ⊆ P.incoming s v
  grownAfter : ∀ v ∈ dom, s.after v ⊆ P.outgoing v (s.before v)
  settled : ∀ v ∈ dom, v ∉ nodes →
    P.incoming s v ⊆ s.before v ∧ P.outgoing v (s.before v) ⊆ s.after v

variable {dom : Finset α}

theorem Inv.after_carried (h : P.Inv dom nodes s) (hd : d ∈ s.after v) :
    d ∈ P.gen v ∨ P.Carried d v ∧ d ∉ P.kill v := by
  by_cases hv : v ∈ dom
  · rcases mem_outgoing.mp (h.grownAfter v hv hd) with hd | hd
    · exact Or.inr ⟨h.sound v d hd.1, hd.2⟩
    · exact Or.inl hd
  · exact Or.inl (h.outside v hv ▸ hd)

theorem Inv.visit (hclosed : ∀ v ∈ dom, ∀ w ∈ P.sucs v, w ∈ dom)
    (h : P.Inv dom (v :: nodes) s) :
    P.Inv dom (P.visit v nodes s).1 (P.visit v nodes s).2 := by
  have hv : v ∈ dom := h.queued v List.mem_cons_self
  have hsets : (P.visit v nodes s).2 =
      { before := Function.update s.before v (P.incoming s v)
        after := Function.update s.after v (P.outgoing v (P.incoming s v)) } :=
    sets_visit (h.grown v)
  have hmore : s.after v ⊆ P.outgoing v (P.incoming s v) :=
    (h.grownAfter v hv).trans (outgoing_mono (h.grown v))
  have hafter (w : α) : s.after w ⊆ (P.visit v nodes s).2.after w := by
    rw [hsets]
    rcases eq_or_ne w v with rfl | hne
    · simpa using hmore
    · simp [hne]
  have hincoming (w : α) : P.incoming s w ⊆ P.incoming (P.visit v nodes s).2 w := by
    intro d hd
    obtain ⟨p, hp, hd⟩ := mem_incoming.mp hd
    exact mem_incoming.mpr ⟨p, hp, hafter p hd⟩
  -- what a node outside the queue pulls has not changed in this round
  have hstill (w : α) (hw : w ∉ (P.visit v nodes s).1) :
      P.incoming (P.visit v nodes s).2 w ⊆ P.incoming s w := by
    intro d hd
    obtain ⟨p, hp, hd⟩ := mem_incoming.mp hd
    apply mem_incoming.mpr
    refine ⟨p, hp, ?_⟩
    rcases eq_or_ne p v with rfl | hne
    · by_contra hold
      apply hw
      apply queued_visit
      · intro heq
        exact hold (heq ▸ hd)
      · exact (P.mirrored p w).mpr hp
    · rw [hsets] at hd
      simpa [hne] using hd
  refine ⟨?_, ?_, ?_, ?_, ?_, ?_⟩
  · intro w hw
    rcases mem_visit hw with hw | hw
    · exact h.queued w (List.mem_cons_of_mem _ hw)
    · exact hclosed v hv w hw
  · intro w hw
    rw [hsets]
    have hne : w ≠ v := fun heq => hw (heq ▸ hv)
    simpa [hne] using h.outside w hw
  · intro w d hd
    rw [hsets] at hd
    rcases eq_or_ne w v with rfl | hne
    · simp only [Function.update_self] at hd
      obtain ⟨p, hp, hd⟩ := mem_incoming.mp hd
      rcases h.after_carried hd with hd | hd
      · exact Carried.born hp hd
      · exact Carried.along hp hd.1 hd.2
    · simp only [Function.update_of_ne hne] at hd
      exact h.sound w d hd
  · intro w
    have hbefore : (P.visit v nodes s).2.before w ⊆ P.incoming s w := by
      rw [hsets]
      rcases eq_or_ne w v with rfl | hne
      · simp
      · simpa [hne] using h.grown w
    exact hbefore.trans (hincoming w)
  · intro w hw
    rw [hsets]
    rcases eq_or_ne w v with rfl | hne
    · simp
    · simpa [hne] using h.grownAfter w hw
  · intro w hw hnot
    have hpull := hstill w hnot
    rw [hsets] at hpull ⊢
    rcases eq_or_ne w v with rfl | hne
    · simpa using hpull
    · have hout : w ∉ v :: nodes := by
        intro hmem
        rcases List.mem_cons.mp hmem with heq | hmem
        · exact hne heq
        · exact hnot (kept_visit hmem)
      have hold := h.settled w hw hout
      simp only [Function.update_of_ne hne] at hpull ⊢
      exact ⟨hpull.trans hold.1, hold.2⟩

theorem Inv.run (hclosed : ∀ v ∈ dom, ∀ w ∈ P.sucs v, w ∈ dom) {fuel : Nat}
    (h : P.Inv dom nodes s) (hrun : P.run fuel nodes s = some s') : P.Inv dom [] s' := by
  induction fuel generalizing nodes s with
  | zero =>
    cases nodes with
    | nil =>
      obtain rfl := Option.some.inj hrun
      exact h
    | cons v nodes => cases hrun
  | succ fuel ih =>
    cases nodes with
    | nil =>
      obtain rfl := Option.some.inj hrun
      exact h
    | cons v nodes => exact ih (h.visit hclosed) hrun

/-- The facts before a node of an iteration that has come to its end. -/
theorem Inv.mem_before_iff (h : P.Inv dom [] s) (hsource : ∀ v, v ∉ dom → P.preds v = [])
    (hv : v ∈ dom) : d ∈ s.before v ↔ P.Carried d v := by
  constructor
  · exact h.sound v d
  · intro hd
    have hpull {p w : α} (hw : w ∈ dom) (hp : p ∈ P.preds w) : s.after p ⊆ s.before w :=
      fun x hx => (h.settled w hw List.not_mem_nil).1 (mem_incoming.mpr ⟨p, hp, hx⟩)
    have hgen (p : α) (hx : d ∈ P.gen p) : d ∈ s.after p := by
      by_cases hp : p ∈ dom
      · exact (h.settled p hp List.not_mem_nil).2 (mem_outgoing.mpr (Or.inr hx))
      · rw [h.outside p hp]
        exact hx
    induction hd with
    | born hp hx => exact hpull hv hp (hgen _ hx)
    | @along p w hp hcarried hkill ih =>
      have hpdom : p ∈ dom := by
        by_contra hout
        cases hcarried with
        | born hq _ => rw [hsource p hout] at hq; cases hq
        | along hq _ _ => rw [hsource p hout] at hq; cases hq
      have hp' := (h.settled p hpdom List.not_mem_nil).2
      exact hpull hv hp (hp' (mem_outgoing.mpr (Or.inl ⟨ih hpdom, hkill⟩)))

/-- How much the sets can still grow within the facts `all`. -/
def room (dom : Finset α) (all : Finset φ) (s : Sets α φ) : Nat :=
  ∑ v ∈ dom, ((all \ s.before v).card + (all \ s.after v).card)

theorem card_sdiff_le {all a b : Finset φ} (h : a ⊆ b) : (all \ b).card ≤ (all \ a).card :=
  Finset.card_le_card (Finset.sdiff_subset_sdiff (Finset.Subset.refl all) h)

theorem card_sdiff_lt {all a b : Finset φ} (h : a ⊆ b) (hb : b ⊆ all) (hne : a ≠ b) :
    (all \ b).card < (all \ a).card := by
  apply Finset.card_lt_card
  refine ⟨Finset.sdiff_subset_sdiff (Finset.Subset.refl all) h, ?_⟩
  intro hback
  apply hne
  apply Finset.Subset.antisymm h
  intro x hx
  by_contra hxa
  exact (Finset.mem_sdiff.mp (hback (Finset.mem_sdiff.mpr ⟨hb hx, hxa⟩))).2 hx

/-- A round empties the queue by one node or lets a set grow. -/
theorem Inv.room_visit {all : Finset φ} (hall : ∀ v, P.gen v ⊆ all)
    (h : P.Inv dom (v :: nodes) s) :
    P.visit v nodes s = (nodes, s) ∨ room dom all (P.visit v nodes s).2 < room dom all s := by
  have hv : v ∈ dom := h.queued v List.mem_cons_self
  have hsets : (P.visit v nodes s).2 =
      { before := Function.update s.before v (P.incoming s v)
        after := Function.update s.after v (P.outgoing v (P.incoming s v)) } :=
    sets_visit (h.grown v)
  have hmore : s.after v ⊆ P.outgoing v (P.incoming s v) :=
    (h.grownAfter v hv).trans (outgoing_mono (h.grown v))
  have hin : P.incoming s v ⊆ all := by
    intro d hd
    obtain ⟨p, _, hd⟩ := mem_incoming.mp hd
    rcases h.after_carried hd with hd | hd
    · exact hall p hd
    · obtain ⟨q, hq⟩ := hd.1.generated
      exact hall q hq
  have hout : P.outgoing v (P.incoming s v) ⊆ all := by
    intro d hd
    rcases mem_outgoing.mp hd with hd | hd
    · exact hin hd.1
    · exact hall v hd
  by_cases hbefore : s.before v = P.incoming s v
  · by_cases hafter : s.after v = P.outgoing v (P.incoming s v)
    · left
      have hsame : P.outgoing v (s.before v) = s.after v := by rw [hbefore, hafter]
      unfold Problem.visit
      simp [← hbefore, hsame]
    · right
      rw [hsets]
      apply Finset.sum_lt_sum
      · intro w _
        rcases eq_or_ne w v with rfl | hne
        · simpa [← hbefore] using card_sdiff_le (hbefore ▸ hmore)
        · simp [hne]
      · refine ⟨v, hv, ?_⟩
        simpa [← hbefore] using card_sdiff_lt (hbefore ▸ hmore) (hbefore ▸ hout) (hbefore ▸ hafter)
  · right
    have hlt := card_sdiff_lt (h.grown v) hin hbefore
    have hle : (all \ P.outgoing v (P.incoming s v)).card ≤ (all \ s.after v).card :=
      card_sdiff_le hmore
    rw [hsets]
    apply Finset.sum_lt_sum
    · intro w _
      rcases eq_or_ne w v with rfl | hne
      · simp only [Function.update_self]
        omega
      · simp [hne]
    · refine ⟨v, hv, ?_⟩
      simp only [Function.update_self]
      omega

/-- The iteration comes to an end. -/
theorem Inv.exists_run {all : Finset φ} (hall : ∀ v, P.gen v ⊆ all)
    (hclosed : ∀ v ∈ dom, ∀ w ∈ P.sucs v, w ∈ dom) (h : P.Inv dom nodes s) :
    ∃ fuel s', P.run fuel nodes s = some s' := by
  generalize hroom : room dom all s = n
  induction n using Nat.strong_induction_on generalizing nodes s with
  | _ n ih =>
    induction nodes with
    | nil => exact ⟨0, s, rfl⟩
    | cons v nodes ihNodes =>
      have hnext := h.visit hclosed
      have hend : ∃ fuel s', P.run fuel (P.visit v nodes s).1 (P.visit v nodes s).2 = some s' := by
        rcases h.room_visit hall with hsame | hless
        · rw [hsame] at hnext ⊢
          exact ihNodes hnext
        · exact ih _ (hroom ▸ hless) hnext rfl
      obtain ⟨fuel, s', hrun⟩ := hend
      exact ⟨fuel + 1, s', hrun⟩

end Problem

end GenKill
