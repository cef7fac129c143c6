import Dexllm.Dad.DomLt

/-!
The rounds of `DomLt`. From the last vertex to the first each round finds one
semidominator and settles the vertices of one bucket; the last step turns what
they were settled with into immediate dominators.
-/

namespace Dexllm.Dad

open DepthFirst Relation

variable {α : Type} [DecidableEq α]

section Lower

variable {st : DomState α} {w u : α}

theorem lowerSemi_le_self : (st.lowerSemi w u).semi w ≤ st.semi w := by
  unfold DomState.lowerSemi
  split
  next hlt =>
    dsimp only
    rw [Function.update_self]
    exact Nat.le_of_lt hlt
  next => exact Nat.le_refl _

theorem lowerSemi_le : (st.lowerSemi w u).semi w ≤ st.semi u := by
  unfold DomState.lowerSemi
  split
  next => exact Nat.le_of_eq (Function.update_self ..)
  next hge => omega

theorem lowerSemi_cases : (st.lowerSemi w u).semi w = st.semi w ∨
    (st.semi u < st.semi w ∧ (st.lowerSemi w u).semi w = st.semi u) := by
  unfold DomState.lowerSemi
  split
  next hlt => exact .inr ⟨hlt, Function.update_self ..⟩
  next => exact .inl rfl

theorem lowerSemi_of_ne {x : α} (hx : x ≠ w) : (st.lowerSemi w u).semi x = st.semi x := by
  unfold DomState.lowerSemi
  split
  · exact Function.update_of_ne hx ..
  · rfl

theorem lowerSemi_tables : (st.lowerSemi w u).bucket = st.bucket ∧
    (st.lowerSemi w u).dom = st.dom := by
  unfold DomState.lowerSemi
  split <;> exact ⟨rfl, rfl⟩

theorem Forest.lowerSemi {parent : α → Option α} {linked : α → Prop}
    (h : Forest parent linked st) (hw : ¬linked w) : Forest parent linked (st.lowerSemi w u) := by
  unfold DomState.lowerSemi
  split
  · exact h.setSemi hw _
  · exact h

end Lower

/-- The vertices from number `k` on, counted from zero. -/
def Linked (d : DepthFirst.State α) (k : Nat) (x : α) : Prop :=
  x ∈ d.entered ∧ k ≤ d.entered.idxOf x

/-- What `dom` holds for a vertex of a drained bucket: its semidominator, which
is its immediate dominator, or the vertex with the least semidominator between
the two. -/
def Settled (sucs : α → List α) (root : α) (d : DepthFirst.State α) (x : α)
    (dx : Option α) : Prop :=
  ∃ s, IsSemi sucs d.entered s x ∧
    ((dx = some s ∧ ImmediateDominator sucs root s x) ∨
      ∃ u su, dx = some u ∧ Under d.parent s u x ∧ IsSemi sucs d.entered su u ∧
        d.entered.idxOf su < d.entered.idxOf s ∧
        ∀ y, Under d.parent s y x → ∀ z, SemiPath sucs d.entered z y →
          d.entered.idxOf su ≤ d.entered.idxOf z)

/-- The tables when the vertices from number `k` on have had their rounds. -/
structure RoundInv (sucs : α → List α) (root : α) (d : DepthFirst.State α) (k : Nat)
    (st : DomState α) : Prop where
  forest : Forest d.parent (Linked d k) st
  semi : ∀ x, Linked d k x → ∃ s, IsSemi sucs d.entered s x ∧ st.semi x = d.entered.idxOf s + 1
  fresh : ∀ x ∈ d.entered, d.entered.idxOf x < k → st.semi x = d.entered.idxOf x + 1
  bucket : ∀ s x, x ∈ st.bucket s → Linked d k x ∧ s ∈ d.entered ∧
    st.semi x = d.entered.idxOf s + 1
  waiting : ∀ s x, x ∈ st.bucket s →
    ∃ c, d.parent c = some s ∧ Anc d.parent c x ∧ d.entered.idxOf c < k
  settled : ∀ x, Linked d k x → (∃ s, x ∈ st.bucket s) ∨ Settled sucs root d x (st.dom x)
  outside : ∀ x, x ∉ d.entered → st.dom x = none

/-- The tables after the predecessors `done` of `w`. -/
structure LookInv (sucs : α → List α) (d : DepthFirst.State α) (w : α) (st : DomState α)
    (done : List α) (acc : DomState α × Option α) : Prop where
  forest : Forest d.parent (Linked d (d.entered.idxOf w + 1)) acc.1
  others : ∀ x, x ≠ w → acc.1.semi x = st.semi x
  bucket : acc.1.bucket = st.bucket
  dom : acc.1.dom = st.dom
  le : acc.1.semi w ≤ d.entered.idxOf w + 1
  candidate : ∃ x ∈ d.entered, acc.1.semi w = d.entered.idxOf x + 1 ∧
    (x = w ∨ SemiPath sucs d.entered x w)
  early : ∀ v ∈ done, d.entered.idxOf v ≤ d.entered.idxOf w →
    acc.1.semi w ≤ d.entered.idxOf v + 1
  late : ∀ v ∈ done, ∀ u, Linked d (d.entered.idxOf w + 1) u → Anc d.parent u v →
    acc.1.semi w ≤ acc.1.semi u
  yVertex : done ≠ [] → acc.2 = vertex d (acc.1.semi w)

section Rounds

variable {sucs : α → List α} {root : α} {d : DepthFirst.State α} {w : α} {st : DomState α}

theorem mem_pred (hinv : Inv sucs root d) (hstack : d.stack = []) {v : α} :
    v ∈ pred d w ↔ Arc sucs d.entered v w := by
  have hseen : v ∈ pred d w ↔ (v, w) ∈ d.seen := by
    unfold pred
    rw [List.mem_dedup, List.mem_map]
    constructor
    · rintro ⟨⟨a, b⟩, harc, rfl⟩
      obtain ⟨hmem, heq⟩ := List.mem_filter.mp harc
      obtain rfl := of_decide_eq_true heq
      exact hmem
    · exact fun h => ⟨(v, w), List.mem_filter.mpr ⟨h, decide_eq_true rfl⟩, rfl⟩
  rw [hseen]
  constructor
  · intro h
    exact hinv.arcs v w h
  · rintro ⟨hv, hw⟩
    rcases (hinv.parts v).mp hv with hv | hv
    · exact (hinv.done v hv w hw).logged
    · rw [hstack] at hv
      cases hv

theorem vertex_idx {x : α} (hx : x ∈ d.entered) : vertex d (d.entered.idxOf x + 1) = some x := by
  unfold vertex
  rw [if_neg (Nat.succ_ne_zero _), Nat.add_sub_cancel,
    List.getElem?_eq_getElem (List.idxOf_lt_length_of_mem hx)]
  exact congrArg some (List.getElem_idxOf _)

/-- Looking at one predecessor. -/
theorem LookInv.look (hsp : Spanning sucs root d.entered d.parent)
    (hround : RoundInv sucs root d (d.entered.idxOf w + 1) st) (hw : w ∈ d.entered)
    {done : List α} {acc : DomState α × Option α} (h : LookInv sucs d w st done acc) {v : α}
    (harc : Arc sucs d.entered v w) :
    LookInv sucs d w st (done ++ [v]) (DomState.lookPred d w acc v) := by
  have hv := harc.1
  obtain hev := h.forest.eval hsp hv (List.idxOf_lt_length_of_mem hv)
  have hlook : DomState.lookPred d w acc v =
      ((acc.1.eval d.entered.length v).1.lowerSemi w (acc.1.eval d.entered.length v).2,
        vertex d (((acc.1.eval d.entered.length v).1.lowerSemi w
          (acc.1.eval d.entered.length v).2).semi w)) := rfl
  rw [hlook]
  generalize (acc.1.eval d.entered.length v).1 = st' at hev ⊢
  generalize (acc.1.eval d.entered.length v).2 = u at hev ⊢
  have hwnot : ¬Linked d (d.entered.idxOf w + 1) w := fun hl => absurd hl.2 (by omega)
  have hsemi : st'.semi = acc.1.semi := hev.kept.semi
  have hle : (st'.lowerSemi w u).semi w ≤ acc.1.semi w := hsemi ▸ lowerSemi_le_self
  have hleu : (st'.lowerSemi w u).semi w ≤ acc.1.semi u := hsemi ▸ lowerSemi_le
  have hothers (x : α) (hx : x ≠ w) : (st'.lowerSemi w u).semi x = acc.1.semi x :=
    (lowerSemi_of_ne hx).trans (congrFun hsemi x)
  have hold (x : α) (hx : x ∈ d.entered) (hxw : x ≠ w)
      (hlt : d.entered.idxOf x ≤ d.entered.idxOf w) : acc.1.semi x = d.entered.idxOf x + 1 :=
    (h.others x hxw).trans (hround.fresh x hx (by omega))
  constructor
  case forest => exact hev.forest.lowerSemi hwnot
  case others => exact fun x hx => (hothers x hx).trans (h.others x hx)
  case bucket => exact lowerSemi_tables.1.trans (hev.kept.bucket.trans h.bucket)
  case dom => exact lowerSemi_tables.2.trans (hev.kept.dom.trans h.dom)
  case le => exact hle.trans h.le
  case candidate =>
    have hcases : (st'.lowerSemi w u).semi w = acc.1.semi w ∨
        (acc.1.semi u < acc.1.semi w ∧ (st'.lowerSemi w u).semi w = acc.1.semi u) := by
      rw [← hsemi]
      exact lowerSemi_cases
    rcases hcases with heq | ⟨hlt, heq⟩
    · rw [heq]
      exact h.candidate
    · have huw : u ≠ w := by
        rintro rfl
        exact absurd hlt (Nat.lt_irrefl _)
      rw [heq]
      by_cases hlinked : Linked d (d.entered.idxOf w + 1) v
      · -- the semidominator of the vertex found reaches `w` through it
        obtain ⟨su, hsu, hnum⟩ := hround.semi u (hev.inForest hlinked)
        have hidx := (hev.inForest hlinked).2
        refine ⟨su, hsu.path.mem, (h.others u huw).trans hnum, .inr ?_⟩
        exact hsp.semiPath_extend harc (hev.above hlinked) (by omega) hsu.path
      · have huv := hev.outside hlinked
        have hlt' : ¬d.entered.idxOf w + 1 ≤ d.entered.idxOf v := fun hge => hlinked ⟨hv, hge⟩
        rw [huv] at huw ⊢
        exact ⟨v, hv, hold v hv huw (by omega), .inr ⟨v, ReflTransGen.refl, harc⟩⟩
  case early =>
    intro v' hv' hidx
    rcases List.mem_append.mp hv' with hv' | hv'
    · exact hle.trans (h.early v' hv' hidx)
    · obtain rfl := List.mem_singleton.mp hv'
      by_cases hvw : v' = w
      · rw [hvw]
        exact hle.trans h.le
      · have hnot : ¬Linked d (d.entered.idxOf w + 1) v' := fun hl => absurd hl.2 (by omega)
        rw [hev.outside hnot, hold v' hv hvw hidx] at hleu
        rw [hev.outside hnot]
        exact hleu
  case late =>
    intro v' hv' u' hu' hanc
    have huw : u' ≠ w := by
      rintro rfl
      exact hwnot hu'
    rw [hothers u' huw]
    rcases List.mem_append.mp hv' with hv' | hv'
    · exact hle.trans (h.late v' hv' u' hu' hanc)
    · obtain rfl := List.mem_singleton.mp hv'
      exact hleu.trans (hev.least u' hu' hanc)
  case yVertex => exact fun _ => rfl

theorem LookInv.fold (hsp : Spanning sucs root d.entered d.parent)
    (hround : RoundInv sucs root d (d.entered.idxOf w + 1) st) (hw : w ∈ d.entered)
    (todo : List α) (htodo : ∀ v ∈ todo, Arc sucs d.entered v w) {done : List α}
    {acc : DomState α × Option α} (h : LookInv sucs d w st done acc) :
    LookInv sucs d w st (done ++ todo) (todo.foldl (DomState.lookPred d w) acc) := by
  induction todo generalizing done acc with
  | nil =>
    rw [List.append_nil]
    exact h
  | cons v todo ih =>
    have hstep := h.look hsp hround hw (htodo v List.mem_cons_self)
    have hrest := ih (fun x hx => htodo x (List.mem_cons_of_mem _ hx)) hstep
    rwa [List.append_assoc] at hrest

theorem LookInv.start (hround : RoundInv sucs root d (d.entered.idxOf w + 1) st)
    (hw : w ∈ d.entered) : LookInv sucs d w st [] (st, none) := by
  have hsemi := hround.fresh w hw (Nat.lt_succ_self _)
  constructor
  case forest => exact hround.forest
  case others => exact fun _ _ => rfl
  case bucket => rfl
  case dom => rfl
  case le => exact Nat.le_of_eq hsemi
  case candidate => exact ⟨w, hw, hsemi, .inl rfl⟩
  case early => exact fun _ hv => absurd hv List.not_mem_nil
  case late => exact fun _ hv => absurd hv List.not_mem_nil
  case yVertex => exact fun h => absurd rfl h

/-- After all predecessors `semi w` is the number of the semidominator. -/
theorem LookInv.isSemi (hsp : Spanning sucs root d.entered d.parent)
    (hround : RoundInv sucs root d (d.entered.idxOf w + 1) st) (hw : w ∈ d.entered)
    (hroot : w ≠ root) {done : List α} (hdone : ∀ v, v ∈ done ↔ Arc sucs d.entered v w)
    {acc : DomState α × Option α} (h : LookInv sucs d w st done acc) :
    ∃ s, IsSemi sucs d.entered s w ∧ acc.1.semi w = d.entered.idxOf s + 1 ∧ acc.2 = some s := by
  obtain ⟨x, hx, hnum, hpath⟩ := h.candidate
  obtain ⟨p, hp⟩ := hsp.tree w hw hroot
  have hpdone := (hdone p).mpr ⟨hp.mem, hp.arc⟩
  have hple := h.early p hpdone (Nat.le_of_lt hp.lt)
  have hlt := hp.lt
  have hy := h.yVertex (List.ne_nil_of_mem hpdone)
  rw [hnum, vertex_idx hx] at hy
  refine ⟨x, ⟨hpath.resolve_left ?_, fun z hz => ?_⟩, hnum, hy⟩
  · rintro rfl
    omega
  · rcases hsp.semiPath_split hz with harc | ⟨v, u, harc, hanc, hidx, hz⟩
    · rcases Nat.lt_or_ge (d.entered.idxOf w) (d.entered.idxOf z) with hge | hle
      · omega
      · have hle' := h.early z ((hdone z).mpr harc) hle
        omega
    · have hu : Linked d (d.entered.idxOf w + 1) u := ⟨hsp.anc_mem hanc harc.1, hidx⟩
      have huw : u ≠ w := by
        rintro rfl
        exact absurd hidx (Nat.lt_irrefl _)
      have hle := h.late v ((hdone v).mpr harc) u hu hanc
      obtain ⟨su, hsu, hnumu⟩ := hround.semi u hu
      rw [h.others u huw, hnumu, hnum] at hle
      have hle' := hsu.least z hz
      omega

/-- The vertices between the parent of `w` and a later vertex under it are not
before `w`. -/
theorem linked_of_under (hsp : Spanning sucs root d.entered d.parent) {pw v x : α}
    (hpw : d.parent w = some pw) (hv : Linked d (d.entered.idxOf w) v)
    (hx : Under d.parent pw x v) : Linked d (d.entered.idxOf w) x := by
  obtain ⟨hw, _⟩ := hsp.link hpw
  refine ⟨hsp.anc_mem hx.below hv.1, ?_⟩
  by_contra hlt
  have hxw := hsp.anc_between hx.below hw (by omega) hv.2
  have hne : x ≠ w := by
    rintro rfl
    exact hlt (Nat.le_refl _)
  exact hx.ne (hsp.anc_antisymm (anc_parent hxw hne hpw) hx.above)

/-- The tables between two vertices of a bucket. -/
structure DrainInv (sucs : α → List α) (root : α) (d : DepthFirst.State α) (k : Nat)
    (st : DomState α) (done : List α) (st' : DomState α) : Prop where
  forest : Forest d.parent (Linked d k) st'
  semi : st'.semi = st.semi
  bucket : st'.bucket = st.bucket
  drained : ∀ v ∈ done, Settled sucs root d v (st'.dom v)
  others : ∀ v, v ∉ done → st'.dom v = st.dom v

theorem DrainInv.drain (hsp : Spanning sucs root d.entered d.parent) {pw v : α}
    (hpw : d.parent w = some pw)
    (hsemi : ∀ x, Linked d (d.entered.idxOf w) x →
      ∃ s, IsSemi sucs d.entered s x ∧ st.semi x = d.entered.idxOf s + 1)
    (hv : Linked d (d.entered.idxOf w) v) (hnum : st.semi v = d.entered.idxOf pw + 1)
    {done : List α} {st' : DomState α}
    (h : DrainInv sucs root d (d.entered.idxOf w) st done st') :
    DrainInv sucs root d (d.entered.idxOf w) st (done ++ [v]) (DomState.drain d pw st' v) := by
  obtain hev := h.forest.eval hsp hv.1 (List.idxOf_lt_length_of_mem hv.1)
  have hdrain : DomState.drain d pw st' v =
      { (st'.eval d.entered.length v).1 with
        dom := Function.update (st'.eval d.entered.length v).1.dom v (some
          (if (st'.eval d.entered.length v).1.semi (st'.eval d.entered.length v).2 <
            (st'.eval d.entered.length v).1.semi v then
            (st'.eval d.entered.length v).2 else pw)) } := rfl
  rw [hdrain]
  generalize (st'.eval d.entered.length v).1 = st'' at hev ⊢
  generalize (st'.eval d.entered.length v).2 = u at hev ⊢
  have hsame : st''.semi = st.semi := hev.kept.semi.trans h.semi
  have hforest := hev.forest
  obtain ⟨hwmem, hangs⟩ := hsp.link hpw
  have hroot : v ≠ root := by
    rintro rfl
    have hpos := hsp.idx_root
    have hlt := hangs.lt
    have hle := hv.2
    omega
  obtain ⟨s, hs, hsnum⟩ := hsemi v hv
  have hspw : s = pw := hsp.inj hs.path.mem (by omega)
  subst hspw
  have hleast (y : α) (hy : Under d.parent s y v) : st.semi u ≤ st.semi y := by
    have hle := hev.least y (linked_of_under hsp hpw hv hy) hy.below
    rwa [h.semi] at hle
  have hsettled : Settled sucs root d v
      (some (if st''.semi u < st''.semi v then u else s)) := by
    refine ⟨s, hs, ?_⟩
    rw [hsame]
    have hu := hev.inForest hv
    obtain ⟨su, hsu, hunum⟩ := hsemi u hu
    obtain ⟨hsv, _⟩ := hsp.semi_anc hv.1 hroot hs
    split
    next hlt =>
      have hus : d.entered.idxOf s < d.entered.idxOf u := lt_of_lt_of_le hangs.lt hu.2
      refine .inr ⟨u, su, rfl, ⟨?_, ?_, hev.above hv⟩, hsu, by omega, fun y hy z hz => ?_⟩
      · exact hsp.anc_chain hv.1 hsv (hev.above hv) (Nat.le_of_lt hus)
      · rintro rfl
        exact absurd hus (Nat.lt_irrefl _)
      · obtain ⟨sy, hsy, hynum⟩ := hsemi y (linked_of_under hsp hpw hv hy)
        have hle := hleast y hy
        have hle' := hsy.least z hz
        omega
    next hge =>
      refine .inl ⟨rfl, hsp.immediate_of_semi hv.1 hroot hs fun y hsy hne hyv z hz => ?_⟩
      have hy : Under d.parent s y v := ⟨hsy, hne, hyv⟩
      obtain ⟨sy, hsy, hynum⟩ := hsemi y (linked_of_under hsp hpw hv hy)
      have hle := hleast y hy
      have hle' := hsy.least z hz
      omega
  constructor
  case forest =>
    exact ⟨hforest.linked_iff, hforest.down, hforest.own, hforest.anc, hforest.inside,
      hforest.label, hforest.least⟩
  case semi => exact hsame
  case bucket => exact hev.kept.bucket.trans h.bucket
  case drained =>
    intro x hx
    by_cases hxv : x = v
    · subst hxv
      dsimp only
      rw [Function.update_self]
      exact hsettled
    · dsimp only
      rw [Function.update_of_ne hxv, hev.kept.dom]
      rcases List.mem_append.mp hx with hx | hx
      · exact h.drained x hx
      · exact absurd (List.mem_singleton.mp hx) hxv
  case others =>
    intro x hx
    have hxv : x ≠ v := by
      rintro rfl
      exact hx (by simp)
    dsimp only
    rw [Function.update_of_ne hxv, hev.kept.dom]
    exact h.others x fun hmem => hx (List.mem_append_left _ hmem)

theorem DrainInv.fold (hsp : Spanning sucs root d.entered d.parent) {pw : α}
    (hpw : d.parent w = some pw)
    (hsemi : ∀ x, Linked d (d.entered.idxOf w) x →
      ∃ s, IsSemi sucs d.entered s x ∧ st.semi x = d.entered.idxOf s + 1)
    (todo : List α) (htodo : ∀ v ∈ todo, Linked d (d.entered.idxOf w) v ∧
      st.semi v = d.entered.idxOf pw + 1) {done : List α} {st' : DomState α}
    (h : DrainInv sucs root d (d.entered.idxOf w) st done st') :
    DrainInv sucs root d (d.entered.idxOf w) st (done ++ todo)
      (todo.foldl (DomState.drain d pw) st') := by
  induction todo generalizing done st' with
  | nil =>
    rw [List.append_nil]
    exact h
  | cons v todo ih =>
    obtain ⟨hv, hnum⟩ := htodo v List.mem_cons_self
    have hrest := ih (fun x hx => htodo x (List.mem_cons_of_mem _ hx))
      (h.drain hsp hpw hsemi hv hnum)
    rwa [List.append_assoc] at hrest

omit [DecidableEq α] in
/-- Only the forest, `semi` and the labels matter to a forest. -/
theorem Forest.setBucket {parent : α → Option α} {linked : α → Prop}
    (h : Forest parent linked st) (bucket : α → List α) :
    Forest parent linked { st with bucket } :=
  ⟨h.linked_iff, h.down, h.own, h.anc, h.inside, h.label, h.least⟩

theorem linked_succ (hw : w ∈ d.entered) :
    (fun x => Linked d (d.entered.idxOf w + 1) x ∨ x = w) = Linked d (d.entered.idxOf w) := by
  funext x
  apply propext
  constructor
  · rintro (hx | rfl)
    · exact ⟨hx.1, Nat.le_of_succ_le hx.2⟩
    · exact ⟨hw, Nat.le_refl _⟩
  · intro hx
    by_cases hxw : x = w
    · exact .inr hxw
    · have hne : d.entered.idxOf x ≠ d.entered.idxOf w :=
        fun heq => hxw ((List.idxOf_inj hx.1).mp heq)
      have hle := hx.2
      exact .inl ⟨hx.1, by omega⟩

/-- One round. -/
theorem RoundInv.round (hinv : Inv sucs root d) (hstack : d.stack = []) (orders : SetOrders α)
    (h : RoundInv sucs root d (d.entered.idxOf w + 1) st) (hw : w ∈ d.entered) (hroot : w ≠ root) :
    RoundInv sucs root d (d.entered.idxOf w) (DomState.round d orders st w) := by
  have hsp := hinv.spanning hstack
  obtain ⟨pw, hangs⟩ := hsp.tree w hw hroot
  have hpw := hangs.link
  have harcs (v : α) : v ∈ orders.pred w (pred d w) ↔ Arc sucs d.entered v w := by
    rw [(orders.predPerm w _).mem_iff, mem_pred hinv hstack]
  have hlook := (LookInv.start h hw).fold hsp h hw (orders.pred w (pred d w))
    (fun v hv => (harcs v).mp hv)
  rw [List.nil_append] at hlook
  obtain ⟨s, hs, hnum, hy⟩ := hlook.isSemi hsp h hw hroot harcs
  obtain ⟨hsw, hslt⟩ := hsp.semi_anc hw hroot hs
  have hround : DomState.round d orders st w =
      (let acc := (orders.pred w (pred d w)).foldl (DomState.lookPred d w) (st, none)
        let st := Option.casesOn (motive := fun _ => DomState α) acc.2 acc.1 fun y =>
          { acc.1 with bucket := Function.update acc.1.bucket y (pushNew (acc.1.bucket y) w) }
        Option.casesOn (motive := fun _ => DomState α) (d.parent w) st fun pw =>
          (orders.bucket w (st.bucket pw)).foldl (DomState.drain d pw)
            { st.link pw w with bucket := Function.update st.bucket pw [] }) := by
    unfold DomState.round
    generalize (orders.pred w (pred d w)).foldl (DomState.lookPred d w) (st, none) = acc
    obtain ⟨st, yVertex⟩ := acc
    cases yVertex <;> cases d.parent w <;> rfl
  rw [hround]
  generalize ((orders.pred w (pred d w)).foldl (DomState.lookPred d w) (st, none)) = acc
    at hlook hnum hy ⊢
  obtain ⟨st1, yVertex⟩ := acc
  dsimp only at hlook hnum hy ⊢
  rw [hy, hpw]
  dsimp only
  -- the buckets with `w` in the one of its semidominator
  have hbucket (b x : α) :
      x ∈ Function.update st1.bucket s (pushNew (st1.bucket s) w) b ↔
        x ∈ st.bucket b ∨ (b = s ∧ x = w) := by
    rw [mem_update_pushNew, hlook.bucket]
  generalize hbuckets : Function.update st1.bucket s (pushNew (st1.bucket s) w) = buckets
    at hbucket ⊢
  have hsemi (x : α) (hx : Linked d (d.entered.idxOf w) x) :
      ∃ sx, IsSemi sucs d.entered sx x ∧ st1.semi x = d.entered.idxOf sx + 1 := by
    rw [← linked_succ hw] at hx
    rcases hx with hx | rfl
    · have hne : x ≠ w := by
        rintro rfl
        exact absurd hx.2 (by omega)
      rw [hlook.others x hne]
      exact h.semi x hx
    · exact ⟨s, hs, hnum⟩
  have hup {x : α} (hx : Linked d (d.entered.idxOf w + 1) x) : Linked d (d.entered.idxOf w) x :=
    ⟨hx.1, Nat.le_of_succ_le hx.2⟩
  have hin {b x : α} (hx : x ∈ buckets b) : Linked d (d.entered.idxOf w) x ∧ b ∈ d.entered ∧
      st1.semi x = d.entered.idxOf b + 1 := by
    rcases (hbucket b x).mp hx with hx | ⟨rfl, rfl⟩
    · obtain ⟨hlinked, hb, hxnum⟩ := h.bucket b x hx
      have hne : x ≠ w := by
        rintro rfl
        exact absurd hlinked.2 (by omega)
      exact ⟨hup hlinked, hb, (hlook.others x hne).trans hxnum⟩
    · exact ⟨⟨hw, Nat.le_refl _⟩, hs.path.mem, hnum⟩
  have hforest : Forest d.parent (Linked d (d.entered.idxOf w)) (st1.link pw w) := by
    have hlink := hlook.forest.link hsp hpw (fun hl => absurd hl.2 (by omega))
      (fun x hwx hne => by
        rcases hsp.anc_cases hwx with heq | ⟨_, hx, hlt⟩
        · exact absurd heq.symm hne
        · exact ⟨hx, hlt⟩)
    rwa [linked_succ hw] at hlink
  have hdrain : DrainInv sucs root d (d.entered.idxOf w)
      { st1.link pw w with bucket := Function.update buckets pw [] }
      ([] ++ orders.bucket w (buckets pw))
      ((orders.bucket w (buckets pw)).foldl (DomState.drain d pw)
        { st1.link pw w with bucket := Function.update buckets pw [] }) := by
    have hsemi' (x : α) (hx : Linked d (d.entered.idxOf w) x) :
        ∃ sx, IsSemi sucs d.entered sx x ∧
          ({ st1.link pw w with bucket := Function.update buckets pw [] } : DomState α).semi x =
            d.entered.idxOf sx + 1 := hsemi x hx
    apply DrainInv.fold hsp hpw hsemi'
    · intro v hv
      rw [(orders.bucketPerm w _).mem_iff] at hv
      exact ⟨(hin hv).1, (hin hv).2.2⟩
    · exact ⟨hforest.setBucket _, rfl, rfl, fun _ hv => absurd hv List.not_mem_nil,
        fun _ _ => rfl⟩
  rw [List.nil_append] at hdrain
  have hleft {b x : α} (hx : x ∈ Function.update buckets pw [] b) : b ≠ pw ∧ x ∈ buckets b := by
    rcases eq_or_ne b pw with rfl | hb
    · rw [Function.update_self] at hx
      cases hx
    · rw [Function.update_of_ne hb] at hx
      exact ⟨hb, hx⟩
  change RoundInv sucs root d (d.entered.idxOf w)
    ((orders.bucket w (buckets pw)).foldl (DomState.drain d pw)
        { st1.link pw w with bucket := Function.update buckets pw [] })
  generalize ((orders.bucket w (buckets pw)).foldl (DomState.drain d pw)
        { st1.link pw w with bucket := Function.update buckets pw [] }) = st2 at hdrain ⊢
  have hsemi2 : st2.semi = st1.semi := hdrain.semi
  have hbucket2 : st2.bucket = Function.update buckets pw [] := hdrain.bucket
  have hdom2 (v : α) (hv : v ∉ orders.bucket w (buckets pw)) : st2.dom v = st1.dom v :=
    hdrain.others v hv
  constructor
  case forest => exact hdrain.forest
  case semi =>
    intro x hx
    rw [hsemi2]
    exact hsemi x hx
  case fresh =>
    intro x hx hlt
    have hne : x ≠ w := by
      rintro rfl
      exact absurd hlt (Nat.lt_irrefl _)
    rw [hsemi2, hlook.others x hne]
    exact h.fresh x hx (by omega)
  case bucket =>
    intro b x hx
    rw [hbucket2] at hx
    rw [hsemi2]
    exact hin (hleft hx).2
  case waiting =>
    intro b x hx
    rw [hbucket2] at hx
    obtain ⟨hb, hx⟩ := hleft hx
    rcases (hbucket b x).mp hx with hx | ⟨rfl, rfl⟩
    · obtain ⟨c, hcb, hcx, hlt⟩ := h.waiting b x hx
      refine ⟨c, hcb, hcx, ?_⟩
      have hcw : c ≠ w := by
        rintro rfl
        exact hb (Option.some.inj (hcb.symm.trans hpw))
      have hc := (hsp.link hcb).1
      have hne : d.entered.idxOf c ≠ d.entered.idxOf w := fun heq => hcw (hsp.inj hc heq)
      omega
    · -- the child of the semidominator above `w`
      rcases ReflTransGen.cases_head hsw with heq | ⟨c, hcb, hcx⟩
      · rw [heq] at hslt
        exact absurd hslt (Nat.lt_irrefl _)
      · refine ⟨c, hcb, hcx, ?_⟩
        rcases hsp.anc_cases hcx with rfl | ⟨_, _, hlt⟩
        · exact absurd (Option.some.inj (hcb.symm.trans hpw)) hb
        · exact hlt
  case settled =>
    intro x hx
    by_cases hdone : x ∈ orders.bucket w (buckets pw)
    · exact .inr (hdrain.drained x hdone)
    · rw [hdom2 x hdone, hlook.dom, hbucket2]
      have hnot : x ∉ buckets pw := fun hmem =>
        hdone ((orders.bucketPerm w _).mem_iff.mpr hmem)
      have hkeep {b : α} (hmem : x ∈ buckets b) : x ∈ Function.update buckets pw [] b := by
        have hb : b ≠ pw := by
          rintro rfl
          exact hnot hmem
        rwa [Function.update_of_ne hb]
      rw [← linked_succ hw] at hx
      rcases hx with hx | rfl
      · rcases h.settled x hx with ⟨b, hb⟩ | hset
        · exact .inl ⟨b, hkeep ((hbucket b x).mpr (.inl hb))⟩
        · exact .inr hset
      · exact .inl ⟨s, hkeep ((hbucket s x).mpr (.inr ⟨rfl, rfl⟩))⟩
  case outside =>
    intro x hx
    rw [hdom2 x, hlook.dom, h.outside x hx]
    rw [(orders.bucketPerm w _).mem_iff]
    exact fun hmem => hx (hin hmem).1.1

theorem RoundInv.start : RoundInv sucs root d d.entered.length (DomState.start d) := by
  have hnone (x : α) : ¬Linked d d.entered.length x := by
    intro hx
    have hlt := List.idxOf_lt_length_of_mem hx.1
    have hle := hx.2
    omega
  constructor
  case forest =>
    constructor
    case linked_iff => simp [DomState.start, hnone]
    case down => exact fun v _ hv => absurd hv (hnone v)
    case own => exact fun _ _ => rfl
    all_goals simp [DomState.start]
  case semi => exact fun x hx => absurd hx (hnone x)
  case fresh =>
    intro x hx _
    exact if_pos hx
  case bucket => simp [DomState.start]
  case waiting => simp [DomState.start]
  case settled => exact fun x hx => absurd hx (hnone x)
  case outside => exact fun _ _ => rfl

theorem drop_entered (hsp : Spanning sucs root d.entered d.parent) {k : Nat}
    (hk : k < d.entered.length) : ∃ w ∈ d.entered, d.entered.idxOf w = k ∧
      d.entered.drop k = w :: d.entered.drop (k + 1) :=
  ⟨d.entered[k], List.getElem_mem hk, hsp.nodup.idxOf_getElem k hk,
    List.drop_eq_getElem_cons hk⟩

/-- All rounds, from the last vertex on. -/
theorem RoundInv.run (hinv : Inv sucs root d) (hstack : d.stack = []) (orders : SetOrders α)
    {k : Nat} (hpos : 0 < k) (hk : k ≤ d.entered.length) :
    RoundInv sucs root d k
      ((d.entered.drop k).reverse.foldl (DomState.round d orders) (DomState.start d)) := by
  have hsp := hinv.spanning hstack
  induction hm : d.entered.length - k generalizing k with
  | zero =>
    obtain rfl : k = d.entered.length := by omega
    rw [List.drop_length]
    exact RoundInv.start
  | succ m ih =>
    obtain ⟨w, hw, hidx, hdrop⟩ := drop_entered hsp (show k < d.entered.length by omega)
    have hroot : w ≠ root := by
      rintro rfl
      have hzero := hsp.idx_root
      omega
    have hrec := ih (Nat.succ_pos k) (by omega) (by omega)
    rw [hdrop, List.reverse_cons, List.foldl_append]
    subst hidx
    exact hrec.round hinv hstack orders hw hroot

/-- `dom` when the vertices below number `k` have had step 4. -/
structure SettleInv (sucs : α → List α) (root : α) (d : DepthFirst.State α) (st : DomState α)
    (k : Nat) (dom : α → Option α) : Prop where
  done : ∀ x ∈ d.entered, x ≠ root → d.entered.idxOf x < k →
    ∃ z, dom x = some z ∧ ImmediateDominator sucs root z x
  todo : ∀ x, k ≤ d.entered.idxOf x → dom x = st.dom x
  outside : ∀ x, x ∉ d.entered → dom x = none

theorem SettleInv.settle (hsp : Spanning sucs root d.entered d.parent)
    (hround : RoundInv sucs root d 1 st) (hw : w ∈ d.entered) (hroot : w ≠ root)
    {dom : α → Option α} (h : SettleInv sucs root d st (d.entered.idxOf w) dom) :
    SettleInv sucs root d st (d.entered.idxOf w + 1) (DomState.settle d st.semi dom w) := by
  have hlinked : Linked d 1 w := ⟨hw, hsp.idx_pos hroot⟩
  have hset : Settled sucs root d w (st.dom w) := by
    rcases hround.settled w hlinked with ⟨b, hb⟩ | hset
    · -- no bucket waits for a child of a vertex any more
      obtain ⟨c, hc, _, hlt⟩ := hround.waiting b w hb
      obtain ⟨_, hangs⟩ := hsp.link hc
      have hpos := hangs.lt
      omega
    · exact hset
  obtain ⟨s, hs, hcases⟩ := hset
  obtain ⟨s', hs', hnum⟩ := hround.semi w hlinked
  have hvertex : vertex d (st.semi w) = some s := by
    rw [hnum, vertex_idx hs'.path.mem]
    congr 1
    exact hsp.inj hs'.path.mem (Nat.le_antisymm (hs'.least s hs.path) (hs.least s' hs'.path))
  have hdomw := h.todo w (Nat.le_refl _)
  have hnew : ∃ z, DomState.settle d st.semi dom w w = some z ∧
      ImmediateDominator sucs root z w := by
    unfold DomState.settle
    rcases hcases with ⟨hdx, hidom⟩ | ⟨u, su, hdx, hu, hsu, hlt, hleast⟩
    · rw [hdomw, hdx]
      dsimp only
      rw [if_pos hvertex, hdomw, hdx]
      exact ⟨s, rfl, hidom⟩
    · rw [hdomw, hdx]
      dsimp only
      have hus : vertex d (st.semi w) ≠ some u := by
        rw [hvertex]
        exact fun heq => hu.ne (Option.some.inj heq).symm
      have huroot : u ≠ root := by
        rintro rfl
        exact hu.ne (hsp.anc_antisymm (hsp.root_anc hs.path.mem) hu.above)
      have huw : d.entered.idxOf u < d.entered.idxOf w := by
        rcases hsp.anc_cases hu.below with rfl | ⟨_, _, hlt'⟩
        · have hsame := hs.least su hsu.path
          omega
        · exact hlt'
      obtain ⟨z, hz, hidom⟩ := h.done u (hsp.anc_mem hu.below hw) huroot huw
      rw [if_neg hus, Function.update_self]
      exact ⟨z, hz, hsp.immediate_of_least hw hroot hs hu.above hu.ne hu.below hsu
        (fun y hsy hne hyw => hleast y ⟨hsy, hne, hyw⟩) hidom⟩
  have hother {x : α} (hx : x ≠ w) : DomState.settle d st.semi dom w x = dom x := by
    unfold DomState.settle
    cases dom w with
    | none => rfl
    | some dw =>
      dsimp only
      split
      · rfl
      · exact Function.update_of_ne hx ..
  constructor
  case done =>
    intro x hx hxroot hlt
    by_cases hxw : x = w
    · rw [hxw]
      exact hnew
    · rw [hother hxw]
      have hne : d.entered.idxOf x ≠ d.entered.idxOf w := fun heq => hxw (hsp.inj hx heq)
      exact h.done x hx hxroot (by omega)
  case todo =>
    intro x hx
    have hxw : x ≠ w := by
      rintro rfl
      omega
    rw [hother hxw]
    exact h.todo x (by omega)
  case outside =>
    intro x hx
    have hxw : x ≠ w := by
      rintro rfl
      exact hx hw
    rw [hother hxw]
    exact h.outside x hx

theorem SettleInv.run (hsp : Spanning sucs root d.entered d.parent)
    (hround : RoundInv sucs root d 1 st) {k : Nat} (hpos : 0 < k) (hk : k ≤ d.entered.length)
    {dom : α → Option α} (h : SettleInv sucs root d st k dom) :
    SettleInv sucs root d st d.entered.length
      ((d.entered.drop k).foldl (DomState.settle d st.semi) dom) := by
  induction hm : d.entered.length - k generalizing k dom with
  | zero =>
    obtain rfl : k = d.entered.length := by omega
    rw [List.drop_length]
    exact h
  | succ m ih =>
    obtain ⟨w, hw, hidx, hdrop⟩ := drop_entered hsp (show k < d.entered.length by omega)
    have hroot : w ≠ root := by
      rintro rfl
      have hzero := hsp.idx_root
      omega
    rw [hdrop, List.foldl_cons]
    subst hidx
    exact ih (Nat.succ_pos _) (by omega) (h.settle hsp hround hw hroot) (by omega)

end Rounds

section DomLt

variable {g : Graph α} {e v : α}

/-- The result of `domLt` after step 4. -/
theorem settleInv_domLt (orders : SetOrders α) (hg : g.WellFormed) (he : g.entry = some e) :
    ∃ st dom, SettleInv g.allSucs e (g.dfs e) st (g.dfs e).entered.length dom ∧
      domLt orders g = Function.update dom e none := by
  have hinv : Inv g.allSucs e (g.dfs e) := inv_run
  have hstack := hg.stack_dfs he
  have hsp := hg.spanning he
  have hpos : 0 < (g.dfs e).entered.length := List.length_pos_of_mem hsp.root_mem
  have hround := RoundInv.run hinv hstack orders Nat.one_pos hpos
  rw [List.drop_one] at hround
  have hstart (st : DomState α) (hst : RoundInv g.allSucs e (g.dfs e) 1 st) :
      SettleInv g.allSucs e (g.dfs e) st 1 st.dom := by
    refine ⟨fun x _ hx hlt => ?_, fun _ _ => rfl, hst.outside⟩
    have hpos := hsp.idx_pos hx
    omega
  have hsettle := SettleInv.run hsp hround Nat.one_pos hpos (hstart _ hround)
  rw [List.drop_one] at hsettle
  refine ⟨_, _, hsettle, ?_⟩
  unfold domLt
  rw [he]

/-- `domLt` holds an immediate dominator for every reachable node but the entry. -/
theorem exists_domLt (orders : SetOrders α) (hg : g.WellFormed) (he : g.entry = some e)
    (hv : g.Reachable v) (hne : v ≠ e) :
    ∃ z, domLt orders g v = some z ∧ ImmediateDominator g.allSucs e z v := by
  obtain ⟨st, dom, hsettle, hdom⟩ := settleInv_domLt orders hg he
  rw [hdom, Function.update_of_ne hne]
  have hvmem := (hg.entered_iff he).mpr hv
  exact hsettle.done v hvmem hne (List.idxOf_lt_length_of_mem hvmem)

theorem domLt_entry (orders : SetOrders α) (hg : g.WellFormed) (he : g.entry = some e) :
    domLt orders g e = none := by
  obtain ⟨_, dom, _, hdom⟩ := settleInv_domLt orders hg he
  rw [hdom]
  exact Function.update_self ..

theorem domLt_unreachable (orders : SetOrders α) (hg : g.WellFormed) (he : g.entry = some e)
    (hv : ¬g.Reachable v) : domLt orders g v = none := by
  obtain ⟨st, dom, hsettle, hdom⟩ := settleInv_domLt orders hg he
  have hne : v ≠ e := by
    rintro rfl
    exact hv ⟨v, he, [v], Walk.stay v⟩
  rw [hdom, Function.update_of_ne hne]
  exact hsettle.outside v fun hmem => hv ((hg.entered_iff he).mp hmem)

theorem immediate_unique (hg : g.WellFormed) (he : g.entry = some e) (hv : g.Reachable v)
    {c z : α} (hc : ImmediateDominator g.allSucs e c v)
    (hz : ImmediateDominator g.allSucs e z v) : c = z :=
  (hg.spanning he).immediate_unique ((hg.entered_iff he).mpr hv) hc hz

/-- The orders of the sets do not matter. -/
theorem domLt_orders (orders orders' : SetOrders α) (hg : g.WellFormed) :
    domLt orders g = domLt orders' g := by
  funext v
  cases he : g.entry with
  | none => simp only [domLt, he]
  | some e =>
    by_cases hv : g.Reachable v
    · by_cases hne : v = e
      · rw [hne, domLt_entry orders hg he, domLt_entry orders' hg he]
      · obtain ⟨z, hz, hidom⟩ := exists_domLt orders hg he hv hne
        obtain ⟨z', hz', hidom'⟩ := exists_domLt orders' hg he hv hne
        rw [hz, hz', immediate_unique hg he hv hidom hidom']
    · rw [domLt_unreachable orders hg he hv, domLt_unreachable orders' hg he hv]

/-- The sets in the order in which they were filled. -/
def SetOrders.filled : SetOrders α where
  pred := fun _ l => l
  bucket := fun _ l => l
  predPerm := fun _ l => List.Perm.refl l
  bucketPerm := fun _ l => List.Perm.refl l

/-- `DomLt` computes the immediate dominators, whatever the order of the sets. -/
theorem domLt_immediate (hg : g.WellFormed) (he : g.entry = some e) (hv : g.Reachable v)
    (hne : v ≠ e) :
    ∃ d, (∀ orders : SetOrders α, domLt orders g v = some d) ∧
      ImmediateDominator g.allSucs e d v ∧
      ∀ c, ImmediateDominator g.allSucs e c v → c = d := by
  obtain ⟨d, hd, hidom⟩ := exists_domLt SetOrders.filled hg he hv hne
  refine ⟨d, fun orders => ?_, hidom, fun c hc => immediate_unique hg he hv hc hidom⟩
  rw [domLt_orders orders SetOrders.filled hg]
  exact hd

end DomLt

section LoopGraph

def loopNodes : Graph Nat :=
  { (((({} : Graph Nat).addNode 0).addNode 1).addNode 2).addNode 3 with entry := some 0 }

/-- Two nodes in a loop that is entered at both, one of them with an edge to
itself, and a handler. -/
def loopGraph : Graph Nat :=
  (((((loopNodes.addEdge 0 1).addEdge 0 2).addEdge 1 2).addEdge 2 1).addEdge 1 1).addCatchEdge 2 3

theorem loopGraph_wellFormed : loopGraph.WellFormed := by
  apply Graph.WellFormed.addCatchEdge _ (by decide) (by decide)
  repeat' apply Graph.WellFormed.addEdge _ (by decide) (by decide)
  apply Graph.WellFormed.setEntry _ (by decide)
  repeat' apply Graph.WellFormed.addNode _ (by decide)
  exact Graph.wellFormed_empty

theorem loopGraph_reachable : loopGraph.Reachable 3 :=
  ⟨0, rfl, [0, 2, 3], Walk.go (by decide) (Walk.go (by decide) (Walk.stay 3))⟩

theorem domLt_immediate_loopGraph :
    ∃ d, (∀ orders : SetOrders Nat, domLt orders loopGraph 3 = some d) ∧
      ImmediateDominator loopGraph.allSucs 0 d 3 ∧
      ∀ c, ImmediateDominator loopGraph.allSucs 0 c 3 → c = d :=
  domLt_immediate loopGraph_wellFormed rfl loopGraph_reachable (by decide)

example : domLt SetOrders.filled loopGraph 1 = some 0 ∧
    domLt SetOrders.filled loopGraph 3 = some 2 := by decide

end LoopGraph

end Dexllm.Dad
