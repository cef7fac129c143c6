import Dexllm.Lib.DepthFirst

/-!
Dominators of a flow graph and how a depth-first spanning tree finds them. A
semidominator of a vertex is the least vertex that reaches it through later
vertices only. Semidominators come from the arcs into a vertex, and immediate
dominators come from semidominators.
-/

namespace DepthFirst

open Relation

variable {α : Type} [DecidableEq α]

/-- A walk from one vertex to another with the list of its vertices. -/
inductive Walk {α : Type} (sucs : α → List α) : α → α → List α → Prop
  | stay (u : α) : Walk sucs u u [u]
  | go {u v w : α} {p : List α} (harc : v ∈ sucs u) (hrest : Walk sucs v w p) :
      Walk sucs u w (u :: p)

def Reaches {α : Type} (sucs : α → List α) (u v : α) : Prop := ∃ p, Walk sucs u v p

/-- Every walk from the root to `v` passes `d`. -/
def Dominates {α : Type} (sucs : α → List α) (root d v : α) : Prop :=
  ∀ p, Walk sucs root v p → d ∈ p

/-- The strict dominator that every strict dominator dominates. -/
structure ImmediateDominator {α : Type} (sucs : α → List α) (root d v : α) : Prop where
  dominates : Dominates sucs root d v
  strict : d ≠ v
  nearest : ∀ c, Dominates sucs root c v → c ≠ v → Dominates sucs root c d

/-- The numbering and the tree of a search that has ended. -/
structure Spanning (sucs : α → List α) (root : α) (vs : List α) (parent : α → Option α) :
    Prop where
  nodup : vs.Nodup
  first : vs.head? = some root
  orphan : parent root = none
  fresh : ∀ v, v ∉ vs → parent v = none
  closed : ∀ v ∈ vs, ∀ w ∈ sucs v, w ∈ vs
  down : ∀ v ∈ vs, ∀ w ∈ sucs v, vs.idxOf v < vs.idxOf w → Anc parent v w
  tree : ∀ v ∈ vs, v ≠ root → ∃ p, Hangs sucs vs parent v p

theorem Inv.spanning {sucs : α → List α} {root : α} {st : State α} (h : Inv sucs root st)
    (hstack : st.stack = []) : Spanning sucs root st.entered st.parent := by
  have hleft (v : α) (hv : v ∈ st.entered) : v ∈ st.left := by
    rcases (h.parts v).mp hv with hv | hv
    · exact hv
    · rw [hstack] at hv
      cases hv
  exact {
    nodup := h.nodup
    first := h.first
    orphan := h.orphan
    fresh := h.fresh
    closed := fun v hv w hw => (h.done v (hleft v hv) w hw).mem
    down := fun v hv w hw => (h.done v (hleft v hv) w hw).down
    tree := h.tree }

section Tree

variable {sucs : α → List α} {root : α} {vs : List α} {parent : α → Option α}

theorem Spanning.root_mem (h : Spanning sucs root vs parent) : root ∈ vs :=
  List.mem_of_mem_head? h.first

theorem Spanning.idx_root (h : Spanning sucs root vs parent) : vs.idxOf root = 0 := by
  have hfirst := h.first
  cases vs with
  | nil => cases hfirst
  | cons v vs =>
    obtain rfl := Option.some.inj hfirst
    exact List.idxOf_cons_self

theorem Spanning.inj (_h : Spanning sucs root vs parent) {u v : α} (hu : u ∈ vs)
    (heq : vs.idxOf u = vs.idxOf v) : u = v := (List.idxOf_inj hu).mp heq

theorem Spanning.idx_pos (h : Spanning sucs root vs parent) {v : α} (hne : v ≠ root) :
    0 < vs.idxOf v := by
  rw [Nat.pos_iff_ne_zero]
  intro hzero
  exact hne (h.inj h.root_mem (h.idx_root.trans hzero.symm)).symm

/-- A link of the tree joins vertices of the search, the parent first. -/
theorem Spanning.link (h : Spanning sucs root vs parent) {a b : α} (hlink : parent b = some a) :
    b ∈ vs ∧ Hangs sucs vs parent b a := by
  have hb : b ∈ vs := by
    by_contra hb
    rw [h.fresh b hb] at hlink
    cases hlink
  have hne : b ≠ root := by
    rintro rfl
    rw [h.orphan] at hlink
    cases hlink
  obtain ⟨p, hp⟩ := h.tree b hb hne
  obtain rfl := Option.some.inj (hp.link.symm.trans hlink)
  exact ⟨hb, hp⟩

theorem Spanning.anc_cases (h : Spanning sucs root vs parent) {a b : α} (hanc : Anc parent a b) :
    a = b ∨ (a ∈ vs ∧ b ∈ vs ∧ vs.idxOf a < vs.idxOf b) := by
  induction hanc with
  | refl => exact .inl rfl
  | tail _ hlink ih =>
    obtain ⟨hmem, hangs⟩ := h.link hlink
    right
    rcases ih with rfl | ⟨ha, _, hlt⟩
    · exact ⟨hangs.mem, hmem, hangs.lt⟩
    · exact ⟨ha, hmem, lt_trans hlt hangs.lt⟩

theorem Spanning.anc_le (h : Spanning sucs root vs parent) {a b : α} (hanc : Anc parent a b) :
    vs.idxOf a ≤ vs.idxOf b := by
  rcases h.anc_cases hanc with rfl | ⟨_, _, hlt⟩
  · exact Nat.le_refl _
  · exact Nat.le_of_lt hlt

theorem Spanning.anc_mem (h : Spanning sucs root vs parent) {a b : α} (hanc : Anc parent a b)
    (hb : b ∈ vs) : a ∈ vs := by
  rcases h.anc_cases hanc with rfl | ⟨ha, _⟩
  · exact hb
  · exact ha

theorem Spanning.anc_antisymm (h : Spanning sucs root vs parent) {a b : α} (hab : Anc parent a b)
    (hba : Anc parent b a) : a = b := by
  rcases h.anc_cases hab with heq | ⟨_, _, hlt⟩
  · exact heq
  · have hle := h.anc_le hba
    omega

/-- The vertices under `a` are numbered consecutively from `a` on. -/
theorem Spanning.anc_between (h : Spanning sucs root vs parent) {a x y : α}
    (hanc : Anc parent a y) (hx : x ∈ vs) (hax : vs.idxOf a ≤ vs.idxOf x)
    (hxy : vs.idxOf x ≤ vs.idxOf y) : Anc parent a x := by
  induction hanc with
  | refl =>
    obtain rfl := h.inj hx (Nat.le_antisymm hxy hax)
    exact ReflTransGen.refl
  | @tail p y hanc hlink ih =>
    obtain ⟨hy, hangs⟩ := h.link hlink
    rcases Nat.lt_or_ge (vs.idxOf x) (vs.idxOf p) with hlt | hge
    · exact ih (Nat.le_of_lt hlt)
    · rcases Nat.lt_or_ge (vs.idxOf x) (vs.idxOf y) with hlt | hge'
      · exact hanc.trans (hangs.between x hx hge hlt)
      · obtain rfl := h.inj hx (Nat.le_antisymm hxy hge')
        exact hanc.tail hlink

/-- The ancestors of a vertex form a chain. -/
theorem Spanning.anc_chain (h : Spanning sucs root vs parent) {a b v : α} (hv : v ∈ vs)
    (ha : Anc parent a v) (hb : Anc parent b v) (hle : vs.idxOf a ≤ vs.idxOf b) :
    Anc parent a b :=
  h.anc_between ha (h.anc_mem hb hv) hle (h.anc_le hb)

omit [DecidableEq α] in
theorem anc_parent {a p v : α} (ha : Anc parent a v) (hne : a ≠ v) (hlink : parent v = some p) :
    Anc parent a p := by
  rcases ReflTransGen.cases_tail ha with heq | ⟨q, hq, hlink'⟩
  · exact absurd heq.symm hne
  · obtain rfl := Option.some.inj (hlink'.symm.trans hlink)
    exact hq

/-- Everything hangs from the root. -/
theorem Spanning.root_anc (h : Spanning sucs root vs parent) {v : α} (hv : v ∈ vs) :
    Anc parent root v := by
  induction hn : vs.idxOf v using Nat.strong_induction_on generalizing v with
  | _ n ih =>
    by_cases hne : v = root
    · rw [hne]
      exact ReflTransGen.refl
    · obtain ⟨p, hp⟩ := h.tree v hv hne
      exact (ih _ (hn ▸ hp.lt) hp.mem rfl).tail hp.link

/-- An arc between vertices of the search. -/
def Arc (sucs : α → List α) (vs : List α) (u v : α) : Prop := u ∈ vs ∧ v ∈ sucs u

/-- A walk all of whose vertices but the first have `P`. -/
def Via (sucs : α → List α) (vs : List α) (P : α → Prop) : α → α → Prop :=
  ReflTransGen fun u v => Arc sucs vs u v ∧ P v

omit [DecidableEq α] in
theorem Via.mono {P Q : α → Prop} {u v : α} (h : Via sucs vs P u v) (hPQ : ∀ x, P x → Q x) :
    Via sucs vs Q u v :=
  ReflTransGen.mono (fun _ _ hab => ⟨hab.1, hPQ _ hab.2⟩) _ _ h

omit [DecidableEq α] in
theorem Via.last {P : α → Prop} {u v : α} (h : Via sucs vs P u v) : u = v ∨ P v := by
  rcases ReflTransGen.cases_tail h with heq | ⟨_, _, harc⟩
  · exact .inl heq.symm
  · exact .inr harc.2

theorem Spanning.via_mem (h : Spanning sucs root vs parent) {P : α → Prop} {u v : α}
    (hvia : Via sucs vs P u v) (hu : u ∈ vs) : v ∈ vs := by
  rcases ReflTransGen.cases_tail hvia with rfl | ⟨_, _, harc⟩
  · exact hu
  · exact h.closed _ harc.1.1 _ harc.1.2

/-- A walk to a vertex that is not earlier meets a common ancestor of its two
ends. -/
theorem Spanning.common_anc (h : Spanning sucs root vs parent) {R : α → Prop} {v w : α}
    (hv : v ∈ vs) (hR : R v) (hvia : Via sucs vs R v w) (hle : vs.idxOf v ≤ vs.idxOf w) :
    ∃ m, R m ∧ Anc parent m v ∧ Anc parent m w := by
  have hleast : ∃ m, R m ∧ vs.idxOf m ≤ vs.idxOf v ∧ Anc parent m w := by
    clear hle
    induction hvia with
    | refl => exact ⟨v, hR, Nat.le_refl _, ReflTransGen.refl⟩
    | @tail c c' _ harc ih =>
      -- the least vertex of the walk so far is above its last one
      obtain ⟨m, hm, hmv, hmc⟩ := ih
      have hc' := h.closed c harc.1.1 c' harc.1.2
      rcases Nat.lt_or_ge (vs.idxOf c') (vs.idxOf m) with hlt | hge
      · exact ⟨c', harc.2, by omega, ReflTransGen.refl⟩
      · refine ⟨m, hm, hmv, ?_⟩
        rcases Nat.lt_or_ge (vs.idxOf c) (vs.idxOf c') with hlt | hge'
        · exact hmc.trans (h.down c harc.1.1 c' harc.1.2 hlt)
        · exact h.anc_between hmc hc' hge hge'
  obtain ⟨m, hm, hmv, hmw⟩ := hleast
  exact ⟨m, hm, h.anc_between hmw hv hmv hle, hmw⟩

/-- A walk down the tree. -/
theorem Spanning.via_tree (h : Spanning sucs root vs parent) {P : α → Prop} {a v : α}
    (hanc : Anc parent a v) (hP : ∀ x, Anc parent a x → x ≠ a → Anc parent x v → P x) :
    Via sucs vs P a v := by
  induction hanc with
  | refl => exact ReflTransGen.refl
  | @tail p v hanc hlink ih =>
    obtain ⟨hv, hangs⟩ := h.link hlink
    have hne : v ≠ a := by
      rintro rfl
      have hle := h.anc_le hanc
      have hlt := hangs.lt
      omega
    refine (ih fun x hax hxa hxp => hP x hax hxa (hxp.tail hlink)).tail ⟨⟨hangs.mem, hangs.arc⟩, ?_⟩
    exact hP v (hanc.tail hlink) hne ReflTransGen.refl

end Tree

section Semi

variable {sucs : α → List α} {root : α} {vs : List α} {parent : α → Option α}

/-- A walk from `u` to `w` with later vertices than `w` in between. -/
def SemiPath (sucs : α → List α) (vs : List α) (u w : α) : Prop :=
  ∃ c, Via sucs vs (fun x => vs.idxOf w < vs.idxOf x) u c ∧ Arc sucs vs c w

/-- The least vertex with such a walk. -/
structure IsSemi (sucs : α → List α) (vs : List α) (s w : α) : Prop where
  path : SemiPath sucs vs s w
  least : ∀ u, SemiPath sucs vs u w → vs.idxOf s ≤ vs.idxOf u

theorem SemiPath.mem {u w : α} (h : SemiPath sucs vs u w) : u ∈ vs := by
  obtain ⟨c, hvia, harc⟩ := h
  rcases ReflTransGen.cases_head hvia with rfl | ⟨_, hstep, _⟩
  · exact harc.1
  · exact hstep.1.1

/-- A walk to `w` is a walk through later vertices when no vertex between is an
ancestor of `w`, nor `w` itself. -/
theorem Spanning.semiPath_of_via (h : Spanning sucs root vs parent) {Q : α → Prop} {x c w : α}
    (hw : ¬Q w) (hanc : ∀ m, Q m → ¬Anc parent m w) (hvia : Via sucs vs Q x c)
    (harc : Arc sucs vs c w) : SemiPath sucs vs x w := by
  refine ⟨c, ?_, harc⟩
  have hwmem := h.closed c harc.1 w harc.2
  induction hvia using ReflTransGen.head_induction_on with
  | refl => exact ReflTransGen.refl
  | @head a z hstep hrest ih =>
    refine ReflTransGen.head ⟨hstep.1, ?_⟩ ih
    have hz := h.closed a hstep.1.1 z hstep.1.2
    by_contra hle
    have hwalk : Via sucs vs (fun y => Q y ∨ y = w) z w :=
      ReflTransGen.tail (Via.mono hrest fun y hy => .inl hy) ⟨harc, .inr rfl⟩
    obtain ⟨m, hm, hmz, hmw⟩ := h.common_anc hz (.inl hstep.2) hwalk (by omega)
    rcases hm with hm | hm
    · exact hanc m hm hmw
    · rw [hm] at hmz
      have hle' := h.anc_le hmz
      have heq : z = w := h.inj hz (by omega)
      exact hw (heq ▸ hstep.2)

/-- A walk with later vertices in between passes an ancestor of its last vertex
but one. -/
theorem Spanning.semiPath_split (h : Spanning sucs root vs parent) {x w : α}
    (hpath : SemiPath sucs vs x w) : Arc sucs vs x w ∨
      ∃ v u, Arc sucs vs v w ∧ Anc parent u v ∧ vs.idxOf w < vs.idxOf u ∧
        SemiPath sucs vs x u := by
  obtain ⟨c, hvia, harc⟩ := hpath
  have hwalk {a : α} (hvia : Via sucs vs (fun y => vs.idxOf w < vs.idxOf y) x a) :
      (∃ u, Anc parent u c ∧ vs.idxOf w < vs.idxOf u ∧ SemiPath sucs vs x u) ∨
        Via sucs vs (fun y => ¬Anc parent y c) x a := by
    induction hvia with
    | refl => exact .inr ReflTransGen.refl
    | @tail a b _ hstep ih =>
      rcases ih with hfound | hnone
      · exact .inl hfound
      · by_cases hb : Anc parent b c
        · refine .inl ⟨b, hb, hstep.2, ?_⟩
          exact h.semiPath_of_via (fun hnot => hnot hb) (fun m hm hmb => hm (hmb.trans hb)) hnone
            hstep.1
        · exact .inr (ReflTransGen.tail hnone ⟨hstep.1, hb⟩)
  rcases hwalk hvia with ⟨u, hu, hlt, hpath⟩ | hnone
  · exact .inr ⟨c, u, harc, hu, hlt, hpath⟩
  · rcases Via.last hnone with rfl | hnot
    · exact .inl harc
    · exact absurd ReflTransGen.refl hnot

/-- An arc from a vertex under `u` carries the walks to `u` on to `w`. -/
theorem Spanning.semiPath_extend (h : Spanning sucs root vs parent) {x u v w : α}
    (harc : Arc sucs vs v w) (hanc : Anc parent u v) (hlt : vs.idxOf w < vs.idxOf u)
    (hpath : SemiPath sucs vs x u) : SemiPath sucs vs x w := by
  obtain ⟨c, hvia, hlast⟩ := hpath
  refine ⟨v, ?_, harc⟩
  have hto : Via sucs vs (fun y => vs.idxOf w < vs.idxOf y) x u :=
    ReflTransGen.tail (Via.mono hvia fun y hy => lt_trans hlt hy) ⟨hlast, hlt⟩
  refine ReflTransGen.trans hto (h.via_tree hanc fun y huy _ _ => ?_)
  have hle := h.anc_le huy
  omega

/-- The semidominator is a proper ancestor. -/
theorem Spanning.semi_anc (h : Spanning sucs root vs parent) {s w : α} (hw : w ∈ vs)
    (hne : w ≠ root) (hs : IsSemi sucs vs s w) : Anc parent s w ∧ vs.idxOf s < vs.idxOf w := by
  obtain ⟨p, hp⟩ := h.tree w hw hne
  have hle := hs.least p ⟨p, ReflTransGen.refl, hp.mem, hp.arc⟩
  have hlt : vs.idxOf s < vs.idxOf w := lt_of_le_of_lt hle hp.lt
  refine ⟨?_, hlt⟩
  obtain ⟨c, hvia, harc⟩ := hs.path
  have hwalk : Via sucs vs (fun y => y = s ∨ vs.idxOf w ≤ vs.idxOf y) s w :=
    ReflTransGen.tail (Via.mono hvia fun y hy => .inr (Nat.le_of_lt hy)) ⟨harc, .inr (Nat.le_refl _)⟩
  obtain ⟨m, hm, hms, hmw⟩ := h.common_anc hs.path.mem (.inl rfl) hwalk (Nat.le_of_lt hlt)
  rcases hm with rfl | hm
  · exact hmw
  · have hle := h.anc_le hms
    omega

end Semi

section Avoid

variable {sucs : α → List α} {root : α}

omit [DecidableEq α] in
theorem exists_walk_iff {P : α → Prop} {u v : α} :
    (∃ p, Walk sucs u v p ∧ ∀ x ∈ p, P x) ↔
      P u ∧ ReflTransGen (fun a b => b ∈ sucs a ∧ P b) u v := by
  constructor
  · rintro ⟨p, hwalk, hp⟩
    induction hwalk with
    | stay u => exact ⟨hp u (by simp), ReflTransGen.refl⟩
    | @go u v w p harc hrest ih =>
      obtain ⟨hv, hrel⟩ := ih fun x hx => hp x (List.mem_cons_of_mem _ hx)
      exact ⟨hp u (by simp), ReflTransGen.head ⟨harc, hv⟩ hrel⟩
  · rintro ⟨hu, hrel⟩
    induction hrel using ReflTransGen.head_induction_on with
    | refl => exact ⟨[v], Walk.stay v, by simpa using hu⟩
    | @head a b hstep _ ih =>
      obtain ⟨p, hwalk, hp⟩ := ih hstep.2
      refine ⟨a :: p, Walk.go hstep.1 hwalk, fun x hx => ?_⟩
      rcases List.mem_cons.mp hx with rfl | hx
      · exact hu
      · exact hp x hx

omit [DecidableEq α] in
theorem reaches_iff {u v : α} :
    Reaches sucs u v ↔ ReflTransGen (fun a b => b ∈ sucs a) u v := by
  have h := @exists_walk_iff α sucs (fun _ => True) u v
  simpa [Reaches] using h

omit [DecidableEq α] in
/-- A vertex is dominated unless a walk avoids the other one. -/
theorem dominates_iff {d v : α} : Dominates sucs root d v ↔
    ¬(root ≠ d ∧ ReflTransGen (fun a b => b ∈ sucs a ∧ b ≠ d) root v) := by
  rw [← exists_walk_iff (P := fun x => x ≠ d)]
  constructor
  · rintro h ⟨p, hwalk, hp⟩
    exact hp d (h p hwalk) rfl
  · intro h p hwalk
    by_contra hd
    exact h ⟨p, hwalk, fun x hx heq => hd (heq ▸ hx)⟩

omit [DecidableEq α] in
theorem Walk.last_mem {u v : α} {p : List α} (h : Walk sucs u v p) : v ∈ p := by
  induction h with
  | stay u => exact List.mem_singleton.mpr rfl
  | go _ _ ih => exact List.mem_cons_of_mem _ ih

omit [DecidableEq α] in
theorem dominates_self (v : α) : Dominates sucs root v v := fun _ h => h.last_mem

omit [DecidableEq α] in
/-- A walk that avoids `d` carries a vertex that `d` does not dominate on. -/
theorem dominates_of_walk {d u v : α} (h : Dominates sucs root d v)
    (hrel : ReflTransGen (fun a b => b ∈ sucs a ∧ b ≠ d) u v) : Dominates sucs root d u := by
  rw [dominates_iff] at h ⊢
  rintro ⟨hne, hto⟩
  exact h ⟨hne, hto.trans hrel⟩

omit [DecidableEq α] in
/-- The walk up to the first time it is at `d`. -/
theorem Walk.upto {u v d : α} {p : List α} (h : Walk sucs u v p) (hd : d ∈ p) :
    ∃ q, Walk sucs u d q ∧ q ⊆ p := by
  classical
  induction h with
  | stay u =>
    obtain rfl := List.mem_singleton.mp hd
    exact ⟨[d], Walk.stay d, fun _ h => h⟩
  | @go u w v p harc _ ih =>
    by_cases heq : d = u
    · subst heq
      exact ⟨[d], Walk.stay d, by simp⟩
    · obtain ⟨q, hq, hsub⟩ := ih ((List.mem_cons.mp hd).resolve_left heq)
      exact ⟨u :: q, Walk.go harc hq, List.cons_subset_cons _ hsub⟩

omit [DecidableEq α] in
theorem dominates_trans {c d v : α} (hcd : Dominates sucs root c d)
    (hdv : Dominates sucs root d v) : Dominates sucs root c v := by
  intro p hwalk
  obtain ⟨q, hq, hsub⟩ := hwalk.upto (hdv p hwalk)
  exact hsub (hcd q hq)

end Avoid

section Dominator

variable {sucs : α → List α} {root : α} {vs : List α} {parent : α → Option α}

omit [DecidableEq α] in
theorem Via.walk {P : α → Prop} {u v : α} (h : Via sucs vs P u v) :
    ReflTransGen (fun a b => b ∈ sucs a ∧ P b) u v :=
  ReflTransGen.mono (fun _ _ hab => ⟨hab.1.2, hab.2⟩) _ _ h

theorem Spanning.via_of_walk (h : Spanning sucs root vs parent) {P : α → Prop} {u v : α}
    (hu : u ∈ vs) (hrel : ReflTransGen (fun a b => b ∈ sucs a ∧ P b) u v) :
    Via sucs vs P u v := by
  induction hrel with
  | refl => exact ReflTransGen.refl
  | tail _ hstep ih => exact ih.tail ⟨⟨h.via_mem ih hu, hstep.1⟩, hstep.2⟩

/-- The vertices of the search are those the root reaches. -/
theorem Spanning.mem_iff (h : Spanning sucs root vs parent) {v : α} :
    v ∈ vs ↔ Reaches sucs root v := by
  rw [reaches_iff]
  constructor
  · intro hv
    have hvia := h.via_tree (P := fun _ => True) (h.root_anc hv) fun _ _ _ _ => trivial
    exact ReflTransGen.mono (fun _ _ hab => hab.1) _ _ hvia.walk
  · intro hrel
    have hrel' : ReflTransGen (fun a b => b ∈ sucs a ∧ True) root v :=
      ReflTransGen.mono (fun _ _ hab => ⟨hab, trivial⟩) _ _ hrel
    exact h.via_mem (h.via_of_walk h.root_mem hrel') h.root_mem

/-- Dominators are ancestors. -/
theorem Spanning.dom_anc (h : Spanning sucs root vs parent) {d v : α} (hv : v ∈ vs)
    (hdom : Dominates sucs root d v) : Anc parent d v := by
  by_contra hnot
  rw [dominates_iff] at hdom
  apply hdom
  constructor
  · rintro rfl
    exact hnot (h.root_anc hv)
  · refine (h.via_tree (h.root_anc hv) fun x _ _ hxv => ?_).walk
    rintro rfl
    exact hnot hxv

/-- An ancestor dominates when no walk through later vertices enters the part
of the tree between from before it. -/
theorem Spanning.dominates_of_between (h : Spanning sucs root vs parent) {t w : α}
    (hanc : Anc parent t w) (hsemi : ∀ y, Anc parent t y → y ≠ t → Anc parent y w →
      ∀ x, SemiPath sucs vs x y → vs.idxOf t ≤ vs.idxOf x) : Dominates sucs root t w := by
  rw [dominates_iff]
  rintro ⟨hroot, hrel⟩
  have hwalk := h.via_of_walk h.root_mem hrel
  let Between (z : α) : Prop := Anc parent t z ∧ z ≠ t ∧ Anc parent z w
  let Q (z : α) : Prop := vs.idxOf t ≤ vs.idxOf z ∧ z ≠ t ∧ ¬Between z
  -- the last vertex before `t` and the walk from there
  have hlast {c : α} (hvia : Via sucs vs (fun z => z ≠ t) root c) :
      ¬Between c ∧ ∃ x, vs.idxOf x < vs.idxOf t ∧ Via sucs vs Q x c := by
    induction hvia with
    | refl =>
      have hpos := h.idx_pos hroot.symm
      have hidx := h.idx_root
      constructor
      · intro hbet
        have hle := h.anc_le hbet.1
        omega
      · exact ⟨root, by omega, ReflTransGen.refl⟩
    | @tail c c' _ hstep ih =>
      obtain ⟨_, x, hx, hvia⟩ := ih
      have hc' := h.closed c hstep.1.1 c' hstep.1.2
      have hnot : ¬Between c' := by
        intro hbet
        have hpath : SemiPath sucs vs x c' := by
          apply h.semiPath_of_via _ _ hvia hstep.1
          · exact fun hq => hq.2.2 hbet
          · intro m hm hanc'
            exact hm.2.2 ⟨h.anc_chain hc' hbet.1 hanc' hm.1, hm.2.1, hanc'.trans hbet.2.2⟩
        have hle := hsemi c' hbet.1 hbet.2.1 hbet.2.2 x hpath
        omega
      refine ⟨hnot, ?_⟩
      rcases Nat.lt_or_ge (vs.idxOf c') (vs.idxOf t) with hlt | hge
      · exact ⟨c', hlt, ReflTransGen.refl⟩
      · exact ⟨x, hx, ReflTransGen.tail hvia ⟨hstep.1, hge, hstep.2, hnot⟩⟩
  have hne : w ≠ t := by
    rcases Via.last hwalk with heq | hne
    · rw [← heq]
      exact hroot
    · exact hne
  exact (hlast hwalk).1 ⟨hanc, hne, ReflTransGen.refl⟩

/-- A strict dominator of `w` dominates every vertex with a walk to `w` through
later vertices. -/
theorem Spanning.dominates_semi (h : Spanning sucs root vs parent) {d s w : α} (hw : w ∈ vs)
    (hdom : Dominates sucs root d w) (hne : d ≠ w) (hpath : SemiPath sucs vs s w) :
    Dominates sucs root d s := by
  obtain ⟨c, hvia, harc⟩ := hpath
  have hlt : vs.idxOf d < vs.idxOf w := by
    rcases h.anc_cases (h.dom_anc hw hdom) with heq | ⟨_, _, hlt⟩
    · exact absurd heq hne
    · exact hlt
  apply dominates_of_walk hdom
  refine ReflTransGen.tail (Via.mono hvia fun x hx => ?_).walk ⟨harc.2, hne.symm⟩
  rintro rfl
  exact absurd hx (by omega)

/-- No walk enters the part of the tree under a dominator from before it. -/
theorem Spanning.le_of_dominates (h : Spanning sucs root vs parent) {z u y x : α} (hu : u ∈ vs)
    (hdom : Dominates sucs root z u) (hzy : Anc parent z y) (hne : y ≠ z)
    (hyu : Anc parent y u) (hpath : SemiPath sucs vs x y) : vs.idxOf z ≤ vs.idxOf x := by
  have hy := h.anc_mem hyu hu
  have hzu : z ≠ u := by
    rintro rfl
    exact hne (h.anc_antisymm hyu hzy)
  by_contra hlt
  have hdown : ReflTransGen (fun a b => b ∈ sucs a ∧ b ≠ z) y u := by
    refine (h.via_tree hyu fun b hyb _ _ => ?_).walk
    rintro rfl
    exact hne (h.anc_antisymm hyb hzy)
  have hx := h.dominates_semi hy (dominates_of_walk hdom hdown) hne.symm hpath
  have hle := h.anc_le (h.dom_anc hpath.mem hx)
  omega

/-- The semidominator is the immediate dominator when no vertex between has an
earlier one. -/
theorem Spanning.immediate_of_semi (h : Spanning sucs root vs parent) {s w : α} (hw : w ∈ vs)
    (hne : w ≠ root) (hs : IsSemi sucs vs s w)
    (hleast : ∀ y, Anc parent s y → y ≠ s → Anc parent y w →
      ∀ x, SemiPath sucs vs x y → vs.idxOf s ≤ vs.idxOf x) :
    ImmediateDominator sucs root s w := by
  obtain ⟨hanc, hlt⟩ := h.semi_anc hw hne hs
  constructor
  case dominates => exact h.dominates_of_between hanc hleast
  case strict =>
    rintro rfl
    exact absurd hlt (Nat.lt_irrefl _)
  case nearest =>
    intro c hc hcw
    exact h.dominates_semi hw hc hcw hs.path

/-- The immediate dominator of the vertex between with the least semidominator
is the immediate dominator. -/
theorem Spanning.immediate_of_least (h : Spanning sucs root vs parent) {s w u su z : α}
    (hw : w ∈ vs) (hne : w ≠ root) (hs : IsSemi sucs vs s w) (hsu : Anc parent s u)
    (hus : u ≠ s) (huw : Anc parent u w) (hsemi : IsSemi sucs vs su u)
    (hleast : ∀ y, Anc parent s y → y ≠ s → Anc parent y w →
      ∀ x, SemiPath sucs vs x y → vs.idxOf su ≤ vs.idxOf x)
    (hz : ImmediateDominator sucs root z u) : ImmediateDominator sucs root z w := by
  have hu := h.anc_mem huw hw
  have hroot : u ≠ root := by
    rintro rfl
    exact hus (h.anc_antisymm (h.root_anc (h.anc_mem hsu hu)) hsu)
  have hsuPath := hsemi.path
  have hzsu := h.dom_anc hsuPath.mem (h.dominates_semi hu hz.dominates hz.strict hsuPath)
  have hzu := h.dom_anc hu hz.dominates
  have hzle := h.anc_le hzsu
  constructor
  case dominates =>
    apply h.dominates_of_between (hzu.trans huw)
    intro y hzy hyz hyw x hpath
    -- `y` is under `s`, or between `z` and `u`
    rcases Nat.lt_or_ge (vs.idxOf s) (vs.idxOf y) with hlt | hge
    · have hys : y ≠ s := by
        rintro rfl
        exact absurd hlt (Nat.lt_irrefl _)
      have hsy := h.anc_chain hw (hsu.trans huw) hyw (Nat.le_of_lt hlt)
      have hle := hleast y hsy hys hyw x hpath
      omega
    · have hyu := (h.anc_chain hw hyw (hsu.trans huw) hge).trans hsu
      exact h.le_of_dominates hu hz.dominates hzy hyz hyu hpath
  case strict =>
    rintro rfl
    exact hz.strict (h.anc_antisymm hzu huw)
  case nearest =>
    intro c hc hcw
    have hcs := h.dom_anc (h.anc_mem (hsu.trans huw) hw)
      (h.dominates_semi hw hc hcw hs.path)
    have hcu : c ≠ u := by
      rintro rfl
      exact hus (h.anc_antisymm hcs hsu)
    apply hz.nearest c _ hcu
    apply dominates_of_walk hc
    refine (h.via_tree huw fun x hux _ _ => ?_).walk
    rintro rfl
    exact hus (h.anc_antisymm (hux.trans hcs) hsu)

theorem Spanning.immediate_unique (h : Spanning sucs root vs parent) {c d v : α} (hv : v ∈ vs)
    (hc : ImmediateDominator sucs root c v) (hd : ImmediateDominator sucs root d v) : c = d := by
  have hcv := h.dom_anc hv hc.dominates
  have hdv := h.dom_anc hv hd.dominates
  apply h.anc_antisymm
  · exact h.dom_anc (h.anc_mem hdv hv) (hd.nearest c hc.dominates hc.strict)
  · exact h.dom_anc (h.anc_mem hcv hv) (hc.nearest d hd.dominates hd.strict)

end Dominator

end DepthFirst
