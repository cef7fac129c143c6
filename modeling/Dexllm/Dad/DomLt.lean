import Mathlib.Data.List.Dedup
import Dexllm.Dad.Graph

/-!
`DomLt` computes immediate dominators by the Lengauer-Tarjan algorithm:
semidominators from the last vertex of the search to the first one, over a
forest with compressed paths, then dominators from the first to the last. The
order in which a set is iterated is a parameter.
-/

namespace Dexllm.Dad

open DepthFirst Relation

variable {α : Type} [DecidableEq α]

/-- The tables `DomLt` changes after the search. -/
structure DomState (α : Type) where
  semi : α → Nat
  label : α → α
  ancestor : α → Option α
  bucket : α → List α
  dom : α → Option α

/-- The order in which the round of a vertex goes through its `pred` set and
through the bucket of its parent. -/
structure SetOrders (α : Type) where
  pred : α → List α → List α
  bucket : α → List α → List α
  predPerm : ∀ w l, (pred w l).Perm l
  bucketPerm : ∀ w l, (bucket w l).Perm l

/-- Vertices are numbered from 1 on. -/
def vertex (d : DepthFirst.State α) (i : Nat) : Option α :=
  if i = 0 then none else d.entered[i - 1]?

def pred (d : DepthFirst.State α) (w : α) : List α :=
  ((d.seen.filter fun arc => arc.2 = w).map Prod.fst).dedup

namespace DomState

/-- The vertices with a grandparent in the forest, from `cur` up. -/
def compressPath (st : DomState α) : Nat → α → List α
  | 0, _ => []
  | fuel + 1, cur =>
    match st.ancestor cur with
    | none => []
    | some u => if (st.ancestor u).isSome then cur :: compressPath st fuel u else []

def compressNode (node : α) (st : DomState α) : DomState α :=
  match st.ancestor node with
  | none => st
  | some u =>
    { st with
      label := if st.semi (st.label u) < st.semi (st.label node) then
        Function.update st.label node (st.label u) else st.label
      ancestor := Function.update st.ancestor node (st.ancestor u) }

/-- The updates start from the deepest vertex collected. -/
def compress (st : DomState α) (fuel : Nat) (v : α) : DomState α :=
  (st.compressPath fuel v).foldr compressNode st

def eval (st : DomState α) (fuel : Nat) (v : α) : DomState α × α :=
  if (st.ancestor v).isSome then
    let st := st.compress fuel v
    (st, st.label v)
  else (st, v)

def link (st : DomState α) (v w : α) : DomState α :=
  { st with ancestor := Function.update st.ancestor w (some v) }

def lowerSemi (st : DomState α) (w u : α) : DomState α :=
  if st.semi u < st.semi w then
    { st with semi := Function.update st.semi w (st.semi u) }
  else st

/-- Step 2 at one predecessor `v` of `w`, with `y_vertex`. -/
def lookPred (d : DepthFirst.State α) (w : α) (acc : DomState α × Option α) (v : α) :
    DomState α × Option α :=
  let (st, u) := acc.1.eval d.entered.length v
  let st := st.lowerSemi w u
  (st, vertex d (st.semi w))

/-- Step 3 at one vertex `v` of the bucket of `pw`. -/
def drain (d : DepthFirst.State α) (pw : α) (st : DomState α) (v : α) : DomState α :=
  let (st, u) := st.eval d.entered.length v
  { st with dom := Function.update st.dom v (some (if st.semi u < st.semi v then u else pw)) }

/-- Steps 2 and 3 at the vertex `w`. -/
def round (d : DepthFirst.State α) (orders : SetOrders α) (st : DomState α) (w : α) :
    DomState α :=
  let (st, yVertex) := (orders.pred w (pred d w)).foldl (lookPred d w) (st, none)
  let st := match yVertex with
    | none => st
    | some y => { st with bucket := Function.update st.bucket y (pushNew (st.bucket y) w) }
  match d.parent w with
  | none => st
  | some pw =>
    let st := st.link pw w
    let bpw := st.bucket pw
    (orders.bucket w bpw).foldl (drain d pw)
      { st with bucket := Function.update st.bucket pw [] }

/-- Step 4 at the vertex `w`. -/
def settle (d : DepthFirst.State α) (semi : α → Nat) (dom : α → Option α) (w : α) : α → Option α :=
  match dom w with
  | none => dom
  | some dw => if vertex d (semi w) = some dw then dom else Function.update dom w (dom dw)

/-- The tables after step 1. -/
def start (d : DepthFirst.State α) : DomState α where
  semi := fun v => if v ∈ d.entered then d.entered.idxOf v + 1 else 0
  label := id
  ancestor := fun _ => none
  bucket := fun _ => []
  dom := fun _ => none

end DomState

open DomState in
/-- Vertex `n` comes first in steps 2 and 3 and last in step 4, vertex 1 is the
entry. A vertex without an entry in `dom` or with a null one gives `none`. -/
def domLt (orders : SetOrders α) (g : Graph α) : α → Option α :=
  match g.entry with
  | none => fun _ => none
  | some entry =>
    let d := g.dfs entry
    let st := d.entered.tail.reverse.foldl (round d orders) (start d)
    let dom := d.entered.tail.foldl (settle d st.semi) st.dom
    Function.update dom entry none

end Dexllm.Dad

/-!
The forest of `DomLt`. Compressing paths keeps what a label means, so that
evaluating a vertex finds the least semidominator on the path to the root of
its tree.
-/

namespace Dexllm.Dad

open DepthFirst Relation

variable {α : Type} [DecidableEq α]

/-- The vertices of the tree below `a` and above or at `v`. -/
structure Under (parent : α → Option α) (a x v : α) : Prop where
  above : Anc parent a x
  ne : x ≠ a
  below : Anc parent x v

/-- The forest of the vertices `linked` so far: the label of a vertex has the
least `semi` on the path to its ancestor. -/
structure Forest (parent : α → Option α) (linked : α → Prop) (st : DomState α) : Prop where
  linked_iff : ∀ v, linked v ↔ (st.ancestor v).isSome
  down : ∀ v w, linked v → Anc parent v w → linked w
  own : ∀ v, ¬linked v → st.label v = v
  anc : ∀ v a, st.ancestor v = some a → Anc parent a v ∧ a ≠ v
  inside : ∀ v a x, st.ancestor v = some a → Under parent a x v → linked x
  label : ∀ v a, st.ancestor v = some a → Under parent a (st.label v) v
  least : ∀ v a x, st.ancestor v = some a → Under parent a x v → st.semi (st.label v) ≤ st.semi x

/-- The tables that evaluating a vertex leaves alone. -/
structure Kept (st st' : DomState α) : Prop where
  semi : st'.semi = st.semi
  bucket : st'.bucket = st.bucket
  dom : st'.dom = st.dom

section Forest

variable {sucs : α → List α} {root : α} {vs : List α} {parent : α → Option α}
  {linked : α → Prop} {st : DomState α}

omit [DecidableEq α] in
theorem Kept.refl (st : DomState α) : Kept st st := ⟨rfl, rfl, rfl⟩

omit [DecidableEq α] in
theorem Kept.trans {st st' st'' : DomState α} (h : Kept st st') (h' : Kept st' st'') :
    Kept st st'' :=
  ⟨h'.semi.trans h.semi, h'.bucket.trans h.bucket, h'.dom.trans h.dom⟩

theorem kept_compressNode (node : α) (st : DomState α) : Kept st (st.compressNode node) := by
  unfold DomState.compressNode
  split
  · exact Kept.refl st
  · exact ⟨rfl, rfl, rfl⟩

/-- A vertex between two ends is on one side of a vertex between them. -/
theorem Under.split (hsp : Spanning sucs root vs parent) {a u x v : α} (hv : v ∈ vs)
    (hx : Under parent a x v) (huv : Anc parent u v) : Under parent a x u ∨ Under parent u x v := by
  rcases Nat.lt_or_ge (vs.idxOf u) (vs.idxOf x) with hlt | hge
  · refine .inr ⟨hsp.anc_chain hv huv hx.below (Nat.le_of_lt hlt), ?_, hx.below⟩
    rintro rfl
    exact absurd hlt (Nat.lt_irrefl _)
  · exact .inl ⟨hx.above, hx.ne, hsp.anc_chain hv hx.below huv hge⟩

/-- Making the grandparent in the forest the parent. -/
theorem Forest.compressNode (hsp : Spanning sucs root vs parent) (h : Forest parent linked st)
    {node u a : α} (hu : st.ancestor node = some u) (ha : st.ancestor u = some a) :
    Forest parent linked (st.compressNode node) := by
  obtain ⟨hun, hne⟩ := h.anc node u hu
  obtain ⟨hau, hne'⟩ := h.anc u a ha
  have hnode : node ∈ vs := by
    rcases hsp.anc_cases hun with heq | ⟨_, hmem, _⟩
    · exact absurd heq hne
    · exact hmem
  have hlinked : linked node := (h.linked_iff node).mpr (by simp [hu])
  have hup {x : α} (hx : Under parent u x node) : Under parent a x node :=
    ⟨hau.trans hx.above, fun heq => hx.ne (hsp.anc_antisymm (heq ▸ hau) hx.above), hx.below⟩
  have hsplit {x : α} (hx : Under parent a x node) := hx.split hsp hnode hun
  have hnew : st.compressNode node = { st with
      label := if st.semi (st.label u) < st.semi (st.label node) then
        Function.update st.label node (st.label u) else st.label
      ancestor := Function.update st.ancestor node (some a) } := by
    simp only [DomState.compressNode, hu, ha]
  -- away from `node` both tables are as before
  have hother {v : α} (hv : v ≠ node) :
      (st.compressNode node).ancestor v = st.ancestor v ∧
        (st.compressNode node).label v = st.label v := by
    rw [hnew]
    refine ⟨Function.update_of_ne hv .., ?_⟩
    dsimp only
    split
    · exact Function.update_of_ne hv ..
    · rfl
  have hanc : (st.compressNode node).ancestor node = some a := by
    rw [hnew]
    exact Function.update_self ..
  have hlabel : Under parent a ((st.compressNode node).label node) node ∧
      st.semi ((st.compressNode node).label node) ≤ st.semi (st.label u) ∧
      st.semi ((st.compressNode node).label node) ≤ st.semi (st.label node) := by
    rw [hnew]
    dsimp only
    split
    next hlt =>
      rw [Function.update_self]
      have hlab := h.label u a ha
      exact ⟨⟨hlab.above, hlab.ne, hlab.below.trans hun⟩, Nat.le_refl _, Nat.le_of_lt hlt⟩
    next hge => exact ⟨hup (h.label node u hu), by omega, Nat.le_refl _⟩
  have hsemi := (kept_compressNode node st).semi
  constructor
  case linked_iff =>
    intro v
    rcases eq_or_ne v node with rfl | hv
    · simp [hanc, hlinked]
    · rw [(hother hv).1]
      exact h.linked_iff v
  case down => exact h.down
  case own =>
    intro v hv
    have hv' : v ≠ node := by
      rintro rfl
      exact hv hlinked
    rw [(hother hv').2]
    exact h.own v hv
  case anc =>
    intro v b hb
    rcases eq_or_ne v node with rfl | hv
    · obtain rfl := Option.some.inj (hanc.symm.trans hb)
      refine ⟨hau.trans hun, ?_⟩
      rintro rfl
      exact hne' (hsp.anc_antisymm hau hun)
    · rw [(hother hv).1] at hb
      exact h.anc v b hb
  case inside =>
    intro v b x hb hx
    rcases eq_or_ne v node with rfl | hv
    · obtain rfl := Option.some.inj (hanc.symm.trans hb)
      rcases hsplit hx with hx | hx
      · exact h.inside u a x ha hx
      · exact h.inside v u x hu hx
    · rw [(hother hv).1] at hb
      exact h.inside v b x hb hx
  case label =>
    intro v b hb
    rcases eq_or_ne v node with rfl | hv
    · obtain rfl := Option.some.inj (hanc.symm.trans hb)
      exact hlabel.1
    · rw [(hother hv).1] at hb
      rw [(hother hv).2]
      exact h.label v b hb
  case least =>
    intro v b x hb hx
    rw [hsemi]
    rcases eq_or_ne v node with rfl | hv
    · obtain rfl := Option.some.inj (hanc.symm.trans hb)
      rcases hsplit hx with hx | hx
      · exact hlabel.2.1.trans (h.least u a x ha hx)
      · exact hlabel.2.2.trans (h.least v u x hu hx)
    · rw [(hother hv).1] at hb
      rw [(hother hv).2]
      exact h.least v b x hb hx

/-- Compressing the path from `v` leaves `v` directly under the root of its
tree in the forest. -/
theorem Forest.compress (hsp : Spanning sucs root vs parent) (h : Forest parent linked st)
    {fuel : Nat} {v : α} (hfuel : vs.idxOf v < fuel) :
    Forest parent linked (st.compress fuel v) ∧ Kept st (st.compress fuel v) ∧
      (∀ u, st.ancestor v = some u →
        ∃ r, (st.compress fuel v).ancestor v = some r ∧ ¬linked r) ∧
      ∀ x, ¬Anc parent x v → (st.compress fuel v).ancestor x = st.ancestor x := by
  unfold DomState.compress
  induction fuel generalizing v with
  | zero => exact absurd hfuel (Nat.not_lt_zero _)
  | succ fuel ih =>
    cases hu : st.ancestor v with
    | none =>
      have hpath : st.compressPath (fuel + 1) v = [] := by simp [DomState.compressPath, hu]
      rw [hpath]
      refine ⟨h, Kept.refl st, ?_, fun _ _ => rfl⟩
      intro u hu'
      cases hu'
    | some u =>
      obtain ⟨huv, hne⟩ := h.anc v u hu
      cases ha : st.ancestor u with
      | none =>
        have hpath : st.compressPath (fuel + 1) v = [] := by
          simp [DomState.compressPath, hu, ha]
        rw [hpath]
        refine ⟨h, Kept.refl st, ?_, fun _ _ => rfl⟩
        intro u' hu'
        obtain rfl := Option.some.inj hu'
        refine ⟨u, hu, fun hlinked => ?_⟩
        rw [h.linked_iff u, ha] at hlinked
        cases hlinked
      | some a =>
        have hlt : vs.idxOf u < fuel := by
          rcases hsp.anc_cases huv with heq | ⟨_, _, hlt⟩
          · exact absurd heq hne
          · omega
        obtain ⟨hforest, hkept, hroot, hframe⟩ := ih hlt
        obtain ⟨r, hr, hnot⟩ := hroot a ha
        have hv : (List.foldr DomState.compressNode st (st.compressPath fuel u)).ancestor v =
            some u := by
          rw [hframe v fun hvu => hne (hsp.anc_antisymm huv hvu), hu]
        have hpath : st.compressPath (fuel + 1) v = v :: st.compressPath fuel u := by
          simp [DomState.compressPath, hu, ha]
        rw [hpath, List.foldr_cons]
        refine ⟨hforest.compressNode hsp hv hr, hkept.trans (kept_compressNode _ _), ?_, ?_⟩
        · intro _ _
          refine ⟨r, ?_, hnot⟩
          simp [DomState.compressNode, hv, hr]
        · intro x hx
          have hxv : x ≠ v := by
            rintro rfl
            exact hx ReflTransGen.refl
          simp only [DomState.compressNode, hv]
          rw [Function.update_of_ne hxv, hframe x fun hxu => hx (hxu.trans huv)]

/-- What evaluating `v` answers: the vertex itself outside the forest, else the
vertex with the least `semi` among the linked ones above it. -/
structure Evaluated (parent : α → Option α) (linked : α → Prop) (st st' : DomState α) (v u : α) :
    Prop where
  forest : Forest parent linked st'
  kept : Kept st st'
  outside : ¬linked v → u = v
  above : linked v → Anc parent u v
  inForest : linked v → linked u
  least : ∀ x, linked x → Anc parent x v → st.semi u ≤ st.semi x

theorem Forest.eval (hsp : Spanning sucs root vs parent) (h : Forest parent linked st)
    {fuel : Nat} {v : α} (hv : v ∈ vs) (hfuel : vs.idxOf v < fuel) :
    Evaluated parent linked st (st.eval fuel v).1 v (st.eval fuel v).2 := by
  unfold DomState.eval
  by_cases hlinked : linked v
  · have hsome := (h.linked_iff v).mp hlinked
    obtain ⟨u, hu⟩ := Option.isSome_iff_exists.mp hsome
    obtain ⟨hforest, hkept, hroot, _⟩ := h.compress hsp hfuel
    obtain ⟨r, hr, hnot⟩ := hroot u hu
    rw [if_pos hsome]
    have hlabel := hforest.label v r hr
    constructor
    case forest => exact hforest
    case kept => exact hkept
    case outside => exact fun hnot => absurd hlinked hnot
    case above => exact fun _ => hlabel.below
    case inForest => exact fun _ => hforest.inside v r _ hr hlabel
    case least =>
      intro x hx hxv
      rw [← hkept.semi]
      apply hforest.least v r x hr
      obtain ⟨hrv, _⟩ := hforest.anc v r hr
      rcases Nat.lt_or_ge (vs.idxOf x) (vs.idxOf r) with hlt | hge
      · exact absurd (h.down x r hx (hsp.anc_chain hv hxv hrv (Nat.le_of_lt hlt))) hnot
      · exact ⟨hsp.anc_chain hv hrv hxv hge, fun heq => hnot (heq ▸ hx), hxv⟩
  · rw [if_neg fun hsome => hlinked ((h.linked_iff v).mpr hsome)]
    constructor
    case forest => exact h
    case kept => exact Kept.refl st
    case outside => exact fun _ => rfl
    case above => exact fun hyes => absurd hyes hlinked
    case inForest => exact fun hyes => absurd hyes hlinked
    case least => exact fun x hx hxv => absurd (h.down x v hx hxv) hlinked

/-- A vertex outside the forest may get another `semi`. -/
theorem Forest.setSemi (h : Forest parent linked st) {w : α} (hw : ¬linked w) (k : Nat) :
    Forest parent linked { st with semi := Function.update st.semi w k } := by
  have hkeep {x : α} (hx : linked x) : Function.update st.semi w k x = st.semi x := by
    apply Function.update_of_ne
    rintro rfl
    exact hw hx
  refine { h with least := ?_ }
  intro v a x ha hx
  have hlabel := h.inside v a _ ha (h.label v a ha)
  change Function.update st.semi w k (st.label v) ≤ Function.update st.semi w k x
  rw [hkeep hlabel, hkeep (h.inside v a x ha hx)]
  exact h.least v a x ha hx

/-- Linking a vertex to its parent. -/
theorem Forest.link (hsp : Spanning sucs root vs parent) (h : Forest parent linked st) {w pw : α}
    (hpw : parent w = some pw) (hw : ¬linked w)
    (hdown : ∀ x, Anc parent w x → x ≠ w → linked x) :
    Forest parent (fun x => linked x ∨ x = w) (st.link pw w) := by
  obtain ⟨_, hangs⟩ := hsp.link hpw
  have hne : pw ≠ w := by
    rintro rfl
    exact absurd hangs.lt (Nat.lt_irrefl _)
  have hanc : Anc parent pw w := ReflTransGen.single hpw
  have hself : (st.link pw w).ancestor w = some pw := Function.update_self ..
  have hother {v : α} (hv : v ≠ w) : (st.link pw w).ancestor v = st.ancestor v :=
    Function.update_of_ne hv ..
  have honly {x : α} (hx : Under parent pw x w) : x = w := by
    by_contra hxw
    exact hx.ne (hsp.anc_antisymm (anc_parent hx.below hxw hpw) hx.above)
  constructor
  case linked_iff =>
    intro v
    rcases eq_or_ne v w with rfl | hv
    · simp [hself]
    · rw [hother hv, ← h.linked_iff v]
      simp [hv]
  case down =>
    intro v x hv hvx
    rcases hv with hv | rfl
    · exact .inl (h.down v x hv hvx)
    · by_cases hx : x = v
      · exact .inr hx
      · exact .inl (hdown x hvx hx)
  case own => exact fun v hv => h.own v fun hlinked => hv (.inl hlinked)
  case anc =>
    intro v a ha
    rcases eq_or_ne v w with rfl | hv
    · obtain rfl := Option.some.inj (hself.symm.trans ha)
      exact ⟨hanc, hne⟩
    · exact h.anc v a ((hother hv).symm.trans ha)
  case inside =>
    intro v a x ha hx
    rcases eq_or_ne v w with rfl | hv
    · obtain rfl := Option.some.inj (hself.symm.trans ha)
      exact .inr (honly hx)
    · exact .inl (h.inside v a x ((hother hv).symm.trans ha) hx)
  case label =>
    intro v a ha
    rcases eq_or_ne v w with rfl | hv
    · obtain rfl := Option.some.inj (hself.symm.trans ha)
      change Under parent pw (st.label v) v
      rw [h.own v hw]
      exact ⟨hanc, hne.symm, ReflTransGen.refl⟩
    · exact h.label v a ((hother hv).symm.trans ha)
  case least =>
    intro v a x ha hx
    rcases eq_or_ne v w with rfl | hv
    · obtain rfl := Option.some.inj (hself.symm.trans ha)
      change st.semi (st.label v) ≤ st.semi x
      rw [honly hx, h.own v hw]
    · exact h.least v a x ((hother hv).symm.trans ha) hx

end Forest

end Dexllm.Dad
