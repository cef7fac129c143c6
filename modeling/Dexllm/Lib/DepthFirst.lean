import Mathlib.Algebra.GroupWithZero.Nat
import Mathlib.Data.List.Chain
import Mathlib.Logic.Relation
import Mathlib.Logic.Function.Basic

/-!
Depth-first search with an explicit stack. A vertex is numbered when it is
entered, gets the vertex below it on the stack as its parent, and is left when
its successors have been looked at. `Spanning` says what the numbers and the
parents are good for: an arc to a later vertex leads down the tree, and the
vertices under one vertex have consecutive numbers.
-/

namespace DepthFirst

variable {α : Type} [DecidableEq α]

/-- A search under way: the vertices on the stack with the successors still to
look at, the vertices entered and left so far, in order, the arcs looked at. -/
structure State (α : Type) where
  stack : List (α × List α) := []
  entered : List α := []
  left : List α := []
  parent : α → Option α := fun _ => none
  seen : List (α × α) := []

/-- Enters a vertex from another one. -/
def State.enter (st : State α) (sucs : α → List α) (v : α) (parent : Option α) : State α :=
  { st with
    stack := (v, sucs v) :: st.stack
    entered := st.entered ++ [v]
    parent := Function.update st.parent v parent }

/-- One round of the search. -/
def step (sucs : α → List α) (st : State α) : State α :=
  match st.stack with
  | [] => st
  | (v, []) :: stack => { st with stack, left := st.left ++ [v] }
  | (v, w :: ws) :: stack =>
    let st := { st with stack := (v, ws) :: stack, seen := (v, w) :: st.seen }
    if w ∈ st.entered then st else st.enter sucs w (some v)

/-- At most `rounds` rounds. -/
def runFrom (sucs : α → List α) : Nat → State α → State α
  | 0, st => st
  | rounds + 1, st => if st.stack.isEmpty then st else runFrom sucs rounds (step sucs st)

/-- The search from `root` among the vertices `nodes`. -/
def run (sucs : α → List α) (nodes : List α) (root : α) : State α :=
  runFrom sucs (nodes.map fun v => (sucs v).length + 1).sum
    (({} : State α).enter sucs root none)

/-- `a` is `v` or an ancestor of it. -/
def Anc (parent : α → Option α) : α → α → Prop :=
  Relation.ReflTransGen fun a b => parent b = some a

/-- The arc from `v` to `w` has been looked at. -/
structure Looked (entered : List α) (parent : α → Option α) (seen : List (α × α)) (v w : α) :
    Prop where
  mem : w ∈ entered
  down : entered.idxOf v < entered.idxOf w → Anc parent v w
  logged : (v, w) ∈ seen

/-- The vertex `v` was entered from `p`. -/
structure Hangs (sucs : α → List α) (entered : List α) (parent : α → Option α) (v p : α) :
    Prop where
  link : parent v = some p
  mem : p ∈ entered
  arc : v ∈ sucs p
  lt : entered.idxOf p < entered.idxOf v
  between : ∀ x ∈ entered, entered.idxOf p ≤ entered.idxOf x →
    entered.idxOf x < entered.idxOf v → Anc parent p x

structure Inv (sucs : α → List α) (root : α) (st : State α) : Prop where
  nodup : st.entered.Nodup
  first : st.entered.head? = some root
  orphan : st.parent root = none
  fresh : ∀ v, v ∉ st.entered → st.parent v = none
  chain : st.stack.IsChain fun f f' => st.parent f.1 = some f'.1
  bottom : ∀ f, st.stack.getLast? = some f → f.1 = root
  parts : ∀ v, v ∈ st.entered ↔ v ∈ st.left ∨ v ∈ st.stack.map Prod.fst
  apart : ∀ v ∈ st.left, v ∉ st.stack.map Prod.fst
  leftNodup : st.left.Nodup
  stackNodup : (st.stack.map Prod.fst).Nodup
  frames : ∀ f ∈ st.stack, ∃ looked, sucs f.1 = looked ++ f.2 ∧ ∀ w ∈ looked,
    Looked st.entered st.parent st.seen f.1 w
  done : ∀ v ∈ st.left, ∀ w ∈ sucs v, Looked st.entered st.parent st.seen v w
  below : ∀ f ∈ st.stack, ∀ x ∈ st.entered, st.entered.idxOf f.1 ≤ st.entered.idxOf x →
    Anc st.parent f.1 x
  tree : ∀ v ∈ st.entered, v ≠ root → ∃ p, Hangs sucs st.entered st.parent v p
  arcs : ∀ v w, (v, w) ∈ st.seen → v ∈ st.entered ∧ w ∈ sucs v
  later : ∀ v ∈ st.left, ∀ p ∈ st.left, st.parent v = some p →
    st.left.idxOf v < st.left.idxOf p

section Invariant

variable {sucs : α → List α} {root v w : α} {st : State α}

omit [DecidableEq α] in
/-- The vertices of the stack are the top one's ancestors. -/
theorem anc_of_chain {parent : α → Option α} {f : α × List α} {stack : List (α × List α)}
    (h : (f :: stack).IsChain fun f f' => parent f.1 = some f'.1) :
    ∀ f' ∈ f :: stack, Anc parent f'.1 f.1 := by
  induction stack generalizing f with
  | nil =>
    intro f' hf'
    obtain rfl := List.mem_singleton.mp hf'
    exact Relation.ReflTransGen.refl
  | cons g stack ih =>
    obtain ⟨hlink, hrest⟩ := List.isChain_cons_cons.mp h
    intro f' hf'
    cases hf' with
    | head => exact Relation.ReflTransGen.refl
    | tail _ hf' => exact (ih hrest f' hf').tail hlink

theorem inv_start : Inv sucs root (({} : State α).enter sucs root none) := by
  have hparent : (({} : State α).enter sucs root none).parent = fun _ => none := by
    funext v
    by_cases hv : v = root
    · subst hv
      exact Function.update_self ..
    · exact Function.update_of_ne hv ..
  constructor
  case nodup => simp [State.enter]
  case first => rfl
  case orphan => rw [hparent]
  case fresh => simp [hparent]
  case chain => exact List.isChain_singleton _
  case bottom =>
    intro f hf
    obtain rfl := Option.some.inj hf
    rfl
  case parts => simp [State.enter]
  case apart => simp [State.enter]
  case leftNodup => exact List.nodup_nil
  case stackNodup => simp [State.enter]
  case frames =>
    intro f hf
    obtain rfl := List.mem_singleton.mp hf
    exact ⟨[], rfl, by simp⟩
  case done => simp [State.enter]
  case below =>
    intro f hf x hx _
    obtain rfl := List.mem_singleton.mp hf
    obtain rfl := List.mem_singleton.mp hx
    exact Relation.ReflTransGen.refl
  case tree =>
    intro v hv hne
    exact absurd (List.mem_singleton.mp hv) hne
  case arcs => simp [State.enter]
  case later => simp [State.enter]

/-- Leaving the vertex on top. -/
theorem inv_leave {stack : List (α × List α)} (h : Inv sucs root st)
    (hstack : st.stack = (v, []) :: stack) :
    Inv sucs root { st with stack, left := st.left ++ [v] } := by
  have hv : v ∉ st.left := by
    intro hleft
    exact h.apart v hleft (by simp [hstack])
  have hchain := h.chain
  have hnodup := h.stackNodup
  rw [hstack] at hchain hnodup
  rw [List.map_cons, List.nodup_cons] at hnodup
  constructor
  case nodup => exact h.nodup
  case first => exact h.first
  case orphan => exact h.orphan
  case fresh => exact h.fresh
  case chain => exact hchain.tail
  case bottom =>
    intro f hf
    apply h.bottom f
    rw [hstack, List.getLast?_cons, show stack.getLast? = some f from hf]
    rfl
  case parts =>
    intro x
    rw [h.parts x, hstack]
    simp only [List.map_cons, List.mem_cons, List.mem_append, List.not_mem_nil, or_false]
    tauto
  case apart =>
    intro x hx hmem
    rcases List.mem_append.mp hx with hx | hx
    · exact h.apart x hx (by rw [hstack, List.map_cons]; exact List.mem_cons_of_mem _ hmem)
    · obtain rfl := List.mem_singleton.mp hx
      exact hnodup.1 hmem
  case leftNodup =>
    rw [List.nodup_append]
    refine ⟨h.leftNodup, by simp, fun x hx y hy heq => ?_⟩
    obtain rfl := List.mem_singleton.mp hy
    exact hv (heq ▸ hx)
  case stackNodup => exact hnodup.2
  case frames =>
    intro f hf
    exact h.frames f (by rw [hstack]; exact List.mem_cons_of_mem _ hf)
  case done =>
    intro x hx w hw
    rcases List.mem_append.mp hx with hx | hx
    · exact h.done x hx w hw
    · obtain rfl := List.mem_singleton.mp hx
      obtain ⟨looked, hsucs, hlooked⟩ := h.frames (x, []) (by simp [hstack])
      rw [List.append_nil] at hsucs
      exact hlooked w (hsucs ▸ hw)
  case below =>
    intro f hf
    exact h.below f (by rw [hstack]; exact List.mem_cons_of_mem _ hf)
  case tree => exact h.tree
  case arcs => exact h.arcs
  case later =>
    intro x hx p hp hparent
    change (st.left ++ [v]).idxOf x < (st.left ++ [v]).idxOf p
    replace hx : x ∈ st.left ++ [v] := hx
    replace hp : p ∈ st.left ++ [v] := hp
    rcases List.mem_append.mp hx with hx | hx
    · rcases List.mem_append.mp hp with hp | hp
      · rw [List.idxOf_append_of_mem hx, List.idxOf_append_of_mem hp]
        exact h.later x hx p hp hparent
      · rw [List.mem_singleton.mp hp, List.idxOf_append_of_mem hx, List.idxOf_append_of_notMem hv]
        have hlt := List.idxOf_lt_length_of_mem hx
        omega
    · obtain rfl := List.mem_singleton.mp hx
      -- the parent of the vertex on top is the vertex below it, which is not left
      rcases List.mem_append.mp hp with hp | hp
      · cases stack with
        | nil =>
          have hroot := h.bottom (x, []) (by rw [hstack]; rfl)
          rw [show x = root from hroot, h.orphan] at hparent
          cases hparent
        | cons f stack =>
          have hnext := (List.isChain_cons_cons.mp hchain).1
          rw [hparent] at hnext
          obtain rfl := Option.some.inj hnext
          exact absurd (by simp [hstack]) (h.apart f.1 hp)
      · obtain rfl := List.mem_singleton.mp hp
        obtain ⟨q, hq⟩ := h.tree p ((h.parts p).mpr (.inr (by simp [hstack]))) (by
          rintro rfl
          rw [h.orphan] at hparent
          cases hparent)
        have hsame := hq.link.symm.trans hparent
        obtain rfl := Option.some.inj hsame
        exact absurd hq.lt (Nat.lt_irrefl _)

/-- Looking at an arc to an entered vertex. -/
theorem inv_look {ws : List α} {stack : List (α × List α)} (h : Inv sucs root st)
    (hstack : st.stack = (v, w :: ws) :: stack) (hw : w ∈ st.entered) :
    Inv sucs root { st with stack := (v, ws) :: stack, seen := (v, w) :: st.seen } := by
  have hnodup := h.stackNodup
  have hparts := h.parts
  have hapart := h.apart
  have hbottom := h.bottom
  have hchain := h.chain
  rw [hstack] at hnodup hparts hapart hbottom hchain
  have hlooked {x y : α} (hx : Looked st.entered st.parent st.seen x y) :
      Looked st.entered st.parent ((v, w) :: st.seen) x y :=
    ⟨hx.mem, hx.down, List.mem_cons_of_mem _ hx.logged⟩
  obtain ⟨looked, hsucs, hdone⟩ := h.frames (v, w :: ws) (by simp [hstack])
  constructor
  case nodup => exact h.nodup
  case first => exact h.first
  case orphan => exact h.orphan
  case fresh => exact h.fresh
  case chain =>
    cases stack with
    | nil => exact List.isChain_singleton _
    | cons f stack =>
      obtain ⟨hlink, hrest⟩ := List.isChain_cons_cons.mp hchain
      exact List.isChain_cons_cons.mpr ⟨hlink, hrest⟩
  case bottom =>
    intro f hf
    cases stack with
    | nil =>
      obtain rfl := Option.some.inj hf
      exact hbottom (v, w :: ws) rfl
    | cons f' stack =>
      exact hbottom f hf
  case parts => exact hparts
  case apart => exact hapart
  case leftNodup => exact h.leftNodup
  case stackNodup => exact hnodup
  case frames =>
    intro f hf
    cases hf with
    | head =>
      refine ⟨looked ++ [w], by simp [hsucs], fun y hy => ?_⟩
      rcases List.mem_append.mp hy with hy | hy
      · exact hlooked (hdone y hy)
      · obtain rfl := List.mem_singleton.mp hy
        refine ⟨hw, fun hlt => ?_, List.mem_cons_self⟩
        exact h.below (v, y :: ws) (by simp [hstack]) y hw (Nat.le_of_lt hlt)
    | tail _ hf =>
      obtain ⟨looked, hsucs, hdone⟩ := h.frames f (by rw [hstack]; exact List.mem_cons_of_mem _ hf)
      exact ⟨looked, hsucs, fun y hy => hlooked (hdone y hy)⟩
  case done => exact fun x hx y hy => hlooked (h.done x hx y hy)
  case below =>
    intro f hf
    cases hf with
    | head => exact h.below (v, w :: ws) (by simp [hstack])
    | tail _ hf => exact h.below f (by rw [hstack]; exact List.mem_cons_of_mem _ hf)
  case tree => exact h.tree
  case arcs =>
    intro x y hxy
    cases hxy with
    | head => exact ⟨(hparts v).mpr (.inr (by simp)), by simp [hsucs]⟩
    | tail _ hxy => exact h.arcs x y hxy
  case later => exact h.later

/-- Entering a vertex from the one on top. -/
theorem inv_enter {ws : List α} {stack : List (α × List α)} (h : Inv sucs root st)
    (hstack : st.stack = (v, w :: ws) :: stack) (hw : w ∉ st.entered) :
    Inv sucs root (State.enter { st with stack := (v, ws) :: stack, seen := (v, w) :: st.seen }
      sucs w (some v)) := by
  have hnodup := h.stackNodup
  have hparts := h.parts
  have hapart := h.apart
  have hbottom := h.bottom
  have hchain := h.chain
  rw [hstack] at hnodup hparts hapart hbottom hchain
  have hv : v ∈ st.entered := (hparts v).mpr (.inr (by simp))
  have hvw : v ≠ w := fun heq => hw (heq ▸ hv)
  obtain ⟨looked, hsucs, hdone⟩ := h.frames (v, w :: ws) (by simp [hstack])
  have hold {x : α} (hx : x ≠ w) : Function.update st.parent w (some v) x = st.parent x :=
    Function.update_of_ne hx ..
  have hnew : Function.update st.parent w (some v) w = some v := Function.update_self ..
  -- the new vertex had no parent, so the ancestors of the others stay
  have hanc {x y : α} (hxy : Anc st.parent x y) :
      Anc (Function.update st.parent w (some v)) x y := by
    refine Relation.ReflTransGen.mono (fun a b hab => ?_) _ _ hxy
    rw [hold]
    · exact hab
    · rintro rfl
      rw [h.fresh b hw] at hab
      cases hab
  have hidx {x : α} (hx : x ∈ st.entered) : (st.entered ++ [w]).idxOf x = st.entered.idxOf x :=
    List.idxOf_append_of_mem hx
  have hlast : (st.entered ++ [w]).idxOf w = st.entered.length := by
    rw [List.idxOf_append_of_notMem hw]
    simp
  have hlt {x : α} (hx : x ∈ st.entered) : st.entered.idxOf x < st.entered.length :=
    List.idxOf_lt_length_of_mem hx
  have hunder {u : α} (hu : Anc st.parent u v) :
      Anc (Function.update st.parent w (some v)) u w :=
    (hanc hu).tail hnew
  have hlooked {x y : α} (hx : x ∈ st.entered) (hxy : Looked st.entered st.parent st.seen x y) :
      Looked (st.entered ++ [w]) (Function.update st.parent w (some v)) ((v, w) :: st.seen) x y := by
    refine ⟨List.mem_append_left _ hxy.mem, fun hlt => ?_, List.mem_cons_of_mem _ hxy.logged⟩
    rw [hidx hx, hidx hxy.mem] at hlt
    exact hanc (hxy.down hlt)
  have hstacked (f : α × List α) (hf : f ∈ st.stack) : f.1 ∈ st.entered :=
    (h.parts f.1).mpr (.inr (List.mem_map_of_mem hf))
  have hthis : Looked (st.entered ++ [w]) (Function.update st.parent w (some v))
      ((v, w) :: st.seen) v w :=
    ⟨by simp, fun _ => hunder Relation.ReflTransGen.refl, List.mem_cons_self⟩
  constructor
  case nodup =>
    rw [State.enter, List.nodup_append]
    refine ⟨h.nodup, by simp, fun x hx y hy heq => ?_⟩
    obtain rfl := List.mem_singleton.mp hy
    exact hw (heq ▸ hx)
  case first =>
    have hfirst := h.first
    cases hentered : st.entered with
    | nil => rw [hentered] at hv; cases hv
    | cons x xs =>
      rw [hentered] at hfirst
      exact hfirst
  case orphan =>
    have hroot : root ∈ st.entered := List.mem_of_mem_head? h.first
    change Function.update st.parent w (some v) root = none
    rw [hold fun heq => hw (heq ▸ hroot)]
    exact h.orphan
  case fresh =>
    intro x hx
    simp only [State.enter, List.mem_append, List.mem_singleton, not_or] at hx
    change Function.update st.parent w (some v) x = none
    rw [hold hx.2]
    exact h.fresh x hx.1
  case chain =>
    change List.IsChain _ ((w, sucs w) :: (v, ws) :: stack)
    refine List.isChain_cons_cons.mpr ⟨hnew, ?_⟩
    have hkept : ((v, ws) :: stack).IsChain fun f f' => st.parent f.1 = some f'.1 := by
      cases stack with
      | nil => exact List.isChain_singleton _
      | cons f stack =>
        obtain ⟨hlink, hrest⟩ := List.isChain_cons_cons.mp hchain
        exact List.isChain_cons_cons.mpr ⟨hlink, hrest⟩
    refine hkept.imp fun f f' hlink => ?_
    change Function.update st.parent w (some v) f.1 = some f'.1
    rw [hold]
    · exact hlink
    · intro heq
      rw [heq, h.fresh w hw] at hlink
      cases hlink
  case bottom =>
    intro f hf
    cases stack with
    | nil =>
      obtain rfl := Option.some.inj hf
      exact hbottom (v, w :: ws) rfl
    | cons f' stack => exact hbottom f hf
  case parts =>
    intro x
    have hx := hparts x
    simp only [State.enter, List.mem_append, List.map_cons, List.mem_cons, List.not_mem_nil,
      or_false] at hx ⊢
    rw [hx]
    tauto
  case apart =>
    intro x hx hmem
    simp only [State.enter, List.map_cons, List.mem_cons] at hmem
    rcases hmem with rfl | hmem
    · exact hw ((h.parts x).mpr (.inl hx))
    · exact hapart x hx (by simpa using hmem)
  case leftNodup => exact h.leftNodup
  case stackNodup =>
    simp only [State.enter, List.map_cons]
    refine List.nodup_cons.mpr ⟨fun hmem => ?_, hnodup⟩
    exact hw ((hparts w).mpr (.inr hmem))
  case frames =>
    intro f hf
    cases hf with
    | head => exact ⟨[], rfl, by simp⟩
    | tail _ hf =>
      cases hf with
      | head =>
        refine ⟨looked ++ [w], by simp [hsucs], fun y hy => ?_⟩
        rcases List.mem_append.mp hy with hy | hy
        · exact hlooked hv (hdone y hy)
        · obtain rfl := List.mem_singleton.mp hy
          exact hthis
      | tail _ hf =>
        have hf' : f ∈ st.stack := by
          rw [hstack]
          exact List.mem_cons_of_mem _ hf
        obtain ⟨looked, hsucs, hdone⟩ := h.frames f hf'
        exact ⟨looked, hsucs, fun y hy => hlooked (hstacked f hf') (hdone y hy)⟩
  case done =>
    intro x hx y hy
    exact hlooked ((h.parts x).mpr (.inl hx)) (h.done x hx y hy)
  case below =>
    intro f hf x hx hle
    simp only [State.enter] at hf hx hle ⊢
    rcases List.mem_append.mp hx with hx | hx
    · cases hf with
      | head =>
        rw [hlast, hidx hx] at hle
        have hlt' := hlt hx
        omega
      | tail _ hf =>
        obtain ⟨f', hf', heq⟩ : ∃ f' ∈ st.stack, f'.1 = f.1 := by
          rw [hstack]
          cases hf with
          | head => exact ⟨(v, w :: ws), List.mem_cons_self, rfl⟩
          | tail _ hf => exact ⟨f, List.mem_cons_of_mem _ hf, rfl⟩
        rw [← heq, hidx (hstacked f' hf'), hidx hx] at hle
        rw [← heq]
        exact hanc (h.below f' hf' x hx hle)
    · obtain rfl := List.mem_singleton.mp hx
      cases hf with
      | head => exact Relation.ReflTransGen.refl
      | tail _ hf =>
        -- the vertex on top is under every vertex of the stack
        obtain ⟨f', hf', heq⟩ : ∃ f' ∈ st.stack, f'.1 = f.1 := by
          rw [hstack]
          cases hf with
          | head => exact ⟨(v, x :: ws), List.mem_cons_self, rfl⟩
          | tail _ hf => exact ⟨f, List.mem_cons_of_mem _ hf, rfl⟩
        rw [← heq]
        apply hunder
        apply anc_of_chain hchain f'
        rw [← hstack]
        exact hf'
  case tree =>
    intro x hx hne
    simp only [State.enter] at hx ⊢
    rcases List.mem_append.mp hx with hx | hx
    · obtain ⟨p, hp⟩ := h.tree x hx hne
      have hlate := hlt hx
      have hxw : x ≠ w := fun heq => hw (heq ▸ hx)
      refine ⟨p, ?_, List.mem_append_left _ hp.mem, hp.arc, ?_, ?_⟩
      · rw [hold hxw]
        exact hp.link
      · rw [hidx hp.mem, hidx hx]
        exact hp.lt
      · intro y hy hle hlt'
        rcases List.mem_append.mp hy with hy | hy
        · rw [hidx hp.mem, hidx hy] at hle
          rw [hidx hy, hidx hx] at hlt'
          exact hanc (hp.between y hy hle hlt')
        · rw [List.mem_singleton.mp hy, hlast, hidx hx] at hlt'
          omega
    · obtain rfl := List.mem_singleton.mp hx
      refine ⟨v, hnew, List.mem_append_left _ hv, by simp [hsucs], ?_, ?_⟩
      · rw [hidx hv, hlast]
        exact hlt hv
      · intro y hy hle hlt'
        rcases List.mem_append.mp hy with hy | hy
        · rw [hidx hv, hidx hy] at hle
          exact hanc (h.below (v, x :: ws) (by simp [hstack]) y hy hle)
        · obtain rfl := List.mem_singleton.mp hy
          exact absurd hlt' (Nat.lt_irrefl _)
  case arcs =>
    intro x y hxy
    simp only [State.enter] at hxy ⊢
    cases hxy with
    | head => exact ⟨List.mem_append_left _ hv, by simp [hsucs]⟩
    | tail _ hxy =>
      obtain ⟨hx, hy⟩ := h.arcs x y hxy
      exact ⟨List.mem_append_left _ hx, hy⟩
  case later =>
    intro x hx p hp hparent
    have hxw : x ≠ w := fun heq => hw (heq ▸ (h.parts x).mpr (.inl hx))
    change Function.update st.parent w (some v) x = some p at hparent
    rw [hold hxw] at hparent
    exact h.later x hx p hp hparent

theorem inv_step (h : Inv sucs root st) : Inv sucs root (step sucs st) := by
  unfold step
  split
  · exact h
  · rename_i v stack hstack
    exact inv_leave h hstack
  · rename_i v w ws stack hstack
    dsimp only
    split
    · rename_i hw
      exact inv_look h hstack hw
    · rename_i hw
      exact inv_enter h hstack hw

theorem inv_runFrom (rounds : Nat) (h : Inv sucs root st) :
    Inv sucs root (runFrom sucs rounds st) := by
  induction rounds generalizing st with
  | zero => exact h
  | succ rounds ih =>
    unfold runFrom
    split
    · exact h
    · exact ih (inv_step h)

end Invariant

section Rounds

variable {sucs : α → List α} {root : α} {nodes : List α} {st : State α}

theorem sum_filter_remove {l : List α} (hl : l.Nodup) {w : α} (hw : w ∈ l) {p q : α → Bool}
    (hp : p w = true) (hq : ∀ x, q x = (p x && decide (x ≠ w))) (f : α → Nat) :
    ((l.filter p).map f).sum = f w + ((l.filter q).map f).sum := by
  induction l with
  | nil => cases hw
  | cons x l ih =>
    obtain ⟨hx, hl⟩ := List.nodup_cons.mp hl
    by_cases hxw : x = w
    · subst hxw
      have hsame : l.filter q = l.filter p := by
        apply List.filter_congr
        intro y hy
        have hne : y ≠ x := fun heq => hx (heq ▸ hy)
        rw [hq y]
        simp [hne]
      rw [List.filter_cons_of_pos hp, List.filter_cons_of_neg (by simp [hq]), hsame]
      rfl
    · have hmem : w ∈ l := by
        rcases List.mem_cons.mp hw with heq | hmem
        · exact absurd heq.symm hxw
        · exact hmem
      have hrest := ih hl hmem
      have hqx : q x = p x := by simp [hq, hxw]
      cases hpx : p x with
      | true =>
        rw [List.filter_cons_of_pos hpx, List.filter_cons_of_pos (hqx.trans hpx), List.map_cons,
          List.map_cons, List.sum_cons, List.sum_cons, hrest]
        omega
      | false =>
        rw [List.filter_cons_of_neg (by simp [hpx]), List.filter_cons_of_neg (by simp [hqx, hpx]),
          hrest]

/-- The rounds a search still needs. -/
def pending (sucs : α → List α) (nodes : List α) (st : State α) : Nat :=
  (st.stack.map fun f => f.2.length + 1).sum +
    ((nodes.filter fun v => !st.entered.contains v).map fun v => (sucs v).length + 1).sum

theorem pending_step (hnodes : nodes.Nodup) (hclosed : ∀ v w, w ∈ sucs v → w ∈ nodes)
    (h : Inv sucs root st) (hstack : st.stack ≠ []) :
    pending sucs nodes (step sucs st) < pending sucs nodes st := by
  unfold step
  split
  · rename_i hnil
    exact absurd hnil hstack
  · rename_i v stack hstack
    simp only [pending, hstack, List.map_cons, List.sum_cons, List.length_nil]
    omega
  · rename_i v w ws stack hstack
    obtain ⟨looked, hsucs, _⟩ := h.frames (v, w :: ws) (by simp [hstack])
    dsimp only
    split
    · simp only [pending, hstack, List.map_cons, List.sum_cons, List.length_cons]
      omega
    · rename_i hw
      have hsum := sum_filter_remove hnodes (hclosed v w (by simp [hsucs]))
        (p := fun v => !st.entered.contains v) (q := fun v => !(st.entered ++ [w]).contains v)
        (by simpa using hw) (fun x => by simp) fun v => (sucs v).length + 1
      simp only [pending, State.enter, hstack, List.map_cons, List.sum_cons, List.length_cons]
      omega

/-- Enough rounds empty the stack. -/
theorem stack_runFrom (hnodes : nodes.Nodup) (hclosed : ∀ v w, w ∈ sucs v → w ∈ nodes)
    (rounds : Nat) (h : Inv sucs root st) (hrounds : pending sucs nodes st ≤ rounds) :
    (runFrom sucs rounds st).stack = [] := by
  induction rounds generalizing st with
  | zero =>
    simp only [runFrom]
    cases hstack : st.stack with
    | nil => rfl
    | cons f stack =>
      simp only [pending, hstack, List.map_cons, List.sum_cons] at hrounds
      omega
  | succ rounds ih =>
    unfold runFrom
    split
    · rename_i hempty
      exact List.isEmpty_iff.mp hempty
    · rename_i hempty
      have hlt := pending_step hnodes hclosed h (by simpa using hempty)
      exact ih (inv_step h) (by omega)

theorem inv_run : Inv sucs root (run sucs nodes root) := inv_runFrom _ inv_start

theorem stack_run (hnodes : nodes.Nodup) (hclosed : ∀ v w, w ∈ sucs v → w ∈ nodes)
    (hroot : root ∈ nodes) : (run sucs nodes root).stack = [] := by
  apply stack_runFrom hnodes hclosed _ inv_start
  have hsum := sum_filter_remove hnodes hroot (p := fun _ => true)
    (q := fun v => !([] ++ [root]).contains v) rfl (fun x => by simp) fun v => (sucs v).length + 1
  rw [List.filter_true] at hsum
  simp only [pending, State.enter, List.map_cons, List.map_nil, List.sum_cons, List.sum_nil]
  omega

end Rounds

end DepthFirst
