import Mathlib.Data.List.Nodup
import Mathlib.Logic.Function.Basic
import Mathlib.Tactic.Tauto

/-!
Tables of neighbour lists, and pairs of tables that mirror each other. A node is
taken out of a pair in one of two orders, which give the same lists.
-/

namespace Adjacency

variable {α : Type}

/-- A map from keys to lists. A key may be absent. -/
abbrev Table (α : Type) := α → Option (List α)

namespace Table

/-- The list of a key, empty for an absent one. -/
def listAt (t : Table α) (k : α) : List α := (t k).getD []

/-- No list holds an element twice. -/
def NodupLists (t : Table α) : Prop := ∀ k, (t.listAt k).Nodup

variable [DecidableEq α]

/-- Appends `x` to the list of `k` unless it is there. -/
def push (t : Table α) (k x : α) : Table α :=
  Function.update t k (some (if x ∈ t.listAt k then t.listAt k else t.listAt k ++ [x]))

/-- Erases the first `x` from the list of `k`, if `k` is there. -/
def eraseAt (t : Table α) (k x : α) : Table α :=
  match t k with
  | none => t
  | some l => Function.update t k (some (l.erase x))

def drop (t : Table α) (k : α) : Table α := Function.update t k none

/-- Erases `x` from the lists of all `ks`. -/
def eraseAll (t : Table α) (ks : List α) (x : α) : Table α :=
  ks.foldl (fun t k => t.eraseAt k x) t

variable {t : Table α} {k v w x : α} {ks : List α}

theorem listAt_push : (t.push k x).listAt v =
    if v = k then (if x ∈ t.listAt k then t.listAt k else t.listAt k ++ [x]) else t.listAt v := by
  unfold push listAt
  rcases eq_or_ne v k with rfl | hne
  · simp
  · simp [hne]

theorem listAt_eraseAt : (t.eraseAt k x).listAt v =
    if v = k then (t.listAt k).erase x else t.listAt v := by
  unfold eraseAt listAt
  rcases eq_or_ne v k with rfl | hne
  · cases h : t v with
    | none => simp [h]
    | some l => simp
  · cases h : t k with
    | none => simp [hne]
    | some l => simp [hne]

theorem listAt_drop : (t.drop k).listAt v = if v = k then [] else t.listAt v := by
  unfold drop listAt
  rcases eq_or_ne v k with rfl | hne
  · simp
  · simp [hne]

@[simp] theorem mem_push : w ∈ (t.push k x).listAt v ↔ w ∈ t.listAt v ∨ (v = k ∧ w = x) := by
  rw [listAt_push]
  rcases eq_or_ne v k with rfl | hne
  · rw [if_pos rfl]
    split
    next hx =>
      constructor
      · exact Or.inl
      · rintro (h | ⟨-, rfl⟩)
        · exact h
        · exact hx
    next => simp
  · simp [hne]

@[simp] theorem mem_drop : w ∈ (t.drop k).listAt v ↔ w ∈ t.listAt v ∧ v ≠ k := by
  rw [listAt_drop]
  rcases eq_or_ne v k with rfl | hne
  · simp
  · simp [hne]

theorem mem_eraseAt (h : t.NodupLists) :
    w ∈ (t.eraseAt k x).listAt v ↔ w ∈ t.listAt v ∧ ¬ (v = k ∧ w = x) := by
  rw [listAt_eraseAt]
  rcases eq_or_ne v k with rfl | hne
  · rw [if_pos rfl, (h v).mem_erase_iff]
    tauto
  · simp [hne]

theorem NodupLists.push (h : t.NodupLists) : (t.push k x).NodupLists := by
  intro v
  rw [listAt_push]
  split
  · split
    · exact h k
    next hx =>
      apply List.nodup_append.mpr
      refine ⟨h k, List.nodup_singleton x, ?_⟩
      rintro y hy z hz rfl
      exact hx (List.mem_singleton.mp hz ▸ hy)
  · exact h v

theorem NodupLists.eraseAt (h : t.NodupLists) : (t.eraseAt k x).NodupLists := by
  intro v
  rw [listAt_eraseAt]
  split
  · exact (h k).erase x
  · exact h v

theorem NodupLists.drop (h : t.NodupLists) : (t.drop k).NodupLists := by
  intro v
  rw [listAt_drop]
  split
  · exact List.nodup_nil
  · exact h v

theorem NodupLists.eraseAll (h : t.NodupLists) : (t.eraseAll ks x).NodupLists := by
  unfold Table.eraseAll
  induction ks generalizing t with
  | nil => exact h
  | cons k ks ih => exact ih h.eraseAt

theorem mem_eraseAll (h : t.NodupLists) :
    w ∈ (t.eraseAll ks x).listAt v ↔ w ∈ t.listAt v ∧ ¬ (v ∈ ks ∧ w = x) := by
  unfold eraseAll
  induction ks generalizing t with
  | nil => simp
  | cons k ks ih =>
    rw [List.foldl_cons, ih h.eraseAt, mem_eraseAt h, List.mem_cons]
    tauto

end Table

open Table

/-- Each table lists the arcs of the other backwards, and none twice. -/
structure Mirror (fwd bwd : Table α) : Prop where
  mem : ∀ v w, w ∈ fwd.listAt v ↔ v ∈ bwd.listAt w
  fwdNodup : fwd.NodupLists
  bwdNodup : bwd.NodupLists

/-- Tables without keys. -/
theorem mirror_empty : Mirror (fun _ : α => none) (fun _ : α => none) := by
  have hnil (k : α) : listAt (fun _ : α => none) k = [] := rfl
  constructor
  · intro v w
    rw [hnil, hnil]
    simp
  · intro k
    rw [hnil]
    exact List.nodup_nil
  · intro k
    rw [hnil]
    exact List.nodup_nil

variable [DecidableEq α] {fwd bwd : Table α} {n v w : α}

/-- Takes `n` out: its name from the lists of its neighbours, then its two own
lists. -/
def detach (fwd bwd : Table α) (n : α) : Table α × Table α :=
  let fwd := fwd.eraseAll (bwd.listAt n) n
  let bwd := bwd.eraseAll (fwd.listAt n) n
  (fwd.drop n, bwd.drop n)

/-- Takes `n` out: each of its own lists first, then its name from the lists of
the neighbours there. -/
def popDetach (fwd bwd : Table α) (n : α) : Table α × Table α :=
  let preds := bwd.listAt n
  let bwd := bwd.drop n
  let fwd := fwd.eraseAll preds n
  let sucs := fwd.listAt n
  let fwd := fwd.drop n
  let bwd := bwd.eraseAll sucs n
  (fwd.drop n, bwd.drop n)

namespace Mirror

variable (h : Mirror fwd bwd)
include h

theorem push : Mirror (fwd.push v w) (bwd.push w v) where
  mem := by
    intro x y
    rw [mem_push, mem_push, h.mem]
    tauto
  fwdNodup := h.fwdNodup.push
  bwdNodup := h.bwdNodup.push

theorem mem_eraseAll_preds :
    w ∈ (fwd.eraseAll (bwd.listAt n) n).listAt v ↔ w ∈ fwd.listAt v ∧ w ≠ n := by
  rw [mem_eraseAll h.fwdNodup, ← h.mem]
  constructor
  · rintro ⟨hw, hnot⟩
    exact ⟨hw, fun heq => hnot ⟨heq ▸ hw, heq⟩⟩
  · exact fun ⟨hw, hne⟩ => ⟨hw, fun hboth => hne hboth.2⟩

theorem mem_detach_fst :
    w ∈ (detach fwd bwd n).1.listAt v ↔ w ∈ fwd.listAt v ∧ v ≠ n ∧ w ≠ n := by
  unfold detach
  rw [mem_drop, h.mem_eraseAll_preds]
  tauto

theorem mem_detach_snd :
    v ∈ (detach fwd bwd n).2.listAt w ↔ v ∈ bwd.listAt w ∧ v ≠ n ∧ w ≠ n := by
  unfold detach
  rw [mem_drop, mem_eraseAll h.bwdNodup, h.mem_eraseAll_preds, h.mem n w]
  constructor
  · rintro ⟨⟨hv, hnot⟩, hw⟩
    exact ⟨hv, fun heq => hnot ⟨⟨heq ▸ hv, hw⟩, heq⟩, hw⟩
  · exact fun ⟨hv, hne, hw⟩ => ⟨⟨hv, fun hboth => hne hboth.2⟩, hw⟩

theorem mem_popDetach_fst :
    w ∈ (popDetach fwd bwd n).1.listAt v ↔ w ∈ fwd.listAt v ∧ v ≠ n ∧ w ≠ n := by
  unfold popDetach
  rw [mem_drop, mem_drop, h.mem_eraseAll_preds]
  tauto

theorem mem_popDetach_snd :
    v ∈ (popDetach fwd bwd n).2.listAt w ↔ v ∈ bwd.listAt w ∧ v ≠ n ∧ w ≠ n := by
  unfold popDetach
  rw [mem_drop, mem_eraseAll h.bwdNodup.drop, mem_drop, h.mem_eraseAll_preds, h.mem n w]
  constructor
  · rintro ⟨⟨⟨hv, -⟩, hnot⟩, hw⟩
    exact ⟨hv, fun heq => hnot ⟨⟨heq ▸ hv, hw⟩, heq⟩, hw⟩
  · exact fun ⟨hv, hne, hw⟩ => ⟨⟨⟨hv, hw⟩, fun hboth => hne hboth.2⟩, hw⟩

theorem detach : Mirror (detach fwd bwd n).1 (detach fwd bwd n).2 where
  mem := by
    intro v w
    rw [h.mem_detach_fst, h.mem_detach_snd, h.mem]
  fwdNodup := h.fwdNodup.eraseAll.drop
  bwdNodup := h.bwdNodup.eraseAll.drop

theorem popDetach : Mirror (popDetach fwd bwd n).1 (popDetach fwd bwd n).2 where
  mem := by
    intro v w
    rw [h.mem_popDetach_fst, h.mem_popDetach_snd, h.mem]
  fwdNodup := h.fwdNodup.eraseAll.drop.drop
  bwdNodup := h.bwdNodup.drop.eraseAll.drop

end Mirror

end Adjacency
