import Mathlib.Data.Finset.Card
import Mathlib.Data.List.Perm.Subperm
import Mathlib.Logic.Relation

/-!
Spreading a mark along arcs: a worklist that holds every marked vertex once, from a
queue or from a stack. It marks exactly what is reachable from where it started.
-/

namespace Spread

variable {α : Type} [DecidableEq α]

/-- The vertices of `vs` that are not marked, each once. -/
def fresh (marked vs : List α) : List α :=
  vs.foldl (fun new v => if v ∈ marked ∨ v ∈ new then new else new ++ [v]) []

/-- The marks after at most `fuel` rounds; `queue` takes the oldest vertex first, a
stack the latest. -/
def spread (queue : Bool) (next : α → List α) : (fuel : Nat) → (marked work : List α) → List α
  | 0, marked, _ => marked
  | _ + 1, marked, [] => marked
  | fuel + 1, marked, v :: work =>
    let new := fresh marked (next v)
    spread queue next fuel (marked ++ new) (if queue then work ++ new else new.reverse ++ work)

/-- Reachable in any number of steps. -/
abbrev Reaches (next : α → List α) : α → α → Prop := Relation.ReflTransGen fun v w => w ∈ next v

variable {next : α → List α} {queue : Bool} {marked work vs : List α} {v w : α} {fuel : Nat}

theorem fresh_spec (marked vs : List α) :
    (fresh marked vs).Nodup ∧ ∀ v, v ∈ fresh marked vs ↔ v ∈ vs ∧ v ∉ marked := by
  have hloop : ∀ new : List α, new.Nodup → (∀ v ∈ new, v ∉ marked) →
      (vs.foldl (fun new v => if v ∈ marked ∨ v ∈ new then new else new ++ [v]) new).Nodup ∧
        ∀ v, v ∈ vs.foldl (fun new v => if v ∈ marked ∨ v ∈ new then new else new ++ [v]) new ↔
          v ∈ new ∨ (v ∈ vs ∧ v ∉ marked) := by
    induction vs with
    | nil => exact fun new hnodup _ => ⟨hnodup, by simp⟩
    | cons u vs ih =>
      intro new hnodup hnew
      rw [List.foldl_cons]
      split
      · rename_i hold
        obtain ⟨hnodup, hmem⟩ := ih new hnodup hnew
        refine ⟨hnodup, fun v => ?_⟩
        rw [hmem, List.mem_cons]
        constructor
        · exact Or.imp_right fun h => ⟨.inr h.1, h.2⟩
        · rintro (hv | ⟨rfl | hv, hfree⟩)
          · exact .inl hv
          · exact .inl (hold.resolve_left hfree)
          · exact .inr ⟨hv, hfree⟩
      · rename_i hold
        obtain ⟨hfree, hu⟩ := not_or.mp hold
        have hnodup' : (new ++ [u]).Nodup := List.nodup_append.mpr ⟨hnodup,
          List.nodup_singleton u, by
            rintro a ha _ hb rfl
            exact hu (List.mem_singleton.mp hb ▸ ha)⟩
        have hnew' : ∀ v ∈ new ++ [u], v ∉ marked := by
          intro v hv
          obtain hv | hv := List.mem_append.mp hv
          · exact hnew v hv
          · exact List.mem_singleton.mp hv ▸ hfree
        obtain ⟨hnodup, hmem⟩ := ih (new ++ [u]) hnodup' hnew'
        refine ⟨hnodup, fun v => ?_⟩
        rw [hmem, List.mem_append, List.mem_singleton, List.mem_cons]
        constructor
        · rintro ((hv | rfl) | ⟨hv, hfree⟩)
          · exact .inl hv
          · exact .inr ⟨.inl rfl, hfree⟩
          · exact .inr ⟨.inr hv, hfree⟩
        · rintro (hv | ⟨rfl | hv, hfree⟩)
          · exact .inl (.inl hv)
          · exact .inl (.inr rfl)
          · exact .inr ⟨hv, hfree⟩
  obtain ⟨hnodup, hmem⟩ := hloop [] List.nodup_nil (by simp)
  exact ⟨hnodup, fun v => (hmem v).trans (or_iff_right (List.not_mem_nil))⟩

theorem nodup_append_fresh (h : marked.Nodup) : (marked ++ fresh marked vs).Nodup :=
  List.nodup_append.mpr ⟨h, (fresh_spec marked vs).1, by
    rintro a ha _ hb rfl
    exact (((fresh_spec marked vs).2 a).mp hb).2 ha⟩

theorem mem_fresh : v ∈ fresh marked vs ↔ v ∈ vs ∧ v ∉ marked := (fresh_spec marked vs).2 v

theorem subset_spread : marked ⊆ spread queue next fuel marked work := by
  induction fuel generalizing marked work with
  | zero => exact List.Subset.refl _
  | succ fuel ih =>
    cases work with
    | nil => exact List.Subset.refl _
    | cons v work => exact List.Subset.trans (List.subset_append_left _ _) ih

/-- The marks so far come first. -/
theorem exists_spread_eq_append : ∃ new, spread queue next fuel marked work = marked ++ new := by
  induction fuel generalizing marked work with
  | zero => exact ⟨[], (List.append_nil _).symm⟩
  | succ fuel ih =>
    cases work with
    | nil => exact ⟨[], (List.append_nil _).symm⟩
    | cons v work =>
      obtain ⟨new, hnew⟩ := ih
      exact ⟨fresh marked (next v) ++ new, hnew.trans (List.append_assoc _ _ _)⟩

theorem nodup_spread (h : marked.Nodup) : (spread queue next fuel marked work).Nodup := by
  induction fuel generalizing marked work with
  | zero => exact h
  | succ fuel ih =>
    cases work with
    | nil => exact h
    | cons v work => exact ih (nodup_append_fresh h)

omit [DecidableEq α] in
theorem mem_take {new : List α} :
    w ∈ (if queue then work ++ new else new.reverse ++ work) ↔ w ∈ work ∨ w ∈ new := by
  split
  · exact List.mem_append
  · rw [List.mem_append, List.mem_reverse, or_comm]

/-- All that is marked is reachable. -/
theorem reaches_of_mem {start : List α} (hwork : work ⊆ marked)
    (hmarked : ∀ v ∈ marked, ∃ s ∈ start, Reaches next s v)
    (hv : v ∈ spread queue next fuel marked work) : ∃ s ∈ start, Reaches next s v := by
  induction fuel generalizing marked work with
  | zero => exact hmarked v hv
  | succ fuel ih =>
    cases work with
    | nil => exact hmarked v hv
    | cons u work =>
      refine ih (fun w hw => ?_) (fun w hw => ?_) hv
      · obtain hw | hw := mem_take.mp hw
        · exact List.mem_append_left _ (hwork (List.mem_cons_of_mem u hw))
        · exact List.mem_append_right _ hw
      · obtain hw | hw := List.mem_append.mp hw
        · exact hmarked w hw
        · obtain ⟨s, hs, hreach⟩ := hmarked u (hwork List.mem_cons_self)
          exact ⟨s, hs, hreach.tail (mem_fresh.mp hw).1⟩

/-- With a round for every vertex that is not done the marks are closed. -/
theorem closed_spread (queue : Bool) (fuel : Nat) {all : List α} (hnodup : marked.Nodup)
    (hsubset : marked ⊆ all) (hnext : ∀ v ∈ all, next v ⊆ all) (hwork : work ⊆ marked)
    (hfuel : all.length + work.length ≤ marked.length + fuel)
    (hdone : ∀ v ∈ marked, v ∉ work → next v ⊆ marked) :
    ∀ v ∈ spread queue next fuel marked work, next v ⊆ spread queue next fuel marked work := by
  have hlen (marked : List α) (hnodup : marked.Nodup) (hsubset : marked ⊆ all) :
      marked.length ≤ all.length := (hnodup.subperm hsubset).length_le
  induction fuel generalizing marked work with
  | zero =>
    have hle := hlen marked hnodup hsubset
    have hempty : work = [] := List.length_eq_zero_iff.mp (by omega)
    subst hempty
    exact fun v hv => hdone v hv (List.not_mem_nil)
  | succ fuel ih =>
    cases work with
    | nil => exact fun v hv => hdone v hv (List.not_mem_nil)
    | cons u work =>
      obtain ⟨-, hmem⟩ := fresh_spec marked (next u)
      have hu := hwork List.mem_cons_self
      refine ih ?_ ?_ ?_ ?_ ?_
      · exact nodup_append_fresh hnodup
      · intro v hv
        obtain hv | hv := List.mem_append.mp hv
        · exact hsubset hv
        · exact hnext u (hsubset hu) ((hmem v).mp hv).1
      · intro v hv
        obtain hv | hv := mem_take.mp hv
        · exact List.mem_append_left _ (hwork (List.mem_cons_of_mem u hv))
        · exact List.mem_append_right _ hv
      · have htaken : (if queue = true then work ++ fresh marked (next u)
            else (fresh marked (next u)).reverse ++ work).length =
              work.length + (fresh marked (next u)).length := by
          split
          · exact List.length_append
          · rw [List.length_append, List.length_reverse, Nat.add_comm]
        rw [htaken, List.length_append]
        rw [List.length_cons] at hfuel
        omega
      · intro v hv hnot w hw
        have hnot := not_or.mp fun h => hnot (mem_take.mpr h)
        by_cases hvu : v = u
        · subst hvu
          by_cases hw' : w ∈ marked
          · exact List.mem_append_left _ hw'
          · exact List.mem_append_right _ ((hmem w).mpr ⟨hw, hw'⟩)
        · have hv := (List.mem_append.mp hv).resolve_right hnot.2
          refine List.mem_append_left _ (hdone v hv (fun h => ?_) hw)
          obtain h | h := List.mem_cons.mp h
          · exact hvu h
          · exact hnot.1 h

/-- From `start`, within finitely many vertices, the marks are what is reachable. -/
theorem mem_spread_iff {start all : List α} (hnodup : start.Nodup) (hsubset : start ⊆ all)
    (hnext : ∀ v ∈ all, next v ⊆ all) (hfuel : all.length ≤ fuel) :
    v ∈ spread queue next fuel start start ↔ ∃ s ∈ start, Reaches next s v := by
  constructor
  · exact reaches_of_mem (List.Subset.refl _) fun s hs => ⟨s, hs, .refl⟩
  · rintro ⟨s, hs, hreach⟩
    have hclosed := closed_spread queue fuel hnodup hsubset hnext (List.Subset.refl _) (by omega)
      fun v hv hnot => absurd hv hnot
    induction hreach with
    | refl => exact subset_spread hs
    | tail _ hstep ih => exact hclosed _ ih hstep

/-- How many vertices of `all` are not marked. -/
def left (all marked : List α) : Nat := (all.toFinset \ marked.toFinset).card

theorem left_le_length (all marked : List α) : left all marked ≤ all.length :=
  le_trans (Finset.card_le_card Finset.sdiff_subset) (List.toFinset_card_le all)

/-- Marking one more vertex leaves fewer. -/
theorem left_lt {all marked marked' : List α} (h : marked ⊆ marked') (hall : v ∈ all)
    (hold : v ∉ marked) (hnew : v ∈ marked') : left all marked' < left all marked := by
  refine Finset.card_lt_card (Finset.ssubset_iff_of_subset ?_ |>.mpr ⟨v, ?_, ?_⟩)
  · exact Finset.sdiff_subset_sdiff le_rfl fun w hw => by simpa using h (List.mem_toFinset.mp hw)
  · simpa using ⟨hall, hold⟩
  · simp [hnew]

end Spread
