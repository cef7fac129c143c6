import Mathlib.Algebra.Order.BigOperators.Group.List

/-!
Rounds over a list of visits, repeated while a round changes something. `step` gives
nothing where a visit changes nothing.
-/

namespace RoundLoop

variable {S V : Type}

def visit (step : S → V → Option S) (σ : S × Bool) (v : V) : S × Bool :=
  match step σ.1 v with
  | none => σ
  | some s => (s, true)

/-- One round, and whether it changed the state. -/
def round (step : S → V → Option S) (order : List V) (s : S) : S × Bool :=
  order.foldl (visit step) (s, false)

/-- At most `cap` rounds: the state, and whether the last round changed it still. -/
def run (step : S → V → Option S) (order : List V) : (cap : Nat) → S → S × Bool
  | 0, s => (s, true)
  | cap + 1, s =>
    match round step order s with
    | (s, false) => (s, false)
    | (s, true) => run step order cap s

variable {step : S → V → Option S} {order : List V} {s : S} {σ : S × Bool} {cap : Nat}

/-- What a visit keeps, a sequence of visits keeps. -/
theorem visits_invariant (inv : S → Prop) (hstart : inv σ.1)
    (hstep : ∀ {s v s'}, v ∈ order → inv s → step s v = some s' → inv s') :
    inv (order.foldl (visit step) σ).1 := by
  induction order generalizing σ with
  | nil => exact hstart
  | cons v order ih =>
    rw [List.foldl_cons]
    apply ih
    · rw [visit]
      cases h : step σ.1 v with
      | none => exact hstart
      | some s => exact hstep List.mem_cons_self hstart h
    · intro s w s' hw
      exact hstep (List.mem_cons_of_mem v hw)

/-- What a visit keeps, a run keeps. -/
theorem run_invariant (inv : S → Prop) (hstart : inv s)
    (hstep : ∀ {s v s'}, v ∈ order → inv s → step s v = some s' → inv s') :
    inv (run step order cap s).1 := by
  induction cap generalizing s with
  | zero => exact hstart
  | succ cap ih =>
    have hround : inv (round step order s).1 := visits_invariant inv hstart hstep
    rw [run]
    rcases h : round step order s with ⟨s', _ | _⟩
    · simpa only [h] using hround
    · exact ih (by simpa only [h] using hround)

theorem visits_changed (hσ : σ.2 = true) : (order.foldl (visit step) σ).2 = true := by
  induction order generalizing σ with
  | nil => exact hσ
  | cons v order ih =>
    rw [List.foldl_cons]
    apply ih
    rw [visit]
    cases step σ.1 v with
    | none => exact hσ
    | some s => rfl

/-- Visits that change nothing leave the state, and none of them has anything to do. -/
theorem visits_quiet (h : (order.foldl (visit step) σ).2 = false) :
    order.foldl (visit step) σ = σ ∧ ∀ v ∈ order, step σ.1 v = none := by
  induction order generalizing σ with
  | nil => exact ⟨rfl, by simp⟩
  | cons v order ih =>
    rw [List.foldl_cons] at h ⊢
    cases hv : step σ.1 v with
    | none =>
      have hvisit : visit step σ v = σ := by rw [visit, hv]
      rw [hvisit] at h ⊢
      obtain ⟨heq, hnone⟩ := ih h
      exact ⟨heq, List.forall_mem_cons.mpr ⟨hv, hnone⟩⟩
    | some s =>
      have hvisit : visit step σ v = (s, true) := by rw [visit, hv]
      rw [hvisit, visits_changed rfl] at h
      cases h

/-- Where the loop stops by itself, no visit has anything to do. -/
theorem quiet_of_run (h : (run step order cap s).2 = false) :
    ∀ v ∈ order, step (run step order cap s).1 v = none := by
  induction cap generalizing s with
  | zero => cases h
  | succ cap ih =>
    rw [run] at h ⊢
    rcases hround : round step order s with ⟨s', _ | _⟩
    · obtain ⟨heq, hnone⟩ := visits_quiet (σ := (s, false)) (congrArg Prod.snd hround)
      have hs : s = s' := congrArg Prod.fst (heq.symm.trans hround)
      subst hs
      exact hnone
    · simp only [hround] at h ⊢
      exact ih h

section Measure

variable (μ : S → Nat) (hμ : ∀ {s v s'}, v ∈ order → step s v = some s' → μ s' < μ s)

include hμ

theorem visits_measure :
    μ (order.foldl (visit step) σ).1 ≤ μ σ.1 ∧
      ((order.foldl (visit step) σ).2 = true → σ.2 = false →
        μ (order.foldl (visit step) σ).1 < μ σ.1) := by
  induction order generalizing σ with
  | nil => exact ⟨le_rfl, fun h hσ => absurd (hσ.symm.trans h) Bool.false_ne_true⟩
  | cons v order ih =>
    obtain ⟨hle, hlt⟩ := ih (fun hw => hμ (List.mem_cons_of_mem v hw)) (σ := visit step σ v)
    rw [List.foldl_cons]
    cases hv : step σ.1 v with
    | none =>
      have hvisit : visit step σ v = σ := by rw [visit, hv]
      rw [hvisit] at hle hlt ⊢
      exact ⟨hle, hlt⟩
    | some s =>
      have hvisit : visit step σ v = (s, true) := by rw [visit, hv]
      have hdown : μ s < μ σ.1 := hμ List.mem_cons_self hv
      rw [hvisit] at hle ⊢
      exact ⟨hle.trans hdown.le, fun _ _ => hle.trans_lt hdown⟩

/-- A loop that has more rounds than its measure allows changes stops by itself. -/
theorem run_ends (hcap : μ s < cap) : (run step order cap s).2 = false := by
  induction cap generalizing s with
  | zero => cases hcap
  | succ cap ih =>
    rw [run]
    rcases hround : round step order s with ⟨s', _ | _⟩
    · rfl
    · have hdown := (visits_measure μ hμ (σ := (s, false))).2
      rw [show order.foldl (visit step) (s, false) = (s', true) from hround] at hdown
      have hdown : μ s' < μ s := hdown rfl rfl
      exact ih (by omega)

end Measure

end RoundLoop
