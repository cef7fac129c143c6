import Mathlib.Algebra.GroupWithZero.Nat
import Mathlib.Data.List.Nodup

/-!
A worklist whose vertices are settled at most once. A vertex that is taken and
cannot be settled yet is dropped; settling one puts back the vertices it may have
made ready. The loop ends, and what was ever to be looked at is settled or cannot be.
-/

namespace Settling

variable {V S : Type}

/-- The loop, for at most `fuel` rounds: the state and the vertices left. `settle` gives
nothing for a vertex that is dropped. -/
def run (settle : S → V → Option S) (next : V → List V) : (fuel : Nat) → S → List V → S × List V
  | 0, σ, work => (σ, work)
  | _ + 1, σ, [] => (σ, [])
  | fuel + 1, σ, v :: work =>
    match settle σ v with
    | none => run settle next fuel σ work
    | some σ' => run settle next fuel σ' (work ++ next v)

/-- `done` says which vertices have been settled. -/
structure Once (settle : S → V → Option S) (done : S → V → Bool) : Prop where
  fresh : ∀ {σ v σ'}, settle σ v = some σ' → done σ v = false
  marks : ∀ {σ v σ'}, settle σ v = some σ' → done σ' v = true
  keeps : ∀ {σ v σ' w}, settle σ v = some σ' → w ≠ v → done σ' w = done σ w

/-- The rounds that the vertices not settled yet can still put on the list. -/
def cost (done : S → V → Bool) (next : V → List V) (vertices : List V) (σ : S) : Nat :=
  (vertices.map fun v => if done σ v then 0 else (next v).length).sum

variable {settle : S → V → Option S} {next : V → List V} {done : S → V → Bool}
variable {vertices : List V} {σ σ' : S} {v : V} {fuel : Nat} {work : List V}

/-- What settling a vertex keeps holds at the end; `listed` holds of all vertices that are
ever on the list. -/
theorem run_invariant (inv : S → Prop) (listed : V → Prop) (hstart : inv σ)
    (hwork : ∀ v ∈ work, listed v) (hnext : ∀ v, listed v → ∀ w ∈ next v, listed w)
    (hstep : ∀ σ v σ', inv σ → listed v → settle σ v = some σ' → inv σ') :
    inv (run settle next fuel σ work).1 := by
  induction fuel generalizing σ work with
  | zero => exact hstart
  | succ fuel ih =>
    cases work with
    | nil => exact hstart
    | cons v work =>
      obtain ⟨hv, hwork⟩ := List.forall_mem_cons.mp hwork
      rw [run]
      split
      · exact ih hstart hwork
      · rename_i σ' hsettle
        apply ih (hstep σ v σ' hstart hv hsettle)
        intro w hw
        obtain hw | hw := List.mem_append.mp hw
        · exact hwork w hw
        · exact hnext v hv w hw

theorem cost_eq_of_not_mem (honce : Once settle done) (hsettle : settle σ v = some σ')
    (hv : v ∉ vertices) : cost done next vertices σ' = cost done next vertices σ := by
  unfold cost
  congr 1
  apply List.map_congr_left
  intro w hw
  have hne : w ≠ v := fun heq => hv (heq ▸ hw)
  rw [honce.keeps hsettle hne]

/-- A settled vertex pays for what it puts on the list. -/
theorem cost_settle (next : V → List V) (honce : Once settle done) (hsettle : settle σ v = some σ')
    (hnodup : vertices.Nodup) (hv : v ∈ vertices) :
    cost done next vertices σ' + (next v).length = cost done next vertices σ := by
  induction vertices with
  | nil => cases hv
  | cons w vertices ih =>
    obtain ⟨hw, hnodup⟩ := List.nodup_cons.mp hnodup
    have hcons (σ : S) : cost done next (w :: vertices) σ =
        (if done σ w then 0 else (next w).length) + cost done next vertices σ := by
      rw [cost, List.map_cons, List.sum_cons, ← cost]
    rw [hcons, hcons]
    obtain rfl | hv := List.mem_cons.mp hv
    · rw [cost_eq_of_not_mem honce hsettle hw, honce.marks hsettle, honce.fresh hsettle,
        if_pos rfl, if_neg Bool.false_ne_true]
      omega
    · have hne : w ≠ v := fun heq => hw (heq ▸ hv)
      rw [honce.keeps hsettle hne, ← ih hnodup hv]
      omega

/-- The loop ends when its rounds pay for the vertices and the list. -/
theorem run_ends (honce : Once settle done) (hnodup : vertices.Nodup)
    (hnext : ∀ v, next v ≠ [] → v ∈ vertices)
    (hfuel : cost done next vertices σ + work.length ≤ fuel) :
    (run settle next fuel σ work).2 = [] := by
  induction fuel generalizing σ work with
  | zero =>
    obtain rfl : work = [] := List.eq_nil_of_length_eq_zero (by omega)
    rfl
  | succ fuel ih =>
    cases work with
    | nil => rfl
    | cons v work =>
      rw [List.length_cons] at hfuel
      rw [run]
      split
      · exact ih (by omega)
      · rename_i σ' hsettle
        apply ih
        rw [List.length_append]
        by_cases hv : v ∈ vertices
        · have hpaid := cost_settle next honce hsettle hnodup hv
          omega
        · have hnone : next v = [] := not_not.mp fun h => hv (hnext v h)
          rw [cost_eq_of_not_mem honce hsettle hv, hnone, List.length_nil]
          omega

/-- A watched vertex is on the list or cannot be settled, if settling another one makes it
ready only by putting it back. -/
theorem run_settles (settle : S → V → Option S) (next : V → List V) (watched : V → Prop)
    (hself : ∀ σ v σ', settle σ v = some σ' → settle σ' v = none)
    (hback : ∀ σ v σ' w, settle σ v = some σ' → watched w → settle σ w = none →
      w ∈ next v ∨ settle σ' w = none)
    (hstart : ∀ w, watched w → w ∈ work ∨ settle σ w = none) :
    ∀ w, watched w → w ∈ (run settle next fuel σ work).2 ∨
      settle (run settle next fuel σ work).1 w = none := by
  induction fuel generalizing σ work with
  | zero => exact hstart
  | succ fuel ih =>
    cases work with
    | nil => exact hstart
    | cons v work =>
      rw [run]
      split
      · rename_i hdropped
        apply ih
        intro w hw
        obtain hmem | hnone := hstart w hw
        · obtain rfl | hmem := List.mem_cons.mp hmem
          · exact .inr hdropped
          · exact .inl hmem
        · exact .inr hnone
      · rename_i σ' hsettle
        apply ih
        intro w hw
        obtain hmem | hnone := hstart w hw
        · obtain rfl | hmem := List.mem_cons.mp hmem
          · exact .inr (hself _ _ _ hsettle)
          · exact .inl (List.mem_append_left _ hmem)
        · exact (hback _ _ _ w hsettle hw hnone).imp_left (List.mem_append_right _)

end Settling
