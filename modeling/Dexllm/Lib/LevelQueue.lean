import Mathlib.Data.List.Flatten
import Mathlib.Data.List.Infix

/-!
A queue that is emptied from the front while every vertex taken from it puts its
own successors at the end. The vertices are taken level by level.
-/

namespace LevelQueue

variable {σ V : Type*}

/-- The loop; no result is a visit without one, or a queue that is not empty after
`fuel` rounds. -/
def run (visit : σ → V → Option σ) (next : V → List V) : (fuel : Nat) → σ → List V → Option σ
  | _, s, [] => some s
  | 0, _, _ :: _ => none
  | fuel + 1, s, v :: queue =>
    match visit s v with
    | some s => run visit next fuel s (queue ++ next v)
    | none => none

/-- The vertices `d` steps behind the first ones. -/
def level (next : V → List V) (first : List V) : Nat → List V
  | 0 => first
  | d + 1 => (level next first d).flatMap next

/-- The vertices of the first levels, in the order they are taken. -/
def order (next : V → List V) (first : List V) (levels : Nat) : List V :=
  (List.range levels).flatMap (level next first)

variable {visit : σ → V → Option σ} {next : V → List V} {first : List V}

theorem run_append {front back : List V} {fuel : Nat} {s t : σ}
    (h : front.foldlM visit s = some t) :
    run visit next (front.length + fuel) s (front ++ back) =
      run visit next fuel t (back ++ front.flatMap next) := by
  induction front generalizing s back with
  | nil =>
    obtain rfl := Option.some.inj h
    simp
  | cons v front ih =>
    obtain ⟨s', hvisit, hrest⟩ := Option.bind_eq_some_iff.mp h
    have hlength : (v :: front).length + fuel = front.length + fuel + 1 := by
      simp only [List.length_cons]
      omega
    rw [hlength, List.cons_append, run, hvisit]
    simp only
    rw [List.append_assoc, ih hrest, List.flatMap_cons, List.append_assoc]

theorem order_succ (levels : Nat) :
    order next first (levels + 1) = order next first levels ++ level next first levels := by
  simp [order, List.range_succ]

theorem level_next (d : Nat) : level next (first.flatMap next) d = level next first (d + 1) := by
  induction d with
  | zero => rfl
  | succ d ih =>
    rw [level, ih]
    rfl

theorem order_first (levels : Nat) :
    order next first (levels + 1) = first ++ order next (first.flatMap next) levels := by
  have hlevels : level next (first.flatMap next) = fun d => level next first (d + 1) :=
    funext level_next
  rw [order, order, hlevels, List.range_succ_eq_map, List.flatMap_cons, List.flatMap_map, level]

/-- If the visits in the order of the levels have a result and the levels end, so does
the loop. -/
theorem run_levels {levels fuel : Nat} {s t : σ}
    (h : (order next first levels).foldlM visit s = some t)
    (hend : level next first levels = []) (hfuel : (order next first levels).length ≤ fuel) :
    run visit next fuel s first = some t := by
  have hprefix (k : Nat) (hk : k ≤ levels) : ∃ m, (order next first k).foldlM visit s = some m ∧
      run visit next fuel s first =
        run visit next (fuel - (order next first k).length) m (level next first k) := by
    induction k with
    | zero => exact ⟨s, rfl, by simp [order, level]⟩
    | succ k ih =>
      obtain ⟨m, hm, hrun⟩ := ih (by omega)
      have hsplit : ∃ rest, order next first levels = order next first (k + 1) ++ rest := by
        obtain ⟨d, hd⟩ := Nat.exists_eq_add_of_le hk
        exact ⟨((List.range d).map (k + 1 + ·)).flatMap (level next first), by
          rw [order, hd, List.range_add, List.flatMap_append, order]⟩
      obtain ⟨rest, hrest⟩ := hsplit
      have hle := congrArg List.length hrest
      rw [hrest, List.foldlM_append] at h
      obtain ⟨m', hm', -⟩ := Option.bind_eq_some_iff.mp h
      refine ⟨m', hm', ?_⟩
      rw [order_succ, List.foldlM_append] at hm'
      obtain ⟨m'', hm'', hlevel⟩ := Option.bind_eq_some_iff.mp hm'
      obtain rfl := Option.some.inj (hm.symm.trans hm'')
      rw [order_succ] at hle ⊢
      simp only [List.length_append] at hle ⊢
      have hrounds : fuel - (order next first k).length = (level next first k).length +
          (fuel - ((order next first k).length + (level next first k).length)) := by omega
      have happend := @run_append _ _ visit next _ []
        (fuel - ((order next first k).length + (level next first k).length)) _ _ hlevel
      rw [List.append_nil, List.nil_append] at happend
      rw [hrun, hrounds, happend]
      rfl
  obtain ⟨m, hm, hrun⟩ := hprefix levels (Nat.le_refl _)
  obtain rfl := Option.some.inj (h.symm.trans hm)
  rw [hrun, hend, run]

end LevelQueue
