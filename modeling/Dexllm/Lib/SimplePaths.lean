import Mathlib.Data.List.Basic
import Mathlib.Data.Nat.Find

/-!
Paths in a directed graph to a vertex with a given property. Where there is a
path there is one without a repeated vertex, so a search that never enters a
vertex it is inside of finds one.
-/

namespace SimplePaths

variable {α : Type} (step : α → α → Prop) (goal : α → Prop)

/-- A vertex of the goal is reached from `a` outside `avoid`. -/
inductive Reaches (avoid : List α) : α → Prop where
  | here {a : α} (ha : a ∉ avoid) (hgoal : goal a) : Reaches avoid a
  | next {a b : α} (ha : a ∉ avoid) (hstep : step a b) (hrest : Reaches avoid b) : Reaches avoid a

/-- A vertex of the goal is reached from `a` without entering a vertex of the
`stack`, or one the path is inside of. -/
inductive Simple : List α → α → Prop where
  | here {stack : List α} {a : α} (ha : a ∉ stack) (hgoal : goal a) : Simple stack a
  | next {stack : List α} {a b : α} (ha : a ∉ stack) (hstep : step a b)
      (hrest : Simple (a :: stack) b) : Simple stack a

/-- `Reaches`, with the number of steps. -/
inductive ReachesIn (avoid : List α) : Nat → α → Prop where
  | here {a : α} (ha : a ∉ avoid) (hgoal : goal a) : ReachesIn avoid 0 a
  | next {n : Nat} {a b : α} (ha : a ∉ avoid) (hstep : step a b) (hrest : ReachesIn avoid n b) :
      ReachesIn avoid (n + 1) a

variable {step goal} {avoid : List α} {a : α}

theorem ReachesIn.not_mem {n : Nat} (h : ReachesIn step goal avoid n a) : a ∉ avoid := by
  cases h with
  | here ha _ => exact ha
  | next ha _ _ => exact ha

theorem Reaches.exists_length (h : Reaches step goal avoid a) :
    ∃ n, ReachesIn step goal avoid n a := by
  induction h with
  | here ha hgoal => exact ⟨0, .here ha hgoal⟩
  | next ha hstep _ ih =>
    obtain ⟨n, hn⟩ := ih
    exact ⟨n + 1, .next ha hstep hn⟩

/-- A shortest path enters no vertex twice: all behind it are further away. -/
theorem ReachesIn.simple {n : Nat} (h : ReachesIn step goal avoid n a)
    (hshortest : ∀ m, ReachesIn step goal avoid m a → n ≤ m) {stack : List α}
    (hstack : ∀ s ∈ stack, s ∈ avoid ∨ ∀ m, ReachesIn step goal avoid m s → n < m) :
    Simple step goal stack a := by
  have hentered : ∀ {n : Nat} {a : α} {stack : List α}, ReachesIn step goal avoid n a →
      (∀ s ∈ stack, s ∈ avoid ∨ ∀ m, ReachesIn step goal avoid m s → n < m) → a ∉ stack := by
    intro n a stack h hstack hmem
    obtain hin | hfar := hstack a hmem
    · exact h.not_mem hin
    · exact Nat.lt_irrefl n (hfar n h)
  induction h generalizing stack with
  | here ha hgoal => exact .here (hentered (.here ha hgoal) hstack) hgoal
  | next ha hstep hrest ih =>
    refine .next (hentered (.next ha hstep hrest) hstack) hstep (ih ?_ ?_)
    · intro m hm
      exact Nat.le_of_succ_le_succ (hshortest (m + 1) (.next ha hstep hm))
    · intro s hs
      obtain rfl | hs := List.mem_cons.mp hs
      · exact .inr fun m hm => hshortest m hm
      · exact (hstack s hs).imp_right fun hfar m hm => Nat.lt_of_succ_lt (hfar m hm)

/-- Where there is a path there is a simple one. -/
theorem Reaches.simple (h : Reaches step goal avoid a) : Simple step goal avoid a := by
  classical
  have hlength := h.exists_length
  exact (Nat.find_spec hlength).simple (fun m hm => Nat.find_min' hlength hm)
    fun s hs => .inl hs

theorem Reaches.mono {avoid' : List α} (h : Reaches step goal avoid a) (hsub : avoid' ⊆ avoid) :
    Reaches step goal avoid' a := by
  induction h with
  | here ha hgoal => exact .here (fun hmem => ha (hsub hmem)) hgoal
  | next ha hstep _ ih => exact .next (fun hmem => ha (hsub hmem)) hstep ih

theorem Simple.reaches {stack : List α} (h : Simple step goal stack a) :
    Reaches step goal stack a := by
  induction h with
  | here ha hgoal => exact .here ha hgoal
  | next ha hstep _ ih => exact .next ha hstep (ih.mono (List.subset_cons_self _ _))

end SimplePaths
