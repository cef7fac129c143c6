import Mathlib.Algebra.GroupWithZero.Nat
import Mathlib.Data.List.Dedup
import Mathlib.Logic.Relation

/-!
A search with an explicit stack and a set of seen vertices that stops at the
first successor it is after. Over finitely many vertices with successors it
ends, and it finds exactly what is reachable in one or more steps.
-/

namespace Worklist

variable {α : Type} [DecidableEq α]

/-- The search for `goal`, for at most `fuel` rounds: `none` when they do not
suffice. A vertex is expanded when it is first taken from the stack. -/
def search (sucs : α → List α) (goal : α) : (fuel : Nat) → (seen stack : List α) → Option Bool
  | 0, _, _ => none
  | _ + 1, _, [] => some false
  | fuel + 1, seen, cur :: stack =>
    if cur ∈ seen then search sucs goal fuel seen stack
    else if goal ∈ sucs cur then some true
    else search sucs goal fuel (cur :: seen) ((sucs cur).reverse ++ stack)

/-- Reachable in one or more steps. -/
def Reaches (sucs : α → List α) : α → α → Prop := Relation.TransGen fun a b => b ∈ sucs a

/-- The rounds the vertices not seen yet can still cost. -/
def cost (sucs : α → List α) (vertices seen : List α) : Nat :=
  ((vertices.filter fun v => v ∉ seen).map fun v => (sucs v).length + 1).sum

/-- What was expanded led to no goal, and its successors are not lost. -/
structure Closing (sucs : α → List α) (goal : α) (seen stack : List α) : Prop where
  missed : ∀ v ∈ seen, goal ∉ sucs v
  kept : ∀ v ∈ seen, ∀ w ∈ sucs v, w ∈ seen ∨ w ∈ stack

variable {sucs : α → List α} {goal start : α} {vertices seen stack : List α} {fuel : Nat}

/-- Expanding a vertex pays for its successors. -/
theorem cost_expand {cur : α} (hnodup : vertices.Nodup) (hcur : cur ∈ vertices)
    (hnew : cur ∉ seen) :
    cost sucs vertices (cur :: seen) + ((sucs cur).length + 1) = cost sucs vertices seen := by
  unfold cost
  induction vertices with
  | nil => cases hcur
  | cons v vertices ih =>
    obtain ⟨hv, hnodup⟩ := List.nodup_cons.mp hnodup
    rcases List.mem_cons.mp hcur with rfl | hcur
    · have hsame : vertices.filter (fun w => w ∉ cur :: seen) =
          vertices.filter fun w => w ∉ seen := by
        refine List.filter_congr fun w hw => ?_
        have hne : w ≠ cur := fun h => hv (h ▸ hw)
        simp [hne]
      rw [List.filter_cons_of_neg (by simp), List.filter_cons_of_pos (by simpa using hnew), hsame,
        List.map_cons, List.sum_cons]
      omega
    · have hne : v ≠ cur := fun h => hv (h ▸ hcur)
      have hrest := ih hnodup hcur
      by_cases hseen : v ∈ seen
      · rw [List.filter_cons_of_neg (by simp [hseen]), List.filter_cons_of_neg (by simp [hseen])]
        exact hrest
      · rw [List.filter_cons_of_pos (by simp [hseen, hne]),
          List.filter_cons_of_pos (by simp [hseen]), List.map_cons, List.map_cons, List.sum_cons,
          List.sum_cons]
        omega

/-- Seeing another vertex costs nothing. -/
theorem cost_other {cur : α} (hcur : cur ∉ vertices) :
    cost sucs vertices (cur :: seen) = cost sucs vertices seen := by
  unfold cost
  congr 2
  refine List.filter_congr fun w hw => ?_
  have hne : w ≠ cur := fun h => hcur (h ▸ hw)
  simp [hne]

/-- The search ends once its rounds pay for the vertices and the stack. -/
theorem search_returns (hnodup : vertices.Nodup) (hall : ∀ v, sucs v ≠ [] → v ∈ vertices)
    (hfuel : cost sucs vertices seen + stack.length < fuel) :
    ∃ b, search sucs goal fuel seen stack = some b := by
  induction fuel generalizing seen stack with
  | zero => omega
  | succ fuel ih =>
    cases stack with
    | nil => exact ⟨false, rfl⟩
    | cons cur stack =>
      rw [List.length_cons] at hfuel
      rw [search]
      split
      · exact ih (by omega)
      · rename_i hnew
        split
        · exact ⟨true, rfl⟩
        · by_cases hcur : cur ∈ vertices
          · have hcost := @cost_expand _ _ sucs _ _ _ hnodup hcur hnew
            refine ih ?_
            rw [List.length_append, List.length_reverse]
            omega
          · have hcost := @cost_other _ _ sucs _ seen _ hcur
            have hnone : sucs cur = [] := not_not.mp fun h => hcur (hall cur h)
            refine ih ?_
            rw [hcost, hnone]
            simp only [List.reverse_nil, List.nil_append]
            omega

/-- More rounds do not change the answer. -/
theorem search_mono {b : Bool} (h : search sucs goal fuel seen stack = some b) {fuel' : Nat}
    (hle : fuel ≤ fuel') : search sucs goal fuel' seen stack = some b := by
  induction fuel generalizing seen stack fuel' with
  | zero => cases h
  | succ fuel ih =>
    obtain ⟨fuel', rfl⟩ : ∃ n, fuel' = n + 1 := ⟨fuel' - 1, by omega⟩
    cases stack with
    | nil => exact h
    | cons cur stack =>
      rw [search] at h ⊢
      by_cases hseen : cur ∈ seen
      · rw [if_pos hseen] at h ⊢
        exact ih h (Nat.le_of_succ_le_succ hle)
      · rw [if_neg hseen] at h ⊢
        by_cases hgoal : goal ∈ sucs cur
        · rw [if_pos hgoal] at h ⊢
          exact h
        · rw [if_neg hgoal] at h ⊢
          exact ih h (Nat.le_of_succ_le_succ hle)

/-- What the search finds is reachable from the stack it started with. -/
theorem reaches_of_search (h : search sucs goal fuel seen stack = some true)
    (hstack : ∀ v ∈ stack, Relation.ReflTransGen (fun a b => b ∈ sucs a) start v) :
    Reaches sucs start goal := by
  induction fuel generalizing seen stack with
  | zero => cases h
  | succ fuel ih =>
    cases stack with
    | nil => cases h
    | cons cur stack =>
      have hcur := hstack cur List.mem_cons_self
      have hrest (v : α) (hv : v ∈ stack) := hstack v (List.mem_cons_of_mem cur hv)
      rw [search] at h
      split at h
      · exact ih h hrest
      · split at h
        · rename_i hgoal
          exact Relation.TransGen.tail' hcur hgoal
        · refine ih h fun v hv => ?_
          rcases List.mem_append.mp hv with hv | hv
          · exact hcur.tail (List.mem_reverse.mp hv)
          · exact hrest v hv

/-- A search that ends without a find has closed the vertices it saw. -/
theorem closed_of_search (h : search sucs goal fuel seen stack = some false)
    (hinv : Closing sucs goal seen stack) :
    ∃ closed, (∀ v, v ∈ seen ∨ v ∈ stack → v ∈ closed) ∧ Closing sucs goal closed [] := by
  induction fuel generalizing seen stack with
  | zero => cases h
  | succ fuel ih =>
    cases stack with
    | nil => exact ⟨seen, fun v hv => hv.elim id fun h => (nomatch h), hinv⟩
    | cons cur stack =>
      rw [search] at h
      split at h
      · rename_i hseen
        have hnext : Closing sucs goal seen stack := by
          refine ⟨hinv.missed, fun v hv w hw => ?_⟩
          rcases hinv.kept v hv w hw with hw | hw
          · exact .inl hw
          · rcases List.mem_cons.mp hw with rfl | hw
            · exact .inl hseen
            · exact .inr hw
        obtain ⟨closed, hsub, hclosed⟩ := ih h hnext
        refine ⟨closed, fun v hv => hsub v ?_, hclosed⟩
        rcases hv with hv | hv
        · exact .inl hv
        · rcases List.mem_cons.mp hv with rfl | hv
          · exact .inl hseen
          · exact .inr hv
      · split at h
        · cases h
        · rename_i hmiss
          have hnext : Closing sucs goal (cur :: seen) ((sucs cur).reverse ++ stack) := by
            constructor
            · intro v hv
              rcases List.mem_cons.mp hv with rfl | hv
              · exact hmiss
              · exact hinv.missed v hv
            · intro v hv w hw
              rcases List.mem_cons.mp hv with rfl | hv
              · exact .inr (List.mem_append_left _ (List.mem_reverse.mpr hw))
              · rcases hinv.kept v hv w hw with hw | hw
                · exact .inl (List.mem_cons_of_mem _ hw)
                · rcases List.mem_cons.mp hw with rfl | hw
                  · exact .inl List.mem_cons_self
                  · exact .inr (List.mem_append_right _ hw)
          obtain ⟨closed, hsub, hclosed⟩ := ih h hnext
          refine ⟨closed, fun v hv => hsub v ?_, hclosed⟩
          rcases hv with hv | hv
          · exact .inl (List.mem_cons_of_mem _ hv)
          · rcases List.mem_cons.mp hv with rfl | hv
            · exact .inl List.mem_cons_self
            · exact .inr (List.mem_append_right _ hv)

omit [DecidableEq α] in
/-- A closed set that leads to no goal is never left. -/
theorem not_reaches_of_closed (hclosed : Closing sucs goal seen []) (hstart : start ∈ seen) :
    ¬Reaches sucs start goal := by
  intro hreach
  have hstay {v : α} (hv : Relation.ReflTransGen (fun a b => b ∈ sucs a) start v) : v ∈ seen := by
    induction hv with
    | refl => exact hstart
    | tail _ hstep ih => exact (hclosed.kept _ ih _ hstep).elim id fun h => (nomatch h)
  obtain ⟨v, hv, hgoal⟩ := Relation.TransGen.tail'_iff.mp hreach
  exact hclosed.missed v (hstay hv) hgoal

/-- The search from one vertex over finitely many vertices with successors. -/
theorem search_spec (hnodup : vertices.Nodup) (hall : ∀ v, sucs v ≠ [] → v ∈ vertices) :
    ∃ b, (∀ fuel, cost sucs vertices [] + 1 < fuel → search sucs goal fuel [] [start] = some b) ∧
      (b = true ↔ Reaches sucs start goal) := by
  obtain ⟨b, hb⟩ := @search_returns _ _ sucs goal _ [] [start] (cost sucs vertices [] + 2) hnodup
    hall (by simp)
  refine ⟨b, fun fuel hfuel => search_mono hb (by omega), ?_⟩
  cases b with
  | true =>
    refine ⟨fun _ => reaches_of_search hb fun v hv => ?_, fun _ => rfl⟩
    rw [List.mem_singleton.mp hv]
  | false =>
    have hnil : Closing sucs goal [] [start] :=
      ⟨fun v hv => (nomatch hv), fun v hv => (nomatch hv)⟩
    obtain ⟨closed, hsub, hclosed⟩ := closed_of_search hb hnil
    have hnot := not_reaches_of_closed hclosed (hsub start (.inr List.mem_cons_self))
    exact ⟨fun h => (nomatch h), fun h => absurd h hnot⟩

end Worklist
