import Dexllm.Lib.Worklist

/-!
The vertices a stack takes when the successors of each are pushed once.
-/

namespace Worklist

variable {α : Type} [DecidableEq α]

/-- The vertices taken from the stack, for at most `rounds` rounds. -/
def visit (sucs : α → List α) : (rounds : Nat) → (seen stack : List α) → List α
  | 0, seen, _ => seen
  | _ + 1, seen, [] => seen
  | rounds + 1, seen, cur :: stack =>
    if cur ∈ seen then visit sucs rounds seen stack
    else visit sucs rounds (cur :: seen) ((sucs cur).reverse ++ stack)

/-- The visit from some vertices, with the rounds `vertices` pay for. -/
def visitAll (sucs : α → List α) (vertices start : List α) : List α :=
  visit sucs (cost sucs vertices [] + start.length + 1) [] start

variable {sucs : α → List α} {vertices seen stack start : List α} {rounds : Nat} {v : α}

theorem reaches_of_mem_visit {P : α → Prop} (hstep : ∀ v, P v → ∀ w ∈ sucs v, P w)
    (hseen : ∀ v ∈ seen, P v) (hstack : ∀ v ∈ stack, P v) :
    ∀ v ∈ visit sucs rounds seen stack, P v := by
  induction rounds generalizing seen stack with
  | zero => exact hseen
  | succ rounds ih =>
    cases stack with
    | nil => exact hseen
    | cons cur stack =>
      obtain ⟨hcur, hstack⟩ := List.forall_mem_cons.mp hstack
      rw [visit]
      split
      · exact ih hseen hstack
      · refine ih (List.forall_mem_cons.mpr ⟨hcur, hseen⟩) fun w hw => ?_
        obtain hw | hw := List.mem_append.mp hw
        · exact hstep cur hcur w (List.mem_reverse.mp hw)
        · exact hstack w hw

/-- A visit that has enough rounds takes what it has on the stack, and is closed. -/
theorem visit_closed (hnodup : vertices.Nodup) (hall : ∀ v, sucs v ≠ [] → v ∈ vertices)
    (hrounds : cost sucs vertices seen + stack.length < rounds)
    (hkept : ∀ v ∈ seen, ∀ w ∈ sucs v, w ∈ seen ∨ w ∈ stack) :
    (∀ v, v ∈ seen ∨ v ∈ stack → v ∈ visit sucs rounds seen stack) ∧
      ∀ v ∈ visit sucs rounds seen stack, ∀ w ∈ sucs v, w ∈ visit sucs rounds seen stack := by
  induction rounds generalizing seen stack with
  | zero => omega
  | succ rounds ih =>
    cases stack with
    | nil =>
      simp only [List.not_mem_nil, or_false] at hkept ⊢
      exact ⟨fun v hv => hv, hkept⟩
    | cons cur stack =>
      rw [List.length_cons] at hrounds
      rw [visit]
      split
      · rename_i hold
        have hrest : ∀ v ∈ seen, ∀ w ∈ sucs v, w ∈ seen ∨ w ∈ stack := by
          intro v hv w hw
          obtain hw | hw := hkept v hv w hw
          · exact Or.inl hw
          · obtain rfl | hw := List.mem_cons.mp hw
            · exact Or.inl hold
            · exact Or.inr hw
        obtain ⟨hmem, hclosed⟩ := ih (by omega) hrest
        refine ⟨fun v hv => hmem v ?_, hclosed⟩
        obtain hv | hv := hv
        · exact Or.inl hv
        · obtain rfl | hv := List.mem_cons.mp hv
          · exact Or.inl hold
          · exact Or.inr hv
      · rename_i hnew
        have hcost : cost sucs vertices (cur :: seen) + ((sucs cur).reverse ++ stack).length <
            rounds := by
          rw [List.length_append, List.length_reverse]
          by_cases hcur : cur ∈ vertices
          · have hpaid := @cost_expand _ _ sucs _ _ _ hnodup hcur hnew
            omega
          · have hpaid := @cost_other _ _ sucs _ seen _ hcur
            have hnone : sucs cur = [] := not_not.mp fun h => hcur (hall cur h)
            rw [hpaid, hnone, List.length_nil]
            omega
        have hrest : ∀ v ∈ cur :: seen, ∀ w ∈ sucs v,
            w ∈ cur :: seen ∨ w ∈ (sucs cur).reverse ++ stack := by
          intro v hv w hw
          obtain rfl | hv := List.mem_cons.mp hv
          · exact Or.inr (List.mem_append_left _ (List.mem_reverse.mpr hw))
          · obtain hw | hw := hkept v hv w hw
            · exact Or.inl (List.mem_cons_of_mem _ hw)
            · obtain rfl | hw := List.mem_cons.mp hw
              · exact Or.inl List.mem_cons_self
              · exact Or.inr (List.mem_append_right _ hw)
        obtain ⟨hmem, hclosed⟩ := ih hcost hrest
        refine ⟨fun v hv => hmem v ?_, hclosed⟩
        obtain hv | hv := hv
        · exact Or.inl (List.mem_cons_of_mem _ hv)
        · obtain rfl | hv := List.mem_cons.mp hv
          · exact Or.inl List.mem_cons_self
          · exact Or.inr (List.mem_append_right _ hv)

/-- The visit takes what its start leads to. -/
theorem mem_visitAll_iff (hnodup : vertices.Nodup) (hall : ∀ v, sucs v ≠ [] → v ∈ vertices) :
    v ∈ visitAll sucs vertices start ↔
      ∃ s ∈ start, Relation.ReflTransGen (fun a b => b ∈ sucs a) s v := by
  unfold visitAll
  constructor
  · intro hv
    refine reaches_of_mem_visit (P := fun v => ∃ s ∈ start, Relation.ReflTransGen _ s v) ?_ ?_ ?_
      v hv
    · rintro u ⟨s, hs, hpath⟩ w hw
      exact ⟨s, hs, hpath.tail hw⟩
    · exact fun u hu => absurd hu List.not_mem_nil
    · exact fun u hu => ⟨u, hu, .refl⟩
  · rintro ⟨s, hs, hpath⟩
    have hempty : ∀ u ∈ ([] : List α), ∀ w ∈ sucs u, w ∈ ([] : List α) ∨ w ∈ start :=
      fun u hu => absurd hu List.not_mem_nil
    obtain ⟨hmem, hclosed⟩ := visit_closed hnodup hall (Nat.lt_succ_self _) hempty
    induction hpath with
    | refl => exact hmem s (Or.inr hs)
    | tail _ hw ih => exact hclosed _ ih _ hw

end Worklist
