import Mathlib.Data.List.Infix

/-!
A cell that holds the last value minted or pinned by a run of events. A minted value is
numbered, so it names the event that minted it.
-/

namespace FreshCell

inductive Effect (β : Type) where
  | fresh
  | pin (b : β)
  | keep
  deriving DecidableEq, Repr

inductive Value (β : Type) where
  | fresh (n : Nat)
  | pinned (b : β)
  deriving DecidableEq, Repr

structure State (β : Type) where
  num : Nat := 0
  last : Option (Value β) := none

variable {α β : Type}

def State.step (s : State β) : Effect β → State β
  | .fresh => ⟨s.num + 1, some (.fresh (s.num + 1))⟩
  | .pin b => { s with last := some (.pinned b) }
  | .keep => s

variable (effect : α → Effect β)

/-- The cell behind a run of events. -/
def run (events : List α) : State β := events.foldl (fun s a => s.step (effect a)) {}

variable {effect} {l pre post : List α} {a : α}

@[simp] theorem run_nil : run effect [] = {} := rfl

@[simp] theorem run_concat : run effect (pre ++ [a]) = (run effect pre).step (effect a) := by
  simp [run]

theorem num_mono (h : pre <+: l) : (run effect pre).num ≤ (run effect l).num := by
  obtain ⟨post, rfl⟩ := h
  induction post using List.reverseRecOn with
  | nil => simp
  | append_singleton post b ih =>
    rw [← List.append_assoc, run_concat]
    refine ih.trans ?_
    cases effect b <;> simp [State.step]

theorem run_keep (h : ∀ b ∈ post, effect b = .keep) :
    run effect (pre ++ post) = run effect pre := by
  induction post using List.reverseRecOn with
  | nil => simp
  | append_singleton post b ih =>
    rw [← List.append_assoc, run_concat, h b (by simp), State.step]
    exact ih fun b' hb' => h b' (by simp [hb'])

/-- A cell that holds something was set, and not since. -/
theorem last_set {v : Value β} (h : (run effect l).last = some v) :
    ∃ pre a post, l = pre ++ a :: post ∧ (run effect (pre ++ [a])).last = some v ∧
      effect a ≠ .keep ∧ ∀ b ∈ post, effect b = .keep := by
  induction l using List.reverseRecOn with
  | nil => cases h
  | append_singleton l b ih =>
    by_cases hkeep : effect b = .keep
    · rw [run_concat, hkeep] at h
      obtain ⟨pre, a, post, rfl, hlast, hset, hpost⟩ := ih h
      refine ⟨pre, a, post ++ [b], by simp, hlast, hset, fun b' hb' => ?_⟩
      obtain hb' | hb' := List.mem_append.mp hb'
      · exact hpost b' hb'
      · rwa [List.mem_singleton.mp hb']
    · exact ⟨l, b, [], rfl, h, hkeep, by simp⟩

/-- The cell holds what an event of the run minted exactly when the event lies behind and
nothing has set the cell since. -/
theorem last_minted_iff {events : List α} (hpre : pre ++ [a] <+: events) (hl : l <+: events)
    (hfresh : effect a = .fresh) :
    (run effect l).last = some (.fresh ((run effect pre).num + 1)) ↔
      ∃ mid, l = pre ++ a :: mid ∧ ∀ b ∈ mid, effect b = .keep := by
  have hnum : (run effect (pre ++ [a])).num = (run effect pre).num + 1 := by
    rw [run_concat, hfresh, State.step]
  constructor
  · intro h
    obtain ⟨pre', a', mid, rfl, hlast, hset, hmid⟩ := last_set h
    have hmint : (run effect pre').num = (run effect pre).num := by
      rw [run_concat] at hlast
      cases heffect : effect a' with
      | fresh =>
        rw [heffect, State.step] at hlast
        have hvalue := Value.fresh.inj (Option.some.inj hlast)
        omega
      | pin b =>
        rw [heffect, State.step] at hlast
        cases hlast
      | keep => exact absurd heffect hset
    have hnum' : (run effect (pre' ++ [a'])).num = (run effect pre).num + 1 := by
      rw [run_concat] at hlast ⊢
      cases heffect : effect a' with
      | fresh => rw [State.step, hmint]
      | pin b =>
        rw [heffect, State.step] at hlast
        cases hlast
      | keep => exact absurd heffect hset
    have hprefix : pre' ++ [a'] <+: events := by
      refine List.IsPrefix.trans ⟨mid, ?_⟩ hl
      simp
    have hsame : pre' = pre ∧ a' = a := by
      obtain hshort | hlong := List.prefix_or_prefix_of_prefix hprefix hpre
      · obtain heq | hproper := List.prefix_concat_iff.mp hshort
        · obtain ⟨hpre', ha'⟩ := List.append_inj' heq rfl
          exact ⟨hpre', List.singleton_inj.mp ha'⟩
        · have hle : _ ≤ (run effect _).num := num_mono hproper
          omega
      · obtain heq | hproper := List.prefix_concat_iff.mp hlong
        · obtain ⟨hpre', ha'⟩ := List.append_inj' heq rfl
          exact ⟨hpre'.symm, (List.singleton_inj.mp ha').symm⟩
        · have hle : _ ≤ (run effect _).num := num_mono hproper
          omega
    obtain ⟨rfl, rfl⟩ := hsame
    exact ⟨mid, rfl, hmid⟩
  · rintro ⟨mid, rfl, hmid⟩
    rw [List.append_cons, run_keep hmid, run_concat, hfresh, State.step]

end FreshCell
