import Mathlib.Data.List.Basic
import Mathlib.Data.Set.Basic

/-!
Flows of blocks. A block emits a list and steps to another block; a maximal
path gives a finite or an infinite sequence. One block can be hidden: the steps
through it become steps around it, and the sequences stay the same.
-/

namespace BlockTraces

structure BlockFlow (α β : Type) where
  step : α → α → Prop
  out : α → List β

/-- A finite sequence, or an infinite one by its finite prefixes. A path that
goes on for ever without emitting is infinite too. -/
inductive Trace (β : Type)
  | finite (l : List β)
  | infinite (prefixes : Set (List β))

variable {α β : Type}

namespace BlockFlow

/-- A path from `v` that ends emits `l`. -/
inductive Ends (S : BlockFlow α β) : α → List β → Prop
  | stop {v : α} : (∀ w, ¬ S.step v w) → Ends S v (S.out v)
  | step {v w : α} {l : List β} : S.step v w → Ends S w l → Ends S v (S.out v ++ l)

/-- What the first `n` blocks of a path emit. -/
def emitted (S : BlockFlow α β) (p : Nat → α) : Nat → List β
  | 0 => []
  | n + 1 => S.emitted p n ++ S.out (p n)

/-- A path without end. -/
def Endless (S : BlockFlow α β) (v : α) (p : Nat → α) : Prop :=
  p 0 = v ∧ ∀ n, S.step (p n) (p (n + 1))

/-- The sequences of the maximal paths from `v`. -/
def traces (S : BlockFlow α β) (v : α) : Set (Trace β) :=
  { t | (∃ l, S.Ends v l ∧ t = .finite l) ∨
    ∃ p, S.Endless v p ∧ t = .infinite { l | ∃ n, l <+: S.emitted p n } }

end BlockFlow

open BlockFlow

/-- `T` is `S` with the block `x` hidden. Its list goes to the blocks before it,
which is right where it is empty or their only successor. -/
structure Hides (S T : BlockFlow α β) (x : α) : Prop where
  loop : ¬ S.step x x
  step : ∀ v w, T.step v w ↔ v ≠ x ∧ w ≠ x ∧ (S.step v w ∨ S.step v x ∧ S.step x w)
  through : ∀ v, v ≠ x → S.step v x → T.out v = S.out v ++ S.out x
  around : ∀ v w, v ≠ x → w ≠ x → S.step v w → T.out v = S.out v
  last : ∀ v, v ≠ x → (∀ w, ¬ S.step v w) → T.out v = S.out v
  ended : (∀ w, ¬ S.step x w) → ∀ v w, S.step v x → S.step v w → w = x

namespace Hides

variable {S T : BlockFlow α β} {x v : α} {l : List β} {p q : Nat → α}

section Finite

theorem ends_to (h : Hides S T x) (hends : S.Ends v l) : (v ≠ x → T.Ends v l) ∧
    (v = x → ∀ u, u ≠ x → S.step u x → T.Ends u (S.out u ++ l)) := by
  induction hends with
  | @stop v hstop =>
    constructor
    · intro hv
      rw [← h.last v hv hstop]
      apply Ends.stop
      intro w hw
      rcases ((h.step v w).mp hw).2.2 with hw | ⟨hw, -⟩
      · exact hstop w hw
      · exact hstop x hw
    · rintro rfl u hu hux
      rw [← h.through u hu hux]
      apply Ends.stop
      intro w hw
      obtain ⟨-, hne, hw | ⟨-, hw⟩⟩ := (h.step u w).mp hw
      · exact hne (h.ended hstop u w hux hw)
      · exact hstop w hw
  | @step v w l hvw _ ih =>
    constructor
    · intro hv
      by_cases hw : w = x
      · exact ih.2 hw v hv (hw ▸ hvw)
      · rw [← h.around v w hv hw hvw]
        exact Ends.step ((h.step v w).mpr ⟨hv, hw, Or.inl hvw⟩) (ih.1 hw)
    · rintro rfl u hu hux
      have hw : w ≠ v := by
        rintro rfl
        exact h.loop hvw
      rw [← List.append_assoc, ← h.through u hu hux]
      exact Ends.step ((h.step u w).mpr ⟨hu, hw, Or.inr ⟨hux, hvw⟩⟩) (ih.1 hw)

theorem ends_of (h : Hides S T x) (hends : T.Ends v l) (hv : v ≠ x) : S.Ends v l := by
  induction hends with
  | @stop v hstop =>
    by_cases hvx : S.step v x
    · have hx : ∀ w, ¬ S.step x w := by
        intro w hw
        have hne : w ≠ x := by
          rintro rfl
          exact h.loop hw
        exact hstop w ((h.step v w).mpr ⟨hv, hne, Or.inr ⟨hvx, hw⟩⟩)
      rw [h.through v hv hvx]
      exact Ends.step hvx (Ends.stop hx)
    · have hlast : ∀ w, ¬ S.step v w := by
        intro w hw
        have hne : w ≠ x := by
          rintro rfl
          exact hvx hw
        exact hstop w ((h.step v w).mpr ⟨hv, hne, Or.inl hw⟩)
      rw [h.last v hv hlast]
      exact Ends.stop hlast
  | @step v w l hvw _ ih =>
    obtain ⟨-, hw, hstep⟩ := (h.step v w).mp hvw
    rcases hstep with hstep | ⟨hvx, hxw⟩
    · rw [h.around v w hv hw hstep]
      exact Ends.step hstep (ih hw)
    · rw [h.through v hv hvx, List.append_assoc]
      exact Ends.step hvx (Ends.step hxw (ih hw))

end Finite

section Infinite

open Classical in
/-- The positions of a path without the hidden block. -/
noncomputable def shown (x : α) (p : Nat → α) : Nat → Nat
  | 0 => 0
  | n + 1 => if p (shown x p n + 1) = x then shown x p n + 2 else shown x p n + 1

open Classical in
theorem shown_succ (n : Nat) : shown x p (n + 1) =
    if p (shown x p n + 1) = x then shown x p n + 2 else shown x p n + 1 := rfl

theorem le_shown (n : Nat) : n ≤ shown x p n := by
  induction n with
  | zero => exact Nat.le_refl 0
  | succ n ih =>
    rw [shown_succ]
    split
    · omega
    · omega

theorem shown_ne (h : Hides S T x) (hp : S.Endless v p) (hv : v ≠ x) (n : Nat) :
    p (shown x p n) ≠ x := by
  induction n with
  | zero => exact hp.1.symm ▸ hv
  | succ n ih =>
    rw [shown_succ]
    split
    · rename_i heq
      intro hx
      have hstep := hp.2 (shown x p n + 1)
      rw [heq, hx] at hstep
      exact h.loop hstep
    · rename_i hne
      exact hne

theorem endless_shown (h : Hides S T x) (hp : S.Endless v p) (hv : v ≠ x) :
    T.Endless v fun n => p (shown x p n) := by
  refine ⟨hp.1, fun n => ?_⟩
  have hne := shown_ne h hp hv n
  have hnext := shown_ne h hp hv (n + 1)
  refine (h.step _ _).mpr ⟨hne, hnext, ?_⟩
  have hstep := hp.2 (shown x p n)
  have hstep2 := hp.2 (shown x p n + 1)
  dsimp only
  rw [shown_succ]
  split
  · rename_i heq
    rw [heq] at hstep hstep2
    exact Or.inr ⟨hstep, hstep2⟩
  · exact Or.inl hstep

theorem emitted_shown (h : Hides S T x) (hp : S.Endless v p) (hv : v ≠ x) (n : Nat) :
    T.emitted (fun n => p (shown x p n)) n = S.emitted p (shown x p n) := by
  induction n with
  | zero => rfl
  | succ n ih =>
    have hne := shown_ne h hp hv n
    have hstep := hp.2 (shown x p n)
    have hlast : T.emitted (fun n => p (shown x p n)) (n + 1) =
        S.emitted p (shown x p n) ++ T.out (p (shown x p n)) := by
      rw [← ih]
      rfl
    rw [hlast, shown_succ]
    split
    · rename_i heq
      have hpair : S.emitted p (shown x p n + 2) =
          (S.emitted p (shown x p n) ++ S.out (p (shown x p n))) ++
            S.out (p (shown x p n + 1)) := rfl
      rw [heq] at hstep hpair
      rw [h.through _ hne hstep, hpair, List.append_assoc]
    · rename_i hnext
      rw [h.around _ _ hne hnext hstep]
      rfl

/-- A path and the positions of it that are shown give one sequence. -/
theorem prefixes_shown (h : Hides S T x) (hp : S.Endless v p) (hv : v ≠ x) :
    { l | ∃ n, l <+: T.emitted (fun n => p (shown x p n)) n } =
      { l | ∃ n, l <+: S.emitted p n } := by
  have hmono (n k : Nat) : S.emitted p n <+: S.emitted p (n + k) := by
    induction k with
    | zero => exact List.prefix_refl _
    | succ k ih => exact ih.trans (List.prefix_append _ _)
  ext l
  constructor
  · rintro ⟨n, hl⟩
    exact ⟨shown x p n, emitted_shown h hp hv n ▸ hl⟩
  · rintro ⟨n, hl⟩
    obtain ⟨k, hk⟩ := Nat.exists_eq_add_of_le (@le_shown α x p n)
    refine ⟨n, ?_⟩
    rw [emitted_shown h hp hv n, hk]
    exact hl.trans (hmono n k)

section Restored

variable (S : BlockFlow α β) (x : α) (q : Nat → α)

open Classical in
/-- Where the path through the hidden block stands: at a block of `q`, or at `x`
after it. -/
noncomputable def position : Nat → Nat × Bool
  | 0 => (0, false)
  | i + 1 =>
    if (position i).2 = false ∧ ¬ S.step (q (position i).1) (q ((position i).1 + 1)) then
      ((position i).1, true)
    else ((position i).1 + 1, false)

/-- The path with the hidden block put back where no step goes around it. -/
noncomputable def restored (i : Nat) : α :=
  if (position S q i).2 then x else q (position S q i).1

end Restored

open Classical in
theorem position_succ (i : Nat) : position S q (i + 1) =
    if (position S q i).2 = false ∧
        ¬ S.step (q (position S q i).1) (q ((position S q i).1 + 1)) then
      ((position S q i).1, true)
    else ((position S q i).1 + 1, false) := rfl

theorem restored_ne (hq : ∀ n, q n ≠ x) (i : Nat) :
    restored S x q i = x ↔ (position S q i).2 = true := by
  unfold restored
  split
  · rename_i hidden
    exact ⟨fun _ => hidden, fun _ => rfl⟩
  · rename_i hidden
    exact ⟨fun heq => absurd heq (hq _), fun htrue => absurd htrue hidden⟩

/-- The hidden block stands only where the path steps through it. -/
theorem position_hidden {i : Nat} (hi : (position S q i).2 = true) :
    ¬ S.step (q (position S q i).1) (q ((position S q i).1 + 1)) := by
  cases i with
  | zero => cases hi
  | succ i =>
    rw [position_succ] at hi ⊢
    split
    · rename_i hthrough
      exact hthrough.2
    · rename_i hnot
      rw [if_neg hnot] at hi
      cases hi

theorem endless_restored (h : Hides S T x) (hq : T.Endless v q) :
    S.Endless v (restored S x q) := by
  refine ⟨?_, fun i => ?_⟩
  · rw [← hq.1]
    rfl
  · obtain ⟨-, -, hstep⟩ := (h.step _ _).mp (hq.2 (position S q i).1)
    unfold restored
    rw [position_succ]
    split
    · rename_i hidden
      have hnot := position_hidden hidden
      have hthrough := hstep.resolve_left hnot
      simpa [hidden] using hthrough.2
    · rename_i hidden
      have hidden : (position S q i).2 = false := Bool.eq_false_iff.mpr hidden
      split
      · rename_i hthrough
        exact (hstep.resolve_left hthrough.2).1
      · rename_i hnot
        have hstep' : S.step (q (position S q i).1) (q ((position S q i).1 + 1)) := by
          by_contra hno
          exact hnot ⟨hidden, hno⟩
        exact hstep'

/-- The shown positions of the restored path are the blocks of `q`. -/
theorem position_shown (hq : ∀ n, q n ≠ x) (n : Nat) :
    position S q (shown x (restored S x q) n) = (n, false) := by
  induction n with
  | zero => rfl
  | succ n ih =>
    have hnext := position_succ (S := S) (q := q) (shown x (restored S x q) n)
    rw [ih] at hnext
    rw [shown_succ]
    split
    · rename_i hx
      have hidden := (restored_ne hq _).mp hx
      have hstay : position S q (shown x (restored S x q) n + 1) = (n, true) := by
        split at hnext
        · exact hnext
        · rw [hnext] at hidden
          cases hidden
      have hlast := position_succ (S := S) (q := q) (shown x (restored S x q) n + 1)
      rw [hstay] at hlast
      rw [hlast]
      exact if_neg fun hfalse => Bool.noConfusion hfalse.1
    · rename_i hx
      have hidden := mt (restored_ne hq _).mpr hx
      split at hnext
      · rw [hnext] at hidden
        exact absurd rfl hidden
      · exact hnext

theorem restored_shown (hq : ∀ n, q n ≠ x) :
    (fun n => restored S x q (shown x (restored S x q) n)) = q := by
  funext n
  have hposition := position_shown (S := S) hq n
  unfold restored at hposition ⊢
  rw [hposition]
  rfl

end Infinite

/-- Hiding a block changes no sequence. -/
theorem traces_eq (h : Hides S T x) (hv : v ≠ x) : S.traces v = T.traces v := by
  ext t
  constructor
  · rintro (⟨l, hends, rfl⟩ | ⟨p, hp, rfl⟩)
    · exact Or.inl ⟨l, (h.ends_to hends).1 hv, rfl⟩
    · exact Or.inr ⟨_, endless_shown h hp hv, congrArg _ (prefixes_shown h hp hv).symm⟩
  · rintro (⟨l, hends, rfl⟩ | ⟨q, hq, rfl⟩)
    · exact Or.inl ⟨l, h.ends_of hends hv, rfl⟩
    · have hne (n : Nat) : q n ≠ x := ((h.step _ _).mp (hq.2 n)).1
      have hp := endless_restored h hq
      have hprefixes := prefixes_shown h hp hv
      rw [restored_shown hne] at hprefixes
      exact Or.inr ⟨_, hp, congrArg _ hprefixes⟩

end Hides

namespace BlockFlow

variable {S : BlockFlow α β} {x m : α} {p : Nat → α}

theorem emitted_succ (n : Nat) :
    S.emitted p (n + 1) = S.out (p 0) ++ S.emitted (fun i => p (i + 1)) n := by
  induction n with
  | zero => exact (List.append_nil _).symm
  | succ n ih =>
    have hlast : S.emitted p (n + 1 + 1) = S.emitted p (n + 1) ++ S.out (p (n + 1)) := rfl
    rw [hlast, ih, List.append_assoc]
    rfl

/-- A block without output and with one successor starts the sequences of its
successor. -/
theorem traces_silent (hstep : ∀ w, S.step x w ↔ w = m) (hout : S.out x = []) :
    S.traces x = S.traces m := by
  have hprefixes {p : Nat → α} (hp : p 0 = x) : { l | ∃ n, l <+: S.emitted p n } =
      { l | ∃ n, l <+: S.emitted (fun i => p (i + 1)) n } := by
    have hsucc (n : Nat) : S.emitted p (n + 1) = S.emitted (fun i => p (i + 1)) n := by
      rw [emitted_succ, hp, hout, List.nil_append]
    ext l
    constructor
    · rintro ⟨n, hl⟩
      refine ⟨n, ?_⟩
      rw [← hsucc n]
      exact hl.trans (List.prefix_append _ _)
    · rintro ⟨n, hl⟩
      exact ⟨n + 1, (hsucc n).symm ▸ hl⟩
  ext t
  constructor
  · rintro (⟨l, hends, rfl⟩ | ⟨p, ⟨hp, hsteps⟩, rfl⟩)
    · cases hends with
      | stop hstop => exact absurd ((hstep m).mpr rfl) (hstop m)
      | @step _ w l hxw hends =>
        obtain rfl := (hstep w).mp hxw
        rw [hout, List.nil_append]
        exact Or.inl ⟨l, hends, rfl⟩
    · refine Or.inr ⟨fun i => p (i + 1), ⟨?_, fun i => hsteps (i + 1)⟩, congrArg _ (hprefixes hp)⟩
      exact (hstep _).mp (hp ▸ hsteps 0)
  · rintro (⟨l, hends, rfl⟩ | ⟨p, ⟨hp, hsteps⟩, rfl⟩)
    · have hfirst := Ends.step ((hstep m).mpr rfl) hends
      rw [hout, List.nil_append] at hfirst
      exact Or.inl ⟨l, hfirst, rfl⟩
    · let before : Nat → α
        | 0 => x
        | i + 1 => p i
      refine Or.inr ⟨before, ⟨rfl, ?_⟩, congrArg _ (@hprefixes before rfl).symm⟩
      intro n
      cases n with
      | zero => exact (hstep _).mpr hp
      | succ n => exact hsteps n

end BlockFlow

end BlockTraces
