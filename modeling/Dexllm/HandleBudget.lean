import Dexllm.Verifier.Verify
import Mathlib.Data.List.Induction

/-!
The work budget of the method_handle walks of one image. What is left of the
budget and what was spent of it add up to the seed; the seed is granted again
only to a scratch that looks unused, and a scratch whose failing walks spent
the whole budget does.
-/

namespace Dexllm

open Guarded Bytes

namespace VerifyImageState

/-- The entries left and the entries of every walk that was started. -/
def granted (st : VerifyImageState) : Nat := st.methodHandleEntriesLeft + st.entered.sum

/-- A used scratch that the next verifier takes for an unused one. -/
def Reseeds (st : VerifyImageState) : Prop :=
  st.entered ≠ [] ∧ st.methodHandleEntriesLeft = 0 ∧ st.walkedMethodHandles = []

instance (st : VerifyImageState) : Decidable st.Reseeds := inferInstanceAs (Decidable (_ ∧ _))

theorem granted_enter {st : VerifyImageState} {count : Nat}
    (h : count ≤ st.methodHandleEntriesLeft) : (st.enter count).granted = st.granted := by
  simp only [granted, enter, List.sum_cons]
  omega

theorem granted_seed_empty (imageSize : Nat) :
    (seed {} imageSize).granted = imageSize / MethodHandle.bytes + 1 := by
  simp [seed, granted]

/-- A scratch in use that does not reseed is left as it is. -/
theorem seed_of_not_reseeds {st : VerifyImageState} {imageSize : Nat} (hused : 0 < st.granted)
    (h : ¬st.Reseeds) : st.seed imageSize = st := by
  unfold seed
  split
  · rename_i hempty
    have hentered : st.entered ≠ [] := by
      intro hnil
      simp [granted, hnil, hempty.1] at hused
    exact absurd ⟨hentered, hempty⟩ h
  · rfl

end VerifyImageState

section Granted

variable (total : Nat)

/-- A walk takes from the budget what it adds to the entries spent. -/
theorem keeps_verifyMethodHandleSection (v : Verifier) (off count : Nat) :
    Scratch.Keeps (fun st => st.granted = total) (v.verifyMethodHandleSection off count) := by
  intro st hst
  simp only [Verifier.verifyMethodHandleSection, Scratch.bind_apply, Scratch.get_apply,
    Scratch.andThen_ok]
  cases st.walkedMethodHandles.lookup (off, count) with
  | some needs => exact hst
  | none =>
    by_cases hbudget : st.methodHandleEntriesLeft < count
    · simpa [failIf, fail, hbudget, Scratch.bind_apply] using hst
    · have henter : (st.enter count).granted = total := by
        rw [VerifyImageState.granted_enter (Nat.le_of_not_lt hbudget), hst]
      simp only [failIf, hbudget, if_false, Scratch.bind_apply, Scratch.lift_apply,
        Scratch.andThen_ok, Scratch.set_apply]
      cases loop count ⟨0, 0⟩ (v.verifyMethodHandle off) with
      | error e => exact henter
      | ok needs => exact henter

theorem keeps_checkMapItems (v : Verifier) (rounds i : Nat) (cursor : MapCursor) :
    Scratch.Keeps (fun st => st.granted = total) (v.checkMapItems rounds i cursor) := by
  induction rounds generalizing i cursor with
  | zero => exact Scratch.keeps_pure _ _
  | succ rounds ih =>
    refine Scratch.keeps_bind (Scratch.keeps_lift _ _) fun item => ?_
    refine Scratch.keeps_bind (Scratch.keeps_lift _ _) fun cursor => ?_
    split
    · exact Scratch.keeps_bind (keeps_verifyMethodHandleSection total v _ _) fun _ => ih _ _
    · exact ih _ _

theorem keeps_verifyPhases (image : Memory) (headerOff : Nat) (checkInsns : Bool) :
    Scratch.Keeps (fun st => st.granted = total)
      (Verifier.verifyPhases image headerOff checkInsns) := by
  refine Scratch.keeps_bind (Scratch.keeps_lift _ _) fun v => ?_
  refine Scratch.keeps_bind (Scratch.keeps_lift _ _) fun _ => ?_
  refine Scratch.keeps_bind ?_ fun _ => Scratch.keeps_lift _ _
  refine Scratch.keeps_bind (Scratch.keeps_lift _ _) fun count => ?_
  refine Scratch.keeps_bind (keeps_checkMapItems total v _ _ _) fun cursor => ?_
  exact Scratch.keeps_bind (Scratch.keeps_lift _ _) fun _ => Scratch.keeps_pure _ _

end Granted

/-- One `VerifyDex` call over an image. -/
structure VerifyCall where
  headerOff : Nat
  checkInsns : Bool
  deriving DecidableEq, Repr

/-- The scratch a list of calls leaves behind. -/
def afterCalls (image : Memory) (calls : List VerifyCall) : VerifyImageState :=
  calls.foldl (fun st call => (verifyDex image call.checkInsns call.headerOff st).2) {}

/-- No call finds a scratch that earlier calls used up without accepting a
section. -/
def NeverReseeds (image : Memory) (calls : List VerifyCall) : Prop :=
  ∀ pre call, pre ++ [call] <+: calls → ¬(afterCalls image pre).Reseeds

/-- After a call the budget granted in all is the seed. -/
theorem granted_verifyDex {image : Memory} {call : VerifyCall} {st : VerifyImageState}
    (hst : st = {} ∨ st.granted = image.length / MethodHandle.bytes + 1) (h : ¬st.Reseeds) :
    (verifyDex image call.checkInsns call.headerOff st).2.granted =
      image.length / MethodHandle.bytes + 1 := by
  apply keeps_verifyPhases
  rcases hst with rfl | hst
  · exact VerifyImageState.granted_seed_empty _
  · have hused : 0 < st.granted := hst ▸ Nat.succ_pos _
    rw [VerifyImageState.seed_of_not_reseeds hused h, hst]

theorem granted_afterCalls {image : Memory} {calls : List VerifyCall}
    (h : NeverReseeds image calls) :
    afterCalls image calls = {} ∨
      (afterCalls image calls).granted = image.length / MethodHandle.bytes + 1 := by
  induction calls using List.reverseRecOn with
  | nil => exact .inl rfl
  | append_singleton calls call ih =>
    have hinit := ih fun pre c hpre => h pre c (hpre.trans (List.prefix_append _ _))
    right
    have hstep := @granted_verifyDex _ call _ hinit (h calls call (List.prefix_refl _))
    simpa [afterCalls, List.foldl_append] using hstep

/-- The entries of the section walks of one image stay within its budget, in
every state of a run that never reseeds. -/
theorem entered_sum_le {image : Memory} {calls : List VerifyCall}
    (h : NeverReseeds image calls) : ∀ done, done <+: calls →
      (afterCalls image done).entered.sum ≤ image.length / MethodHandle.bytes + 1 := by
  intro done hdone
  have hnever : NeverReseeds image done := fun pre c hpre => h pre c (hpre.trans hdone)
  rcases granted_afterCalls hnever with hst | hst
  · simp [hst]
  · exact hst ▸ Nat.le_add_left _ _

/-- A version 41 container of three dexes that share one map and one section of
51 method handles, none of which has a field to name. -/
def exhaustedContainer : Memory :=
  header41 0 120 ++ header41 120 120 ++ header41 240 568 ++
    [3, 0, 0, 0] ++ mapItem 0 1 0 ++ mapItem 0x1000 1 360 ++ mapItem 8 51 400 ++
    List.replicate 408 0
where
  u4 (n : Nat) : Memory := [.ofNat n, .ofNat (n / 256), 0, 0]
  mapItem (type size off : Nat) : Memory :=
    [.ofNat type, .ofNat (type / 256), 0, 0] ++ u4 size ++ u4 off
  header41 (off fileSize : Nat) : Memory :=
    [0x64, 0x65, 0x78, 0x0a, 0x30, 0x34, 0x31, 0x00] ++ List.replicate 24 0 ++ u4 fileSize ++
      u4 120 ++ [0x78, 0x56, 0x34, 0x12] ++ u4 0 ++ u4 0 ++ u4 360 ++ List.replicate 56 0 ++
      u4 808 ++ u4 off

/-- The calls for its slices in order. -/
def exhaustingCalls : List VerifyCall := [⟨0, true⟩, ⟨120, true⟩, ⟨240, true⟩]

/-- The bound on the first two slices, whose failing walks spend the whole
budget. -/
theorem entered_sum_le_exhaustedContainer :
    (afterCalls exhaustedContainer [⟨0, true⟩, ⟨120, true⟩]).entered.sum ≤
      exhaustedContainer.length / MethodHandle.bytes + 1 := by
  refine @entered_sum_le _ [⟨0, true⟩, ⟨120, true⟩] ?_ _ (List.prefix_refl _)
  intro pre call hpre
  have hcases : pre = [] ∨ pre = [⟨0, true⟩] := by
    rcases pre with _ | ⟨c, _ | ⟨d, pre⟩⟩
    · exact .inl rfl
    · simp only [List.cons_append, List.nil_append, List.cons_prefix_cons] at hpre
      exact .inr (by rw [hpre.1])
    · simpa using hpre.length_le
  rcases hcases with rfl | rfl <;> decide +kernel

/-- The third slice finds the budget used up and the memo empty, and is granted
the budget again. -/
theorem exhaustedContainer_over_budget :
    ¬(afterCalls exhaustedContainer exhaustingCalls).entered.sum ≤
      exhaustedContainer.length / MethodHandle.bytes + 1 := by
  decide +kernel

end Dexllm
