import Dexllm.Verifier.InterSpecs
import Dexllm.Verifier.Verify

/-!
`VerifyDex` as a whole: it never leaves the image, and an accepted dex satisfies
what the phases establish.
-/

namespace Dexllm

open Guarded Bytes

/-- What an accepting run went through: the verifier it opened, the
method_handle count its map gave, and the phases that passed. -/
structure Accepted (image : Memory) (headerOff : Nat) (checkInsns : Bool)
    (st : VerifyImageState) (v : Verifier) (methodHandleCount : Nat)
    (deviations : List String) : Prop where
  opened : openVerifier image headerOff checkInsns = .ok v
  header : v.checkHeader = .ok ()
  map : (v.checkMap (st.seed image.length)).1 = .ok methodHandleCount
  intra : v.checkIntraSection methodHandleCount = .ok ()
  inter : v.checkInterSection = .ok deviations

namespace Accepted

variable {image : Memory} {headerOff : Nat} {checkInsns : Bool} {st : VerifyImageState}
  {v : Verifier} {methodHandleCount : Nat} {deviations : List String}
  (h : Accepted image headerOff checkInsns st v methodHandleCount deviations)

include h

theorem openSpec : v.headerOff ≤ v.image.length ∧ v.image = image ∧ v.headerOff = headerOff ∧
    v.checkInsns = checkInsns := by
  have hopen := wp_openVerifier image headerOff checkInsns
  rw [h.opened] at hopen
  exact hopen

theorem tablesOk : v.TablesOk := by
  have hheader := Verifier.wp_checkHeader h.openSpec.1
  rw [h.header] at hheader
  exact hheader

theorem intraOk : v.IntraOk methodHandleCount := by
  have hintra := @Verifier.wp_checkIntraSection _ methodHandleCount h.tablesOk
  rw [h.intra] at hintra
  exact hintra

theorem interOk : v.InterOk := (post_of_ok (Verifier.wp_checkInterSection h.intraOk) h.inter).1

/-- A strict pass accepts nothing that ART rejects by string order. -/
theorem deviations_eq_nil (hstrict : checkInsns = true) : deviations = [] := by
  apply (post_of_ok (Verifier.wp_checkInterSection h.intraOk) h.inter).2
  rw [h.openSpec.2.2.2, hstrict]

theorem verify_eq : (verify image headerOff checkInsns st).1 = .ok deviations := by
  rcases hmap : v.checkMap (st.seed image.length) with ⟨r, st'⟩
  have hcount : r = .ok methodHandleCount := by
    have hrun := h.map
    rwa [hmap] at hrun
  simp only [verify, Verifier.verifyPhases, h.opened, Scratch.andThen_ok, h.header,
    Scratch.bind_apply, hmap, hcount, Scratch.lift_apply, Verifier.checkSectionsAfterMap, h.intra,
    bind_ok, h.inter]

end Accepted

section Verify

variable (image : Memory) (headerOff : Nat) (checkInsns : Bool) (st : VerifyImageState)

/-- No read of `VerifyDex` leaves the image: a run never faults, whatever the
image, the header offset, the check mode and the scratch are. -/
theorem verify_in_bounds : (verify image headerOff checkInsns st).1 ≠ .error .oob := by
  apply @ne_oob_of_wp _ _ (fun _ => True)
  simp only [verify, Verifier.verifyPhases, Scratch.wp_bind, Scratch.lift_apply]
  refine wp_mono (wp_openVerifier image headerOff checkInsns) fun v hv => ?_
  refine wp_mono (Verifier.wp_checkHeader hv.1) fun _ htables => ?_
  refine wp_mono (Verifier.wp_checkMap _) fun methodHandleCount _ => ?_
  simp only [Verifier.checkSectionsAfterMap, wp_bind]
  refine wp_mono (Verifier.wp_checkIntraSection htables) fun _ hintra => ?_
  exact wp_mono (Verifier.wp_checkInterSection hintra) fun _ _ => trivial

variable {image headerOff checkInsns st}

/-- A run that returns went through every phase. -/
theorem accepted_of_verify {deviations : List String}
    (h : (verify image headerOff checkInsns st).1 = .ok deviations) :
    ∃ v methodHandleCount,
      Accepted image headerOff checkInsns st v methodHandleCount deviations := by
  simp only [verify, Verifier.verifyPhases, Scratch.lift_bind_apply] at h
  cases hopen : openVerifier image headerOff checkInsns with
  | error e => simp [hopen] at h
  | ok v =>
    simp only [hopen, Scratch.andThen_ok, Scratch.lift_bind_apply] at h
    cases hheader : v.checkHeader with
    | error e => simp [hheader] at h
    | ok _ =>
      simp only [hheader, Scratch.andThen_ok, Scratch.bind_apply] at h
      rcases hmap : v.checkMap (st.seed image.length) with ⟨r, st'⟩
      cases r with
      | error e => simp [hmap] at h
      | ok methodHandleCount =>
        simp only [hmap, Scratch.andThen_ok, Scratch.lift_apply, Verifier.checkSectionsAfterMap,
          bind_eq_ok] at h
        obtain ⟨_, hintra, hinter⟩ := h
        exact ⟨v, methodHandleCount, hopen, hheader, by rw [hmap], hintra, hinter⟩

/-- `VerifyDex` says ok exactly when the run returned. -/
theorem verifyDex_ok_iff :
    (verifyDex image checkInsns headerOff st).1.ok = true ↔
      ∃ deviations, (verify image headerOff checkInsns st).1 = .ok deviations := by
  simp only [verifyDex]
  cases (verify image headerOff checkInsns st).1 with
  | ok deviations => simp [resultOf]
  | error e => cases e <;> simp [resultOf]

theorem accepted_of_verifyDex (h : (verifyDex image checkInsns headerOff st).1.ok = true) :
    ∃ v methodHandleCount deviations,
      Accepted image headerOff checkInsns st v methodHandleCount deviations := by
  obtain ⟨deviations, hrun⟩ := verifyDex_ok_iff.mp h
  obtain ⟨v, methodHandleCount, haccepted⟩ := accepted_of_verify hrun
  exact ⟨v, methodHandleCount, deviations, haccepted⟩

end Verify

end Dexllm
