import Dexllm.Verifier.Inter

/-!
`VerifyDex`: the phases in order over one header of an image, with the image's
scratch threaded through.
-/

namespace Dexllm

open Guarded Bytes

/-- `DexVerifyResult`. -/
structure DexVerifyResult where
  ok : Bool
  reason : String := ""
  artDeviations : List String := []
  deriving DecidableEq, Repr

/-- The constructor of `DexVerifier`: the entry budget is seeded from the
image when the scratch looks unused. -/
def VerifyImageState.seed (st : VerifyImageState) (imageSize : Nat) : VerifyImageState :=
  if st.methodHandleEntriesLeft = 0 ∧ st.walkedMethodHandles = [] then
    { st with methodHandleEntriesLeft := imageSize / MethodHandle.bytes + 1 }
  else st

/-- The phases of `Verify` after `CheckMap`, which no longer touch the
scratch. -/
def Verifier.checkSectionsAfterMap (v : Verifier) (methodHandleCount : Nat) :
    Run (List String) := do
  v.checkIntraSection methodHandleCount
  v.checkInterSection

/-- `DexVerifier::Verify`. -/
def Verifier.verifyPhases (image : Memory) (headerOff : Nat) (checkInsns : Bool) :
    Scratch VerifyImageState (List String) := do
  let v ← Scratch.lift (openVerifier image headerOff checkInsns)
  Scratch.lift v.checkHeader
  let methodHandleCount ← v.checkMap
  Scratch.lift (v.checkSectionsAfterMap methodHandleCount)

/-- A verifier built over the scratch and run: its outcome, and the scratch it
leaves. -/
def verify (image : Memory) (headerOff : Nat) (checkInsns : Bool) :
    Scratch VerifyImageState (List String) := fun st =>
  Verifier.verifyPhases image headerOff checkInsns (st.seed image.length)

/-- The result `VerifyDex` makes of an outcome. A throw is a rejection. -/
def resultOf : Run (List String) → DexVerifyResult
  | .ok deviations => { ok := true, artDeviations := deviations }
  | .error (.reject reason) => { ok := false, reason := reason }
  | .error (.thrown what) => { ok := false, reason := "malformed dex: " ++ what }
  | .error .oob => { ok := false, reason := "" }

/-- `VerifyDex`. -/
def verifyDex (image : Memory) (checkInsns : Bool) (headerOff : Nat) (st : VerifyImageState) :
    DexVerifyResult × VerifyImageState :=
  let (outcome, st) := verify image headerOff checkInsns st
  (resultOf outcome, st)

end Dexllm
