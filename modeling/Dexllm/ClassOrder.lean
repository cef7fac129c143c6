import Dexllm.Verifier.VerifySpecs
import Mathlib.Logic.Relation

/-!
The order of class_defs by inheritance. `VerifyClassDefs` compares a
superclass's position with a table that has only the class_defs before the one
at hand, so the comparison never rejects; what it would establish over the
finished table is stated here next to what acceptance alone gives.
-/

namespace Dexllm

open Guarded Bytes

namespace Verifier

variable (v : Verifier)

/-- The class_def at position `c`. -/
def classDefView (c : Nat) : ClassDef := classDefAt v.image (v.classDefAddr c)

/-- The class_def at `d` defines the superclass of the one at `c`. -/
def SuperDefinedBy (c d : Nat) : Prop :=
  c < v.header.classDefsSize ∧ d < v.header.classDefsSize ∧
    (v.classDefView d).classIdx = (v.classDefView c).superclassIdx

/-- A superclass defined in the dex comes first, so inheritance inside the dex
has no cycle. -/
structure SuperclassOrder : Prop where
  after : ∀ c d, v.SuperDefinedBy c d → d < c
  acyclic : ∀ c, ¬Relation.TransGen v.SuperDefinedBy c c

/-- The lookup of class_def `c`'s superclass among the class_defs after it. -/
def forwardSuperclass (c : Nat) : Bool :=
  (List.range v.header.classDefsSize).any fun d =>
    decide (c < d) && (v.classDefView d).classIdx == (v.classDefView c).superclassIdx

variable {v}

theorem forwardSuperclass_eq_false {c : Nat} (hc : c < v.header.classDefsSize) :
    v.forwardSuperclass c = false ↔ ∀ d, v.SuperDefinedBy c d → ¬c < d := by
  simp only [forwardSuperclass, List.any_eq_false, List.mem_range, Bool.and_eq_true,
    decide_eq_true_eq, beq_iff_eq, not_and]
  constructor
  · rintro h d ⟨_, hd, hdefines⟩ hlt
    exact h d hd hlt hdefines
  · intro h d hd hlt hdefines
    exact h d ⟨hc, hd, hdefines⟩ hlt

/-- In round `c` of `VerifyClassDefs` the table has earlier positions only, so
the comparison of positions rejects nothing. -/
theorem checkSuperclass_eq {c cls superclass : Nat} {table : List (Nat × Nat)}
    (htable : ∀ entry ∈ table, entry.2 < c) (hsuper : superclass < v.header.typeIdsSize) :
    v.checkSuperclass c cls superclass table = (do
      failIf (superclass = cls) "Class is its own superclass"
      v.verifyTypeDescriptor superclass "class_def: invalid superclass" fun d => d == 0x4c) := by
  have hdead : (table.lookup superclass).any (fun d => c < d) = false := by
    induction table with
    | nil => rfl
    | cons entry table ih =>
      rw [List.lookup_cons]
      by_cases htype : superclass = entry.1
      · have hlt := htable entry List.mem_cons_self
        simp only [htype, beq_self_eq_true, Option.any_some, decide_eq_false_iff_not]
        omega
      · rw [show (superclass == entry.1) = false by simpa using htype]
        exact ih fun e he => htable e (List.mem_cons_of_mem _ he)
  have hpass : failIf ((table.lookup superclass).any (fun d => c < d) = true)
      "Class defined before its superclass" = .ok () := failIf_eq_ok.mpr (by simp [hdead])
  simp only [checkSuperclass, definedAt, hsuper, if_true, bind_ok, hpass]
  cases failIf (superclass = cls) "Class is its own superclass" with
  | error e => rfl
  | ok _ =>
    simp only [bind_ok]
    cases v.verifyTypeDescriptor superclass "class_def: invalid superclass" fun d => d == 0x4c with
    | error e => rfl
    | ok _ => rfl

end Verifier

section Order

variable {image : Memory} {headerOff : Nat} {checkInsns : Bool} {st : VerifyImageState}
  {v : Verifier}

/-- In an accepted dex a class never defines its own superclass. -/
theorem superDefinedBy_irrefl {methodHandleCount : Nat} {deviations : List String}
    (h : Accepted image headerOff checkInsns st v methodHandleCount deviations) (c : Nat) :
    ¬v.SuperDefinedBy c c := by
  rintro ⟨hc, _, hself⟩
  have hvalid := h.interOk.classDefValid c hc
  have hcls := (h.intraOk.classDef c hc).cls
  by_cases hnone : (v.classDefView c).superclassIdx = kNoIndex
  · have hlimit := h.tablesOk.typeLimit
    change (v.classDefView c).classIdx < v.header.typeIdsSize at hcls
    unfold kNoIndex at hlimit hnone
    omega
  · exact hvalid.superclass hnone hself.symm

end Order

/-- Two classes, each the superclass of the other. -/
def cyclicDex : Memory := [
  100, 101, 120, 10, 48, 51, 53, 0, 0, 0, 0, 0, 0, 0, 0, 0, 0, 0, 0, 0, 0, 0, 0, 0,
  0, 0, 0, 0, 0, 0, 0, 0, 12, 1, 0, 0, 112, 0, 0, 0, 120, 86, 52, 18, 0, 0, 0, 0,
  0, 0, 0, 0, 204, 0, 0, 0, 2, 0, 0, 0, 112, 0, 0, 0, 2, 0, 0, 0, 120, 0, 0, 0,
  0, 0, 0, 0, 0, 0, 0, 0, 0, 0, 0, 0, 0, 0, 0, 0, 0, 0, 0, 0, 0, 0, 0, 0,
  2, 0, 0, 0, 128, 0, 0, 0, 0, 0, 0, 0, 0, 0, 0, 0, 192, 0, 0, 0, 197, 0, 0, 0,
  0, 0, 0, 0, 1, 0, 0, 0, 0, 0, 0, 0, 1, 0, 0, 0, 1, 0, 0, 0, 0, 0, 0, 0,
  255, 255, 255, 255, 0, 0, 0, 0, 0, 0, 0, 0, 0, 0, 0, 0, 1, 0, 0, 0, 1, 0, 0, 0,
  0, 0, 0, 0, 0, 0, 0, 0, 255, 255, 255, 255, 0, 0, 0, 0, 0, 0, 0, 0, 0, 0, 0, 0,
  3, 76, 65, 59, 0, 3, 76, 66, 59, 0, 0, 0, 5, 0, 0, 0, 0, 0, 0, 0, 1, 0, 0, 0,
  0, 0, 0, 0, 1, 0, 0, 0, 2, 0, 0, 0, 112, 0, 0, 0, 2, 0, 0, 0, 2, 0, 0, 0,
  120, 0, 0, 0, 6, 0, 0, 0, 2, 0, 0, 0, 128, 0, 0, 0, 0, 16, 0, 0, 1, 0, 0, 0,
  204, 0, 0, 0]

set_option maxRecDepth 20000 in
/-- Acceptance alone leaves both directions open: here is a dex to decide. -/
theorem cyclicDex_runs : (verifyDex cyclicDex true 0 {}).1.ok = true ∧
    (openVerifier cyclicDex 0 true).map (fun v =>
      (v.header.classDefsSize, (v.classDefView 0).superclassIdx, (v.classDefView 1).classIdx)) =
      .ok (2, 1, 1) := by
  decide

end Dexllm
