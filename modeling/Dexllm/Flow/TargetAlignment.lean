import Dexllm.Core.MethodCodes
import Dexllm.Descriptors
import Dexllm.Flow.SnapshotSpecs

/-!
The branch, switch and array-data targets of the code items of an accepted dex.
The walk over the instructions bounds each target and compares it with nothing
else.
-/

namespace Dexllm

open Guarded Bytes Leb128 LinearSweep

section ClassCodes

variable {extra : Bool} {mem : Memory} {p n q q' last last' : Nat}
  {members members' : List (Nat × Nat)}

theorem MemberList.unique (h : MemberList extra mem p n members q last)
    (h' : MemberList extra mem p n members' q' last') :
    members = members' ∧ q = q' ∧ last = last' := by
  induction h generalizing members' q' last' with
  | nil =>
    cases h'
    exact ⟨rfl, rfl, rfl⟩
  | field hextra hlist hdiff haccess ih =>
    cases h' with
    | field hextra' hlist' hdiff' haccess' =>
      obtain ⟨rfl, rfl, rfl⟩ := ih hlist'
      obtain ⟨rfl, rfl⟩ := hdiff.unique hdiff'
      obtain ⟨rfl, rfl⟩ := haccess.unique haccess'
      exact ⟨rfl, rfl, rfl⟩
    | method hextra' => exact absurd (hextra.symm.trans hextra') Bool.false_ne_true
  | method hextra hlist hdiff haccess hcode ih =>
    cases h' with
    | field hextra' => exact absurd (hextra'.symm.trans hextra) Bool.false_ne_true
    | method hextra' hlist' hdiff' haccess' hcode' =>
      obtain ⟨rfl, rfl, rfl⟩ := ih hlist'
      obtain ⟨rfl, rfl⟩ := hdiff.unique hdiff'
      obtain ⟨rfl, rfl⟩ := haccess.unique haccess'
      obtain ⟨rfl, rfl⟩ := hcode.unique hcode'
      exact ⟨rfl, rfl, rfl⟩

theorem ClassData.methods_unique {sf inf dm vm sf' inf' dm' vm' : List (Nat × Nat)}
    (h : ClassData mem p sf inf dm vm) (h' : ClassData mem p sf' inf' dm' vm') :
    dm = dm' ∧ vm = vm' := by
  obtain ⟨_, _, _, _, _, _, _, _, _, _, _, _, hs, hi, hd, hv, hsf, hinf, hdm, hvm⟩ := h.layout
  obtain ⟨_, _, _, _, _, _, _, _, _, _, _, _, hs', hi', hd', hv', hsf', hinf', hdm', hvm'⟩ :=
    h'.layout
  obtain ⟨hsl, rfl⟩ := hs.unique hs'
  obtain ⟨hil, rfl⟩ := hi.unique hi'
  obtain ⟨hdl, rfl⟩ := hd.unique hd'
  obtain ⟨hvl, rfl⟩ := hv.unique hv'
  rw [← hsl] at hsf'
  rw [← hil] at hinf'
  rw [← hdl] at hdm'
  rw [← hvl] at hvm'
  obtain ⟨-, rfl, -⟩ := hsf.unique hsf'
  obtain ⟨-, rfl, -⟩ := hinf.unique hinf'
  obtain ⟨rfl, rfl, -⟩ := hdm.unique hdm'
  obtain ⟨rfl, -, -⟩ := hvm.unique hvm'
  exact ⟨rfl, rfl⟩

/-- The class_data of a class of the dex lists a method with the code item at
`off`. -/
def Verifier.HasCode (v : Verifier) (off : Nat) : Prop :=
  off ≠ 0 ∧ ∃ c < v.header.classDefsSize,
    (classDefAt v.image (v.classDefAddr c)).classDataOff ≠ 0 ∧
      ∃ sf inf dm vm, ClassData v.image
          (v.offsetToPtr (classDefAt v.image (v.classDefAddr c)).classDataOff) sf inf dm vm ∧
        ∃ m ∈ dm ++ vm, m.2 = off

theorem Accepted.verifyCodeItem {image : Memory} {headerOff methodHandleCount off : Nat}
    {checkInsns : Bool} {st : VerifyImageState} {v : Verifier} {deviations : List String}
    (h : Accepted image headerOff checkInsns st v methodHandleCount deviations)
    (hcode : v.HasCode off) : v.verifyCodeItem off = .ok () := by
  obtain ⟨hoff, c, hc, hdata, sf, inf, dm, vm, hclass, m, hm, rfl⟩ := hcode
  obtain ⟨sf', inf', dm', vm', hclass', hall⟩ := h.classCodes hc hdata
  obtain ⟨rfl, rfl⟩ := hclass.methods_unique hclass'
  exact (hall m hm).2 hoff

end ClassCodes

namespace CodeItem

variable (c : CodeItem)

/-- The target of the instruction at unit `k` that `VerifyInsns` bounds, for the
formats that have one. -/
def target (k : Nat) : Option Int :=
  (branchUnits (getFormatFromOpcode (c.opcode k)) (c.decodedAt k)).map fun units => k + units

/-- The first unit of the payload a switch or array-data instruction reads. -/
def payloadSignature (k : Nat) : Option Nat :=
  if c.opcode k = 0x26 then some kArrayDataSignature
  else if c.opcode k = 0x2B then some kPackedSwitchSignature
  else if c.opcode k = 0x2C then some kSparseSwitchSignature
  else none

/-- A target inside `insns`, at the first unit of an instruction or payload of
the walk, a payload of its own kind for a switch or array-data instruction. -/
def TargetAligned (k : Nat) : Prop :=
  ∀ t, c.target k = some t → ∃ j ∈ c.boundaries, (j : Int) = t ∧
    ∀ signature, c.payloadSignature k = some signature → c.unit j = signature

/-- The instruction at unit `k` leads past the first unit of an instruction or
payload of the walk but not to its end, or is a switch or array-data instruction
that leads to a unit other than its signature. -/
def TargetAstray (k : Nat) : Prop :=
  ∃ t, c.target k = some t ∧
    ((∃ j ∈ c.boundaries, (j : Int) < t ∧ t < (j : Int) + c.getBytecodeWidth j) ∨
      ∃ signature, c.payloadSignature k = some signature ∧ c.unit t.toNat ≠ signature)

variable {c} {k : Nat} {t : Int}

theorem target_lt (hc : c.Decodes) (hk : k ∈ c.starts) (ht : c.target k = some t) :
    0 ≤ t ∧ t < c.insnsSize := by
  obtain ⟨units, hunits, rfl⟩ := Option.map_eq_some_iff.mp ht
  obtain ⟨d, hd, hbound⟩ := hc.insn k hk
  rw [decodedAt, hd] at hunits
  exact hbound units hunits

/-- The walk leaves no unit out. -/
theorem exists_covering (hc : c.Decodes) {i : Nat} (hi : i < c.insnsSize) :
    ∃ j ∈ c.boundaries, j ≤ i ∧ i < j + c.getBytecodeWidth j :=
  sweepFrom_covers (Nat.le_refl _) (fun j hj => (hc.width j hj).1) (Nat.zero_le i) hi

theorem aligned_iff (hc : c.Decodes) (hk : k ∈ c.starts) :
    c.TargetAligned k ↔ ¬ c.TargetAstray k := by
  constructor
  · rintro haligned ⟨t, ht, hastray⟩
    obtain ⟨j, hj, rfl, hkind⟩ := haligned t ht
    rcases hastray with ⟨i, hi, hlow, hup⟩ | ⟨signature, hsignature, hne⟩
    · have := hc.apart hi hj (by omega)
      omega
    · exact hne (hkind signature hsignature)
  · intro hnot t ht
    obtain ⟨hlow, hup⟩ := target_lt hc hk ht
    obtain ⟨i, rfl⟩ := Int.eq_ofNat_of_zero_le hlow
    obtain ⟨j, hj, hji, hij⟩ := exists_covering hc (Int.ofNat_lt.mp hup)
    have hsame : j = i := by
      by_contra hne
      exact hnot ⟨i, ht, Or.inl ⟨j, hj, by omega, by omega⟩⟩
    subst hsame
    refine ⟨j, hj, rfl, fun signature hsignature => ?_⟩
    by_contra hne
    exact hnot ⟨j, ht, Or.inr ⟨signature, hsignature, hne⟩⟩

end CodeItem

/-- `spacedDex` with a body for `a()V`: `goto +2; goto/16 +2; return-void`. -/
def strayDex : Memory :=
  ((spacedDex.set 32 92).set 188 80).set 189 1 ++
    [0, 0, 0, 0, 0, 0, 0, 0, 0, 0, 0, 0, 4, 0, 0, 0, 0x28, 2, 0x29, 0, 2, 0, 0x0E, 0] ++
    [0, 0, 2, 0, 0, 1, 0xB8, 2, 1, 1, 0, 0]

set_option maxRecDepth 20000 in
theorem strayDex_runs : (verifyDex strayDex true 0 {}).1.ok = true ∧
    (∀ p ∈ [336, 337, 338, 339, 340, 341, 343, 344, 345, 346], p < strayDex.length ∧
      byteAt strayDex p &&& 0x80 = 0 ∧
        (p ≠ 343 → ulebValue strayDex p 1 % 2 ^ 32 = byteAt strayDex p)) ∧
    byteAt strayDex 342 &&& 0x80 ≠ 0 ∧ 312 = ulebValue strayDex 342 2 % 2 ^ 32 ∧
    (do
      let v ← openVerifier strayDex 0 true
      pure ((v.header.classDefsSize, (classDefAt v.image (v.classDefAddr 0)).classDataOff,
        v.offsetToPtr 336), (v.codeItem 312).starts, (v.codeItem 312).boundaries,
        (v.codeItem 312).target 0)) =
      .ok ((1, 336, 336), [0, 1, 3], [0, 1, 3], some 2) := by
  decide

/-- The class_data of `strayDex`. -/
theorem strayDex_classData :
    ClassData strayDex 336 [] [] [(0, 312), (1, 0)] [] := by
  obtain ⟨-, hall, hmore, hvalue, -⟩ := strayDex_runs
  have huleb (p : Nat) (hin : p ∈ [336, 337, 338, 339, 340, 341, 344, 345, 346]) :
      UlebAt strayDex p (byteAt strayDex p) (p + 1) := by
    obtain ⟨hlt, hsmall, hvalue⟩ := hall p (by grind)
    have hne : p ≠ 343 := by
      rintro rfl
      exact absurd hin (by decide)
    exact ⟨1, ⟨Nat.one_pos, by omega, hsmall⟩, by decide, (hvalue hne).symm, rfl, hlt⟩
  have hcode : UlebAt strayDex 342 312 344 := by
    obtain ⟨hlast, hend, -⟩ := hall 343 (by simp)
    refine ⟨2, ⟨by decide, ?_, hend⟩, by decide, hvalue, rfl, hlast⟩
    intro i hi
    obtain rfl : i = 0 := by omega
    exact hmore
  refine ⟨337, 338, 339, 340, 340, 340, 347, 347, 0, 0, 1, 0, huleb 336 (by decide),
    huleb 337 (by decide), huleb 338 (by decide), huleb 339 (by decide), .nil, .nil, ?_, .nil⟩
  exact .method rfl (.method rfl .nil (huleb 340 (by decide)) (huleb 341 (by decide)) hcode)
    (huleb 344 (by decide)) (huleb 345 (by decide)) (huleb 346 (by decide))

/-- The one class of `strayDex` lists the code item, whose walk stops at the
units 0, 1 and 3, and whose first instruction leads to unit 2. -/
theorem strayDex_code : ∃ v, openVerifier strayDex 0 true = .ok v ∧ v.HasCode 312 ∧
    0 ∈ (v.codeItem 312).starts ∧ (v.codeItem 312).boundaries = [0, 1, 3] ∧
    (v.codeItem 312).target 0 = some 2 := by
  obtain ⟨-, -, -, -, hrun⟩ := strayDex_runs
  obtain ⟨v, hopen, hrun⟩ := bind_eq_ok.mp hrun
  obtain ⟨⟨hsize, hdata, hptr⟩, hstarts, hboundaries, htarget⟩ : (v.header.classDefsSize = 1 ∧
      (classDefAt v.image (v.classDefAddr 0)).classDataOff = 336 ∧ v.offsetToPtr 336 = 336) ∧
      (v.codeItem 312).starts = [0, 1, 3] ∧ (v.codeItem 312).boundaries = [0, 1, 3] ∧
      (v.codeItem 312).target 0 = some 2 := by
    simpa only [pure_eq_ok, Except.ok.injEq, Prod.mk.injEq] using hrun
  have himage : v.image = strayDex := (post_of_ok (wp_openVerifier _ _ _) hopen).2.1
  refine ⟨v, hopen, ⟨by decide, 0, by omega, by omega, [], [], [(0, 312), (1, 0)], [], ?_,
    (0, 312), by simp, rfl⟩, by simp [hstarts], hboundaries, htarget⟩
  rw [hdata, hptr, himage]
  exact strayDex_classData

end Dexllm
