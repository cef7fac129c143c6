import Dexllm.Verifier.VerifySpecs
import Dexllm.TextCodec

/-!
The order of the members of a class. An encoded member has the difference of its
index to the one before it; the verifier adds the differences up in 32 bits and
bounds each sum, so a difference above the table can still lead back into it.
-/

namespace Dexllm

open Guarded Bytes Leb128

/-- The member indices a walk computes from the differences of a list. -/
def runningIndices (idx : Nat) : List Nat → List Nat
  | [] => []
  | diff :: diffs => (idx + diff) % 2 ^ 32 :: runningIndices ((idx + diff) % 2 ^ 32) diffs

/-- The sums of the differences. -/
def prefixSums (sum : Nat) : List Nat → List Nat
  | [] => []
  | diff :: diffs => (sum + diff) :: prefixSums (sum + diff) diffs

/-- The walk computes the sums, and no index is below the one before it. -/
structure MembersInOrder (diffs : List Nat) : Prop where
  exact : runningIndices 0 diffs = prefixSums 0 diffs
  ordered : (runningIndices 0 diffs).Pairwise (· ≤ ·)

/-- `DiffList extra mem p diffs q`: the encoded members from `p` to `q` have these
index differences. -/
inductive DiffList (extra : Bool) (mem : Memory) (p : Nat) : List Nat → Nat → Prop where
  | nil : DiffList extra mem p [] p
  | field {q diff q1 access q2 : Nat} {diffs : List Nat} (hextra : extra = false)
      (hlist : DiffList extra mem p diffs q) (hdiff : UlebAt mem q diff q1)
      (haccess : UlebAt mem q1 access q2) : DiffList extra mem p (diffs ++ [diff]) q2
  | method {q diff q1 access q2 codeOff q3 : Nat} {diffs : List Nat} (hextra : extra = true)
      (hlist : DiffList extra mem p diffs q) (hdiff : UlebAt mem q diff q1)
      (haccess : UlebAt mem q1 access q2) (hcode : UlebAt mem q2 codeOff q3) :
      DiffList extra mem p (diffs ++ [diff]) q3

/-- The index differences of the four lists of a class_data item. -/
structure ClassDiffs where
  staticFields : List Nat
  instanceFields : List Nat
  directMethods : List Nat
  virtualMethods : List Nat
  deriving DecidableEq, Repr

/-- The class_data at `p` has these differences. -/
def ClassDiffs.EncodedAt (d : ClassDiffs) (mem : Memory) (p : Nat) : Prop :=
  ∃ p1 p2 p3 p4 q1 q2 q3 q4,
    UlebAt mem p d.staticFields.length p1 ∧ UlebAt mem p1 d.instanceFields.length p2 ∧
    UlebAt mem p2 d.directMethods.length p3 ∧ UlebAt mem p3 d.virtualMethods.length p4 ∧
    DiffList false mem p4 d.staticFields q1 ∧ DiffList false mem q1 d.instanceFields q2 ∧
    DiffList true mem q2 d.directMethods q3 ∧ DiffList true mem q3 d.virtualMethods q4

namespace ClassDiffs

variable (d : ClassDiffs)

def InOrder : Prop :=
  MembersInOrder d.staticFields ∧ MembersInOrder d.instanceFields ∧
    MembersInOrder d.directMethods ∧ MembersInOrder d.virtualMethods

/-- Every index a walk computes is in its table. -/
def InTables (v : Verifier) : Prop :=
  (∀ idx ∈ runningIndices 0 d.staticFields ++ runningIndices 0 d.instanceFields,
    idx < v.header.fieldIdsSize) ∧
  ∀ idx ∈ runningIndices 0 d.directMethods ++ runningIndices 0 d.virtualMethods,
    idx < v.header.methodIdsSize

/-- Every difference is below the size of its table. -/
def BelowTables (v : Verifier) : Prop :=
  (∀ diff ∈ d.staticFields ++ d.instanceFields, diff < v.header.fieldIdsSize) ∧
  ∀ diff ∈ d.directMethods ++ d.virtualMethods, diff < v.header.methodIdsSize

end ClassDiffs

section Sums

theorem le_of_mem_prefixSums {sum i : Nat} {diffs : List Nat} (h : i ∈ prefixSums sum diffs) :
    sum ≤ i := by
  induction diffs generalizing sum with
  | nil => cases h
  | cons diff diffs ih =>
    rcases List.mem_cons.mp h with rfl | h
    · exact Nat.le_add_right _ _
    · exact Nat.le_trans (Nat.le_add_right _ _) (ih h)

theorem prefixSums_pairwise (sum : Nat) (diffs : List Nat) :
    (prefixSums sum diffs).Pairwise (· ≤ ·) := by
  induction diffs generalizing sum with
  | nil => exact .nil
  | cons diff diffs ih =>
    rw [prefixSums, List.pairwise_cons]
    exact ⟨fun i hi => le_of_mem_prefixSums hi, ih _⟩

/-- The sums do not wrap exactly when every difference is below the limit the indices
respect. -/
theorem runningIndices_eq_iff {limit : Nat} (hlimit : limit ≤ 2 ^ 31) {idx : Nat}
    (hidx : idx ≤ limit) {diffs : List Nat} (hin : ∀ i ∈ runningIndices idx diffs, i < limit) :
    runningIndices idx diffs = prefixSums idx diffs ↔ ∀ diff ∈ diffs, diff < limit := by
  induction diffs generalizing idx with
  | nil => simp [runningIndices, prefixSums]
  | cons diff diffs ih =>
    have hfirst : (idx + diff) % 2 ^ 32 < limit := hin _ List.mem_cons_self
    have hrest : ∀ i ∈ runningIndices ((idx + diff) % 2 ^ 32) diffs, i < limit :=
      fun i hi => hin i (List.mem_cons_of_mem _ hi)
    have ih := ih (Nat.le_of_lt hfirst) hrest
    rw [runningIndices, prefixSums, List.cons.injEq, List.forall_mem_cons]
    constructor
    · rintro ⟨hexact, hsums⟩
      have hsmall := ih.mp (by rw [hsums, hexact])
      exact ⟨by omega, hsmall⟩
    · rintro ⟨hdiff, hsmall⟩
      have hexact : (idx + diff) % 2 ^ 32 = idx + diff := Nat.mod_eq_of_lt (by omega)
      rw [hexact] at ih ⊢
      exact ⟨rfl, ih.mpr hsmall⟩

theorem membersInOrder_iff {limit : Nat} (hlimit : limit ≤ 2 ^ 31) {diffs : List Nat}
    (hin : ∀ i ∈ runningIndices 0 diffs, i < limit) :
    MembersInOrder diffs ↔ ∀ diff ∈ diffs, diff < limit := by
  have hiff := runningIndices_eq_iff hlimit (Nat.zero_le _) hin
  constructor
  · exact fun h => hiff.mp h.exact
  · intro h
    have hexact := hiff.mpr h
    exact ⟨hexact, hexact ▸ prefixSums_pairwise 0 diffs⟩

end Sums

section Lists

theorem runningIndices_append (idx : Nat) (diffs : List Nat) (diff : Nat) :
    runningIndices idx (diffs ++ [diff]) = runningIndices idx diffs ++
      [((runningIndices idx diffs).getLastD idx + diff) % 2 ^ 32] := by
  induction diffs generalizing idx with
  | nil => rfl
  | cons d diffs ih =>
    rw [List.cons_append, runningIndices, ih, runningIndices, List.cons_append, List.getLastD_cons]

/-- The members a walk reads come from their differences. -/
theorem exists_diffs {extra : Bool} {mem : Memory} {p n q last : Nat} {members : List (Nat × Nat)}
    (h : MemberList extra mem p n members q last) : ∃ diffs, DiffList extra mem p diffs q ∧
      diffs.length = n ∧ members.map (·.1) = runningIndices 0 diffs ∧
      last = (runningIndices 0 diffs).getLastD 0 := by
  induction h with
  | nil => exact ⟨[], .nil, rfl, rfl, rfl⟩
  | field hextra _ hdiff haccess ih =>
    obtain ⟨diffs, hlist, hlen, hmembers, rfl⟩ := ih
    refine ⟨_, .field hextra hlist hdiff haccess, by simp [hlen], ?_, ?_⟩
    · rw [List.map_append, hmembers, runningIndices_append]
      rfl
    · rw [runningIndices_append, List.getLastD_concat]
  | method hextra _ hdiff haccess hcode ih =>
    obtain ⟨diffs, hlist, hlen, hmembers, rfl⟩ := ih
    refine ⟨_, .method hextra hlist hdiff haccess hcode, by simp [hlen], ?_, ?_⟩
    · rw [List.map_append, hmembers, runningIndices_append]
      rfl
    · rw [runningIndices_append, List.getLastD_concat]

theorem exists_classDiffs {mem : Memory} {p : Nat} {sf inf dm vm : List (Nat × Nat)}
    (h : ClassData mem p sf inf dm vm) : ∃ d : ClassDiffs, d.EncodedAt mem p ∧
      sf.map (·.1) = runningIndices 0 d.staticFields ∧
      inf.map (·.1) = runningIndices 0 d.instanceFields ∧
      dm.map (·.1) = runningIndices 0 d.directMethods ∧
      vm.map (·.1) = runningIndices 0 d.virtualMethods := by
  obtain ⟨p1, p2, p3, p4, q1, q2, q3, q4, l1, l2, l3, l4, hsf, hinf, hdm, hvm, h1, h2, h3, h4⟩ :=
    h.layout
  obtain ⟨d1, hl1, hn1, hm1, -⟩ := exists_diffs h1
  obtain ⟨d2, hl2, hn2, hm2, -⟩ := exists_diffs h2
  obtain ⟨d3, hl3, hn3, hm3, -⟩ := exists_diffs h3
  obtain ⟨d4, hl4, hn4, hm4, -⟩ := exists_diffs h4
  refine ⟨⟨d1, d2, d3, d4⟩, ⟨p1, p2, p3, p4, q1, q2, q3, q4, ?_⟩, hm1, hm2, hm3, hm4⟩
  rw [hn1, hn2, hn3, hn4]
  exact ⟨hsf, hinf, hdm, hvm, hl1, hl2, hl3, hl4⟩

end Lists

section Order

variable {image : Memory} {headerOff : Nat} {checkInsns : Bool} {st : VerifyImageState}
  {v : Verifier}

/-- The members of every class of an accepted dex: all computed indices are in their
tables, and they are in order, each the sum of its differences, exactly when every
difference is below the size of its table. -/
theorem members_in_order_iff (hopen : openVerifier image headerOff checkInsns = .ok v)
    (hok : (verifyDex image checkInsns headerOff st).1.ok = true) (c : Nat)
    (hc : c < v.header.classDefsSize)
    (hdata : (classDefAt v.image (v.classDefAddr c)).classDataOff ≠ 0) :
    ∃ d : ClassDiffs,
      d.EncodedAt v.image (v.offsetToPtr (classDefAt v.image (v.classDefAddr c)).classDataOff) ∧
        d.InTables v ∧ (d.InOrder ↔ d.BelowTables v) := by
  obtain ⟨w, methodHandleCount, deviations, h⟩ := accepted_of_verifyDex hok
  obtain rfl : v = w := Except.ok.inj (hopen.symm.trans h.opened)
  have hsize := size_lt_of_openVerifier hopen
  have hfields := h.tablesOk.fields
  have hmethods := h.tablesOk.methods
  obtain ⟨sf, inf, dm, vm, hlists, hfield, hmethod⟩ :=
    (h.interOk.classDefValid c hc).classData hdata
  obtain ⟨d, hd, hsf, hinf, hdm, hvm⟩ := exists_classDiffs hlists
  have htables : d.InTables v := by
    rw [ClassDiffs.InTables, ← hsf, ← hinf, ← hdm, ← hvm, ← List.map_append, ← List.map_append]
    exact ⟨List.forall_mem_map.mpr fun m hm => (hfield m hm).1,
      List.forall_mem_map.mpr fun m hm => (hmethod m hm).1⟩
  refine ⟨d, hd, htables, ?_⟩
  simp only [ClassDiffs.InTables, List.forall_mem_append] at htables
  obtain ⟨⟨h1, h2⟩, h3, h4⟩ := htables
  rw [ClassDiffs.InOrder, ClassDiffs.BelowTables, List.forall_mem_append, List.forall_mem_append,
    membersInOrder_iff (by omega) h1, membersInOrder_iff (by omega) h2,
    membersInOrder_iff (by omega) h3, membersInOrder_iff (by omega) h4, and_assoc]

end Order

/-- One class with the direct methods `b()V` and `a()V`: the second difference is
`2 ^ 32 - 1`, so the index goes from 1 back to 0. -/
def wrappedDex : Memory := [
  100, 101, 120, 10, 48, 51, 53, 0, 0, 0, 0, 0, 0, 0, 0, 0, 0, 0, 0, 0, 0, 0, 0, 0,
  0, 0, 0, 0, 0, 0, 0, 0, 56, 1, 0, 0, 112, 0, 0, 0, 120, 86, 52, 18, 0, 0, 0, 0,
  0, 0, 0, 0, 224, 0, 0, 0, 4, 0, 0, 0, 112, 0, 0, 0, 2, 0, 0, 0, 128, 0, 0, 0,
  1, 0, 0, 0, 136, 0, 0, 0, 0, 0, 0, 0, 0, 0, 0, 0, 2, 0, 0, 0, 148, 0, 0, 0,
  1, 0, 0, 0, 164, 0, 0, 0, 0, 0, 0, 0, 0, 0, 0, 0, 210, 0, 0, 0, 215, 0, 0, 0,
  218, 0, 0, 0, 221, 0, 0, 0, 0, 0, 0, 0, 1, 0, 0, 0, 1, 0, 0, 0, 1, 0, 0, 0,
  0, 0, 0, 0, 0, 0, 0, 0, 2, 0, 0, 0, 0, 0, 0, 0, 3, 0, 0, 0, 0, 0, 0, 0,
  1, 0, 0, 0, 255, 255, 255, 255, 0, 0, 0, 0, 255, 255, 255, 255, 0, 0, 0, 0, 196, 0, 0, 0,
  0, 0, 0, 0, 0, 0, 2, 0, 1, 1, 0, 255, 255, 255, 255, 15, 1, 0, 3, 76, 65, 59, 0, 1, 86, 0,
  1, 97, 0, 1, 98, 0, 7, 0, 0, 0, 0, 0, 0, 0, 1, 0, 0, 0, 0, 0, 0, 0,
  1, 0, 0, 0, 4, 0, 0, 0, 112, 0, 0, 0, 2, 0, 0, 0, 2, 0, 0, 0, 128, 0, 0, 0,
  3, 0, 0, 0, 1, 0, 0, 0, 136, 0, 0, 0, 5, 0, 0, 0, 2, 0, 0, 0, 148, 0, 0, 0,
  6, 0, 0, 0, 1, 0, 0, 0, 164, 0, 0, 0, 0, 16, 0, 0, 1, 0, 0, 0, 224, 0, 0, 0]

set_option maxRecDepth 20000 in
theorem wrappedDex_runs : (verifyDex wrappedDex true 0 {}).1.ok = true ∧
    (openVerifier wrappedDex 0 true).map (fun v => (v.header.classDefsSize,
      (classDefAt v.image (v.classDefAddr 0)).classDataOff, v.offsetToPtr 196)) =
      .ok (1, 196, 196) ∧
    (∀ b ∈ [(196, 0), (197, 0), (198, 2), (199, 0), (200, 1), (201, 1), (202, 0), (208, 1),
      (209, 0)], byteAt wrappedDex b.1 = b.2 ∧ b.2 < 128 ∧ b.1 < wrappedDex.length) ∧
    (∀ i < 4, byteAt wrappedDex (203 + i) &&& 0x80 ≠ 0) ∧ byteAt wrappedDex 207 &&& 0x80 = 0 ∧
    2 ^ 32 - 1 = ulebValue wrappedDex 203 5 % 2 ^ 32 := by
  decide

theorem wrappedDex_view {v : Verifier} (hopen : openVerifier wrappedDex 0 true = .ok v) :
    v.image = wrappedDex ∧ 0 < v.header.classDefsSize ∧
      (classDefAt v.image (v.classDefAddr 0)).classDataOff = 196 ∧ v.offsetToPtr 196 = 196 := by
  obtain ⟨-, hviews, -⟩ := wrappedDex_runs
  rw [hopen] at hviews
  simp only [Except.map, Except.ok.injEq, Prod.mk.injEq] at hviews
  obtain ⟨hsize, hoff, hptr⟩ := hviews
  exact ⟨(post_of_ok (wp_openVerifier _ _ _) hopen).2.1, by omega, hoff, hptr⟩

/-- The class of `wrappedDex`. -/
theorem members_in_order_iff_wrappedDex : ∃ v, openVerifier wrappedDex 0 true = .ok v ∧
    ∃ d : ClassDiffs, d.EncodedAt v.image
        (v.offsetToPtr (classDefAt v.image (v.classDefAddr 0)).classDataOff) ∧
      d.InTables v ∧ (d.InOrder ↔ d.BelowTables v) := by
  obtain ⟨v, _, _, h⟩ := accepted_of_verifyDex wrappedDex_runs.1
  obtain ⟨-, hsize, hoff, -⟩ := wrappedDex_view h.opened
  exact ⟨v, h.opened, members_in_order_iff h.opened wrappedDex_runs.1 0 hsize (by omega)⟩

theorem ulebAt_byte {mem : Memory} {p value : Nat} (hbyte : byteAt mem p = value)
    (hvalue : value < 128) (hp : p < mem.length) : UlebAt mem p value (p + 1) := by
  have hgroup : ∀ b < 128, b &&& 0x80 = 0 ∧ b &&& 0x7f = b := by decide
  refine ⟨1, ⟨by omega, fun i hi => by omega, ?_⟩, by omega, ?_, rfl, by omega⟩
  · rw [Nat.sub_self, Nat.add_zero, hbyte]
    exact (hgroup value hvalue).1
  · rw [ulebValue, ulebValue, Nat.add_zero, hbyte, (hgroup value hvalue).2]
    simp only [Nat.mul_zero, Nat.shiftLeft_zero, Nat.zero_or]
    omega

theorem wrappedDex_diffs :
    (⟨[], [], [1, 2 ^ 32 - 1], []⟩ : ClassDiffs).EncodedAt wrappedDex 196 := by
  obtain ⟨-, -, hbytes, hmore, hend, hvalue⟩ := wrappedDex_runs
  have hone (p value : Nat) (hb : (p, value) ∈ [(196, 0), (197, 0), (198, 2), (199, 0), (200, 1),
      (201, 1), (202, 0), (208, 1), (209, 0)]) : UlebAt wrappedDex p value (p + 1) :=
    have h := hbytes (p, value) hb
    ulebAt_byte h.1 h.2.1 h.2.2
  have hlast : UlebAt wrappedDex 203 (2 ^ 32 - 1) 208 := by
    have hin := (hbytes (208, 1) (by decide)).2.2
    exact ⟨5, ⟨by omega, fun i hi => hmore i (by omega), hend⟩, by omega, hvalue, rfl,
      le_of_lt hin⟩
  have hfirst : DiffList true wrappedDex 200 [1] 203 :=
    .method rfl .nil (hone 200 1 (by decide)) (hone 201 1 (by decide)) (hone 202 0 (by decide))
  have hmethods : DiffList true wrappedDex 200 [1, 2 ^ 32 - 1] 210 :=
    .method rfl hfirst hlast (hone 208 1 (by decide)) (hone 209 0 (by decide))
  exact ⟨197, 198, 199, 200, 200, 200, 210, 210, hone 196 0 (by decide), hone 197 0 (by decide),
    hone 198 2 (by decide), hone 199 0 (by decide), .nil, .nil, hmethods, .nil⟩

/-- The gate accepts the class whose second method index is below the first. -/
theorem wrappedDex_not_in_order :
    ¬∀ image headerOff checkInsns st v, openVerifier image headerOff checkInsns = .ok v →
      (verifyDex image checkInsns headerOff st).1.ok = true → ∀ c, c < v.header.classDefsSize →
      (classDefAt v.image (v.classDefAddr c)).classDataOff ≠ 0 → ∀ d : ClassDiffs,
        d.EncodedAt v.image (v.offsetToPtr (classDefAt v.image (v.classDefAddr c)).classDataOff) →
        d.InOrder := by
  intro hall
  obtain ⟨v, _, _, h⟩ := accepted_of_verifyDex wrappedDex_runs.1
  obtain ⟨himage, hsize, hoff, hptr⟩ := wrappedDex_view h.opened
  have horder := hall wrappedDex 0 true {} v h.opened wrappedDex_runs.1 0 hsize (by omega)
    ⟨[], [], [1, 2 ^ 32 - 1], []⟩ (by rw [hoff, hptr, himage]; exact wrappedDex_diffs)
  exact absurd horder.2.2.1.ordered (by decide)

end Dexllm
