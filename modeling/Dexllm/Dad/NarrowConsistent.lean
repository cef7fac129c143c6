import Dexllm.Dad.NarrowAssign

/-!
What the narrow-integral pass leaves is consistent with the moves and the bitwise
definitions of the method, for the versions that are typed when the closure runs.
-/

namespace Dexllm

namespace Dad

/-- Java assigns a value of the type to a variable of the other. -/
def Narrow.Assignable (t u : Narrow) : Prop :=
  t = u ∨ t = .b ∧ u = .s ∨ (t = .b ∨ t = .s ∨ t = .c) ∧ u = .i

instance (t u : Narrow) : Decidable (t.Assignable u) :=
  inferInstanceAs (Decidable (_ ∨ _ ∧ _ ∨ _ ∧ _))

theorem Narrow.assignable_of_le {t u : Narrow} (hne : t ≠ .empty) (hle : t ≤ u) :
    t.Assignable u ∨ t = .z ∧ u = .i := by
  rw [le_iff] at hle
  unfold Assignable
  cases t <;> cases u <;> first | exact absurd rfl hne | exact absurd hle (by decide) | simp

namespace NarrowBody

open Narrow NarrowPass

/-- Every move and every bitwise definition of a version that the pass has typed agrees
with the types of its sources, lone constants apart. -/
def Consistent (b : NarrowBody) : Prop :=
  ∀ v, b.typed v = true → ∀ d ∈ (b.pass.node v).ins,
    (d.bitwise = false → ∀ s ∈ d.srcs, s.lone = none →
      (b.typeOf s.vid).Assignable (b.typeOf v)) ∧
    (d.bitwise = true → b.typeOf v = .z →
      (∀ s ∈ d.srcs, s.lone = none → b.typeOf s.vid = .z) ∧ ∀ c ∈ d.consts, c = 0 ∨ c = 1)

variable {b : NarrowBody} {v w : Vid} {d : NarrowIn} {s : NarrowSrc}

/-- Before the closure a move's destination is at least what its source is. -/
theorem assigned_le (hok : b.first.bad v = false)
    (hd : d ∈ (b.pass.node v).ins) (hbitwise : d.bitwise = false) (hs : s ∈ d.srcs)
    (hlone : s.lone = none) : b.assigned.ty s.vid ≤ b.assigned.ty v := by
  have hinto : v ∈ b.intoOf s.vid :=
    mem_intoOf.mpr (mem_fromOf.mpr ⟨d, hd, hbitwise, s, hs, hlone, rfl⟩)
  by_cases hsrc : b.assigned.ty s.vid = b.first.ty s.vid
  · rw [hsrc]
    by_cases hdest : b.assigned.ty v = b.first.ty v
    · rw [hdest]
      calc b.first.ty s.vid
        _ ≤ b.pass.base v b.first.ty := src_le_base hd hbitwise hs hlone
        _ ≤ b.pass.closeUp v (b.pass.base v b.first.ty) := b.pass.le_closeUp v _
        _ ≤ b.first.ty v := first_closed hok (mem_versions_of_ins hd)
    · have hconstant := (b.assigned_spec v hdest).constant
      have hrange := ((constantLike hconstant).ins d hd).2.2 s hs
      rw [(constantLike hrange).untyped]
      exact empty_le _
  · exact ((b.assigned_spec s.vid hsrc).into v hinto).ge

/-- A version with a bitwise definition has its type from `forward`. -/
theorem assigned_eq_of_bitwise (hd : d ∈ (b.pass.node v).ins) (hbitwise : d.bitwise = true) :
    b.assigned.ty v = b.first.ty v := by
  by_contra hne
  have hkind := ((constantLike (b.assigned_spec v hne).constant).ins d hd).2.1
  exact absurd (hbitwise.symm.trans hkind) (by decide)

/-- An assigned version that a bitwise definition combines is `Z`. -/
theorem assigned_z_of_bitwise (hs : s ∈ d.srcs) (hlone : s.lone = none)
    (hd : d ∈ (b.pass.node v).ins) (hbitwise : d.bitwise = true)
    (hne : b.assigned.ty s.vid ≠ b.first.ty s.vid) : b.assigned.ty s.vid = .z := by
  obtain ⟨i, hi, htarget⟩ := exists_instr hd
  have hcombines : combines s.vid i = true := by
    simp only [combines, htarget, hbitwise, Bool.true_and]
    exact List.any_eq_true.mpr ⟨s, hs, by simp [hlone]⟩
  have hcount : 0 < b.instrs.countP (combines s.vid) := List.countP_pos_iff.mpr ⟨i, hi, hcombines⟩
  have huses := b.length_intoOf_add_le s.vid
  exact (b.assigned_spec s.vid hne).claimed.resolve_left (by omega)

/-- A constant-like source that is used once, by a move into a type its values fit, is
assigned. -/
theorem exempt_bitwise {r : NarrowRange} (hv : b.assigned.ty v ≠ .empty)
    (hok : b.first.bad v = false) (hd : d ∈ (b.pass.node v).ins) (hs : s ∈ d.srcs)
    (hlone : s.lone = none) (huntyped : b.assigned.ty s.vid = .empty)
    (hr : b.cvals s.vid = some r) (huses : b.uses s.vid ≤ 1)
    (hfits : (b.assigned.ty v).rangeFits r = true) : d.bitwise = true := by
  by_contra hmove
  have hbitwise : d.bitwise = false := Bool.eq_false_of_not_eq_true hmove
  have hinto : v ∈ b.intoOf s.vid :=
    mem_intoOf.mpr (mem_fromOf.mpr ⟨d, hd, hbitwise, s, hs, hlone, rfl⟩)
  have hlength := b.length_intoOf_add_le s.vid
  have honly : b.intoOf s.vid = [v] := by
    obtain ⟨w, hw⟩ := List.length_eq_one_iff.mp
      (Nat.le_antisymm (by omega) (List.length_pos_of_mem hinto))
    rw [hw] at hinto ⊢
    rw [List.mem_singleton.mp hinto]
  have hone : ¬1 < b.uses s.vid := by omega
  have hnone := assign_settled (v := s.vid) (by rw [hr]; rfl)
  simp [takes, huntyped, honly, agreed, hok, hv, hone, hr, hfits] at hnone

section Last

/-- The last state is reached from what the closure leaves, and nothing is queued in it. -/
theorem last_reached (b : NarrowBody) :
    NarrowPass.Reached b.pass b.assigned.typedFrom b.again b.last ∧ b.last.work = [] ∧
      b.last.bad = b.first.bad := by
  unfold last
  split
  · rename_i hnone
    exact ⟨NarrowPass.Reached.refl _ _ _, hnone, rfl⟩
  · have hqueued : Queued b.pass b.assigned.typedFrom b.again :=
      ⟨b.nodup.filter _, fun w hw =>
        List.mem_append_left _ (order_eq b ▸ List.mem_of_mem_filter hw)⟩
    obtain ⟨⟨n, hrounds⟩, hwork⟩ := forward_ends hqueued
    exact ⟨hrounds.reached, hwork, hrounds.bad_eq fun w hw => b.first_ends.clean hw⟩

theorem assigned_le_last (b : NarrowBody) (v : Vid) : b.assigned.ty v ≤ b.last.ty v :=
  b.last_reached.1.ty_le v

/-- A version of which a source has changed since the closure has what its definitions
give. -/
theorem last_closed (hok : b.first.bad v = false) (hd : d ∈ (b.pass.node v).ins)
    (hs : s ∈ d.srcs) (hread : d.bitwise = true ∨ s.lone = none)
    (hchange : b.last.ty s.vid ≠ b.assigned.ty s.vid) :
    b.pass.base v b.last.ty ≤ b.last.ty v := by
  obtain ⟨hreached, hwork, hbad⟩ := b.last_reached
  have hdue : Due b.pass b.again b.last v :=
    .inr (.inr ⟨s.vid, mem_users_of_reads (mem_reads hd hs hread), .inr hchange⟩)
  have hsettled := (hreached.settled v (by simp [hwork]) hdue (by rw [hbad]; exact hok)).2
  exact le_trans le_sup_left (le_trans (b.pass.le_closeUp v _) hsettled)

/-- What the closure finds of the untyped sources of a version is within its last type. -/
theorem floor_le_last (hv : b.assigned.ty v ≠ .empty) (hok : b.first.bad v = false)
    (hmem : v ∈ b.versions) : b.floor v ≤ b.last.ty v := by
  cases hraised : b.raised v with
  | false =>
    have hle : b.floor v ≤ b.assigned.ty v := by
      simp only [raised, hok, hv, Bool.not_false, Bool.true_and, ne_eq, not_false_eq_true,
        decide_true, Bool.and_eq_false_iff, decide_eq_false_iff_not, not_not] at hraised
      obtain hempty | hsup := hraised
      · rw [hempty]
        exact empty_le _
      · exact sup_eq_left.mp hsup
    exact le_trans hle (b.assigned_le_last v)
  | true =>
    obtain ⟨hreached, hwork, hbad⟩ := b.last_reached
    have hdue : Due b.pass b.again b.last v := .inl (List.mem_filter.mpr ⟨hmem, hraised⟩)
    have hsettled := (hreached.settled v (by simp [hwork]) hdue (by rw [hbad]; exact hok)).2
    have hfloor : b.again.floorTy v = b.floor v := if_pos hraised
    calc b.floor v
      _ = b.again.floorTy v := hfloor.symm
      _ ≤ b.last.floorTy v := hreached.floor_le v
      _ ≤ b.pass.base v b.last.ty ⊔ b.last.floorTy v := le_sup_right
      _ ≤ b.pass.closeUp v (b.pass.base v b.last.ty ⊔ b.last.floorTy v) := b.pass.le_closeUp v _
      _ ≤ b.last.ty v := hsettled

/-- The type an untyped source keeps is within the type of its destination, a constant-like
operand that is used once apart. -/
theorem keeps_le_last (hv : b.assigned.ty v ≠ .empty) (hok : b.first.bad v = false)
    (hd : d ∈ (b.pass.node v).ins) (hs : s ∈ d.srcs) (hlone : s.lone = none)
    (huntyped : b.assigned.ty s.vid = .empty) :
    b.keeps d s ≤ b.last.ty v ∨ d.bitwise = true ∧ b.uses s.vid ≤ 1 ∧
      ∃ r, b.cvals s.vid = some r ∧ (b.assigned.ty v).rangeFits r = true := by
  cases hexempt : b.exempt v d s with
  | false =>
    left
    refine le_trans ?_ (floor_le_last hv hok (mem_versions_of_ins hd))
    refine le_joinAll (List.mem_flatMap.mpr ⟨d, hd, List.mem_map_of_mem ?_⟩)
    exact List.mem_filter.mpr ⟨hs, by rw [hexempt]; rfl⟩
  | true =>
    right
    simp only [exempt, first_clean hok hd hs (.inr hlone), huntyped, hlone, ne_eq,
      not_true_eq_false, decide_false, Option.isSome_none, Bool.and_false, Bool.false_or]
      at hexempt
    obtain ⟨r, hr, hexempt⟩ := (Option.any_eq_true _ _).mp hexempt
    rw [Bool.and_eq_true, decide_eq_true_eq] at hexempt
    obtain ⟨huses, hfits⟩ := hexempt
    exact ⟨exempt_bitwise hv hok hd hs hlone huntyped hr huses hfits, huses, r, hr, hfits⟩

end Last

section Main

theorem typeOf_eq_last (hty : b.last.ty v ≠ .empty) (hok : b.last.bad v = false) :
    b.typeOf v = b.last.ty v := by
  simp [typeOf, typed, hty, hok]

theorem typeOf_eq_declared (hty : b.last.ty v = .empty) : b.typeOf v = b.declared v := by
  simp [typeOf, typed, hty]

theorem untyped_of_last (hty : b.last.ty v = .empty) : b.assigned.ty v = .empty :=
  le_empty.mp (hty ▸ b.assigned_le_last v)

/-- A typed producer, or a parameter that is moved, is within the type of its version. -/
theorem type_le_last (hok : b.first.bad v = false) (hd : d ∈ (b.pass.node v).ins)
    (hbitwise : d.bitwise = false) (hne : d.type ≠ .empty) : d.type ≤ b.last.ty v := by
  have hsame : b.assigned.ty v = b.first.ty v := by
    by_contra hassigned
    exact hne ((constantLike (b.assigned_spec v hassigned).constant).ins d hd).1
  calc d.type
    _ ≤ b.pass.base v b.first.ty := type_le_base hd hbitwise
    _ ≤ b.pass.closeUp v (b.pass.base v b.first.ty) := b.pass.le_closeUp v _
    _ ≤ b.first.ty v := first_closed hok (mem_versions_of_ins hd)
    _ = b.assigned.ty v := hsame.symm
    _ ≤ b.last.ty v := b.assigned_le_last v

/-- The last type of a move's source, typed or not, is within that of its destination. -/
theorem move_le_last (hv : b.assigned.ty v ≠ .empty) (hok : b.first.bad v = false)
    (hd : d ∈ (b.pass.node v).ins) (hbitwise : d.bitwise = false) (hs : s ∈ d.srcs)
    (hlone : s.lone = none) :
    b.typeOf s.vid ≠ .empty ∧ b.typeOf s.vid ≤ b.last.ty v := by
  have hsok : b.first.bad s.vid = false := first_clean hok hd hs (.inr hlone)
  by_cases hty : b.last.ty s.vid = .empty
  · rw [typeOf_eq_declared hty]
    have hdeclared := declared_ne_empty hsok (mem_versions_of_src hd hs)
    refine ⟨hdeclared, ?_⟩
    obtain hle | ⟨hcombined, -⟩ := keeps_le_last hv hok hd hs hlone (untyped_of_last hty)
    · rwa [keeps, if_neg (by simp [hdeclared, hbitwise])] at hle
    · exact absurd (hcombined.symm.trans hbitwise) (by decide)
  · rw [typeOf_eq_last hty (by rw [b.last_reached.2.2]; exact hsok)]
    refine ⟨hty, ?_⟩
    by_cases hsame : b.last.ty s.vid = b.assigned.ty s.vid
    · rw [hsame]
      exact le_trans (assigned_le hok hd hbitwise hs hlone) (b.assigned_le_last v)
    · exact le_trans (src_le_base hd hbitwise hs hlone)
        (last_closed hok hd hs (.inr hlone) hsame)

/-- What `forward` leaves of a version that ends as `Z` is `Z` in its bitwise definitions. -/
theorem first_operands (hok : b.first.bad v = false) (hd : d ∈ (b.pass.node v).ins)
    (hbitwise : d.bitwise = true) (hz : b.last.ty v ≤ .z) :
    d.type ≤ .z ∧ (∀ s ∈ d.srcs, b.first.ty s.vid ≤ .z) ∧ ∀ c ∈ d.consts, z.fits c = true := by
  apply operands_le_z hd hbitwise
  calc b.pass.base v b.first.ty
    _ ≤ b.pass.closeUp v (b.pass.base v b.first.ty) := b.pass.le_closeUp v _
    _ ≤ b.first.ty v := first_closed hok (mem_versions_of_ins hd)
    _ = b.assigned.ty v := (assigned_eq_of_bitwise hd hbitwise).symm
    _ ≤ b.last.ty v := b.assigned_le_last v
    _ ≤ .z := hz

theorem operand_le_z (hok : b.first.bad v = false) (hd : d ∈ (b.pass.node v).ins)
    (hbitwise : d.bitwise = true) (hz : b.last.ty v ≤ .z) (hs : s ∈ d.srcs)
    (hlone : s.lone = none) : b.last.ty s.vid ≤ .z := by
  by_cases hsame : b.last.ty s.vid = b.assigned.ty s.vid
  · rw [hsame]
    by_cases hfirst : b.assigned.ty s.vid = b.first.ty s.vid
    · rw [hfirst]
      exact (first_operands hok hd hbitwise hz).2.1 s hs
    · exact (assigned_z_of_bitwise hs hlone hd hbitwise hfirst).le
  · have hbase := le_trans (last_closed hok hd hs (.inl hbitwise) hsame) hz
    exact (operands_le_z hd hbitwise hbase).2.1 s hs

theorem eq_z_of_le {t : Narrow} (hle : t ≤ .z) (hne : t ≠ .empty) : t = .z := by
  rw [le_iff] at hle
  cases t <;> first | rfl | exact absurd rfl hne | exact absurd hle (by decide)

/-- What a bitwise definition stamped `Z` combines is `Z`, a constant-like operand that is
used once apart. -/
theorem operand_z (hv : b.assigned.ty v ≠ .empty) (hok : b.first.bad v = false)
    (hd : d ∈ (b.pass.node v).ins) (hbitwise : d.bitwise = true) (hz : b.last.ty v = .z)
    (hs : s ∈ d.srcs) (hlone : s.lone = none) : b.typeOf s.vid = .z ∨
      b.last.ty s.vid = .empty ∧ b.uses s.vid ≤ 1 ∧
        ∃ r, b.cvals s.vid = some r ∧ z.rangeFits r = true := by
  have hsok : b.first.bad s.vid = false := first_clean hok hd hs (.inr hlone)
  have hassigned : b.assigned.ty v = .z :=
    eq_z_of_le (hz ▸ b.assigned_le_last v) hv
  by_cases hty : b.last.ty s.vid = .empty
  · obtain hle | ⟨-, huses, hrange⟩ := keeps_le_last hv hok hd hs hlone (untyped_of_last hty)
    · left
      rw [typeOf_eq_declared hty]
      rw [hz, keeps] at hle
      split at hle
      · exact absurd hle (by decide)
      · rename_i hkept
        exact not_not.mp fun hne => (not_or.mp hkept).2 ⟨hbitwise, hne⟩
    · exact .inr ⟨hty, huses, hassigned ▸ hrange⟩
  · left
    rw [typeOf_eq_last hty (by rw [b.last_reached.2.2]; exact hsok)]
    exact eq_z_of_le (operand_le_z hok hd hbitwise hz.le hs hlone) hty

/-- A flag moved to a version that a call also types as an `int`. -/
def flagInInt : NarrowBody where
  versions := [[0x61], [0x62]]
  nodup := by decide
  instrs := [⟨[], some ([0x61], some ⟨.z, [], [], false⟩)⟩,
    ⟨[⟨[0x61], none⟩], some ([0x62], some ⟨.empty, [], [⟨[0x61], none⟩], false⟩)⟩,
    ⟨[], some ([0x62], some ⟨.i, [], [], false⟩)⟩]
  varOf _ := some ⟨false, .i⟩
  zForbidden _ := false
  defined := by simp
  srcs_used := by simp
  move_srcs := by simp

/-- A version with two constants that is combined with a flag. -/
def parkedOperand : NarrowBody where
  versions := [[0x61], [0x62], [0x63]]
  nodup := by decide
  instrs := [⟨[], some ([0x61], some ⟨.empty, [0], [], false⟩)⟩,
    ⟨[], some ([0x61], some ⟨.empty, [1], [], false⟩)⟩,
    ⟨[], some ([0x62], some ⟨.z, [], [], false⟩)⟩,
    ⟨[⟨[0x61], none⟩, ⟨[0x62], none⟩],
      some ([0x63], some ⟨.empty, [], [⟨[0x61], none⟩, ⟨[0x62], none⟩], true⟩)⟩]
  varOf _ := some ⟨false, .i⟩
  zForbidden _ := false
  defined := by simp
  srcs_used := by simp
  move_srcs := by simp

/-- A version that only the last run of `forward` types: it combines a flag that the
assignment has typed, and is visited for a version whose constant it takes. -/
def lateFlag : NarrowBody where
  versions := [[0x61], [0x62], [0x63], [0x64], [0x65]]
  nodup := by decide
  instrs := [⟨[], some ([0x61], some ⟨.empty, [0], [], false⟩)⟩,
    ⟨[], some ([0x61], some ⟨.empty, [1], [], false⟩)⟩,
    ⟨[], some ([0x62], some ⟨.z, [], [], false⟩)⟩,
    ⟨[⟨[0x61], none⟩], some ([0x62], some ⟨.empty, [], [⟨[0x61], none⟩], false⟩)⟩,
    ⟨[⟨[0x63], none⟩], some ([0x63], some ⟨.empty, [], [⟨[0x63], none⟩], false⟩)⟩,
    ⟨[], some ([0x64], some ⟨.b, [], [], false⟩)⟩,
    ⟨[], some ([0x64], some ⟨.empty, [0], [], false⟩)⟩,
    ⟨[⟨[0x63], none⟩], some ([0x64], some ⟨.empty, [], [⟨[0x63], none⟩], false⟩)⟩,
    ⟨[⟨[0x61], none⟩], some ([0x65], some ⟨.empty, [], [⟨[0x61], none⟩], true⟩)⟩,
    ⟨[⟨[0x64], some 0⟩], some ([0x65], some ⟨.empty, [], [⟨[0x64], some 0⟩], false⟩)⟩,
    ⟨[⟨[0x63], none⟩], some ([0x65], some ⟨.empty, [], [⟨[0x63], none⟩], false⟩)⟩]
  varOf _ := some ⟨false, .i⟩
  zForbidden _ := false
  defined := by simp
  srcs_used := by simp
  move_srcs := by simp

set_option maxRecDepth 20000 in
/-- The types that the three end with. -/
theorem narrow_runs :
    (flagInInt.typed [0x62] ∧ flagInInt.typeOf [0x61] = .z ∧ flagInInt.typeOf [0x62] = .i ∧
      flagInInt.assigned.ty [0x62] = .i ∧ flagInInt.last.bad [0x62] = false) ∧
    (parkedOperand.typed [0x63] ∧ parkedOperand.typeOf [0x61] = .i ∧
      parkedOperand.typeOf [0x63] = .z) ∧
    lateFlag.typed [0x65] ∧ lateFlag.typeOf [0x63] = .i ∧ lateFlag.typeOf [0x65] = .z := by
  decide

end Main

end NarrowBody

end Dad

end Dexllm
