import Dexllm.Dad.NarrowBody
import Dexllm.Lib.Association

/-!
The steps of the narrow-integral pass on the instructions of a method: the moves and
the bitwise definitions among the uses of a version, what `forward` leaves, and what the
assignment of the constant-like versions leaves.
-/

namespace Dexllm

namespace Dad

namespace NarrowBody

open Narrow NarrowPass

section Collect

variable {b : NarrowBody} {v w : Vid} {d : NarrowIn} {s : NarrowSrc}

theorem order_eq (b : NarrowBody) : b.pass.order = b.versions := by
  simp [NarrowPass.order, pass, Function.comp_def]

theorem node_eq (hv : v ∈ b.versions) : b.pass.node v = .collect (b.defsOf v) := by
  have hmem : (v, NarrowNode.collect (b.defsOf v)) ∈ b.pass.nodes :=
    List.mem_map_of_mem hv
  rw [NarrowPass.node, Association.lookup_of_mem b.pass.nodup hmem]
  rfl

theorem mem_versions_of_ins (hd : d ∈ (b.pass.node v).ins) : v ∈ b.versions := by
  by_contra hv
  rw [← order_eq] at hv
  rw [NarrowPass.node, lookup_eq_none hv] at hd
  cases hd

theorem mem_of_collect {defs : List (Option NarrowIn)} (hd : d ∈ (NarrowNode.collect defs).ins) :
    some d ∈ defs := by
  induction defs with
  | nil => cases hd
  | cons def' defs ih =>
    cases def' with
    | none => cases hd
    | some d' =>
      obtain rfl | hd := List.mem_cons.mp hd
      · exact List.mem_cons_self
      · exact List.mem_cons_of_mem _ (ih hd)

/-- A definition of a version is an instruction of the method. -/
theorem exists_instr (hd : d ∈ (b.pass.node v).ins) :
    ∃ i ∈ b.instrs, i.target = some (v, some d) := by
  rw [node_eq (mem_versions_of_ins hd)] at hd
  obtain ⟨i, hi, hinput⟩ := List.mem_filterMap.mp (mem_of_collect hd)
  refine ⟨i, hi, ?_⟩
  unfold inputTo at hinput
  split at hinput
  · rename_i w d' htarget
    split at hinput
    · rename_i hw
      rw [htarget, hw, Option.some.inj hinput]
    · cases hinput
  · cases hinput

theorem mem_versions_of_src (hd : d ∈ (b.pass.node v).ins) (hs : s ∈ d.srcs) :
    s.vid ∈ b.versions := by
  obtain ⟨i, hi, htarget⟩ := exists_instr hd
  exact b.defined i hi v d htarget s hs

/-- Bitwise operands are read, and what a move takes from more than one constant. -/
theorem mem_reads_of_src (hs : s ∈ d.srcs) (hread : d.bitwise = true ∨ s.lone = none)
    (decides : Bool) : s ∈ d.reads decides := by
  refine List.mem_filter.mpr ⟨hs, ?_⟩
  unfold NarrowIn.carried
  split
  · rename_i hcarried
    rw [Bool.and_eq_true, Bool.not_eq_true'] at hcarried
    obtain hbitwise | hlone := hread
    · exact absurd (hcarried.1.symm.trans hbitwise) (by decide)
    · rw [hlone]
      rfl
  · rfl

theorem mem_reads (hd : d ∈ (b.pass.node v).ins) (hs : s ∈ d.srcs)
    (hread : d.bitwise = true ∨ s.lone = none) : s.vid ∈ b.pass.reads v := by
  exact List.mem_flatMap.mpr ⟨d, hd, List.mem_map_of_mem (mem_reads_of_src hs hread _)⟩

theorem mem_fromOf : w ∈ b.fromOf v ↔ ∃ d ∈ (b.pass.node v).ins, d.bitwise = false ∧
    ∃ s ∈ d.srcs, s.lone = none ∧ s.vid = w := by
  unfold fromOf
  rw [List.mem_flatMap]
  refine exists_congr fun d => and_congr_right fun _ => ?_
  cases d.bitwise <;> simp [and_assoc]

theorem mem_intoOf : w ∈ b.intoOf v ↔ v ∈ b.fromOf w := by
  unfold intoOf
  simp only [List.mem_flatMap, List.mem_map, List.mem_filter, decide_eq_true_eq]
  constructor
  · rintro ⟨_, _, _, ⟨hfrom, rfl⟩, rfl⟩
    exact hfrom
  · intro hfrom
    obtain ⟨d, hd, _⟩ := mem_fromOf.mp hfrom
    exact ⟨w, mem_versions_of_ins hd, v, ⟨hfrom, rfl⟩, rfl⟩

end Collect

section Uses

variable (b : NarrowBody) (s : Vid)

/-- How often a definition moves `s`, lone constants apart. -/
def movesOf (d : NarrowIn) : Nat :=
  if d.bitwise then 0
  else (d.srcs.filter fun x => x.vid = s && x.lone.isNone).length

/-- The moves of `s` into `w` among some definitions. -/
def movesIn (ins : List NarrowIn) : Nat := (ins.map (movesOf s)).sum

/-- Whether the instruction combines `s` with others, lone constants apart. -/
def combines (i : NarrowIns) : Bool :=
  match i.target with
  | some (_, some d) => d.bitwise && d.srcs.any fun x => x.vid = s && x.lone.isNone
  | _ => false

/-- Whether the instruction uses `s`, lone constants apart. -/
def usesAt (i : NarrowIns) : Bool := i.used.any fun x => x.vid = s && x.lone.isNone

theorem length_intoOf : (b.intoOf s).length =
    (b.versions.map fun w => movesIn s (b.pass.node w).ins).sum := by
  unfold intoOf fromOf movesIn
  rw [List.length_flatMap]
  congr 1
  apply List.map_congr_left
  intro w _
  rw [List.length_map]
  generalize (b.pass.node w).ins = ins
  induction ins with
  | nil => rfl
  | cons d ins ih =>
    rw [List.flatMap_cons, List.filter_append, List.length_append, ih, List.map_cons,
      List.sum_cons, movesOf]
    congr 1
    cases d.bitwise with
    | true => rfl
    | false =>
      simp only [Bool.false_eq_true, if_false]
      rw [List.filter_map, List.length_map, List.filter_filter]
      rfl

/-- The moves of `s` that an instruction makes into `w`. -/
def movesAt (w : Vid) (i : NarrowIns) : Nat :=
  match i.target with
  | some (w', some d) => if w' = w then movesOf s d else 0
  | _ => 0

theorem movesIn_collect_le (w : Vid) (instrs : List NarrowIns) :
    movesIn s (NarrowNode.collect (instrs.filterMap (inputTo w))).ins ≤
      (instrs.map (movesAt s w)).sum := by
  induction instrs with
  | nil => exact Nat.zero_le _
  | cons i instrs ih =>
    rw [List.map_cons, List.sum_cons]
    cases hinput : inputTo w i with
    | none =>
      rw [List.filterMap_cons_none hinput]
      omega
    | some input =>
      rw [List.filterMap_cons_some hinput]
      cases input with
      | none => exact Nat.zero_le _
      | some d =>
        have hmoves : movesAt s w i = movesOf s d := by
          unfold inputTo at hinput
          split at hinput
          · rename_i w' d' htarget
            split at hinput
            · rename_i hw
              rw [movesAt, htarget, Option.some.inj hinput]
              exact if_pos hw
            · cases hinput
          · cases hinput
        change movesOf s d + movesIn s _ ≤ _
        omega

theorem sum_single_le (vs : List Vid) (hnodup : vs.Nodup) (w : Vid) (k : Nat) :
    (vs.map fun v => if w = v then k else 0).sum ≤ k := by
  induction vs with
  | nil => exact Nat.zero_le _
  | cons v vs ih =>
    obtain ⟨hv, hnodup⟩ := List.nodup_cons.mp hnodup
    rw [List.map_cons, List.sum_cons]
    split
    · rename_i hw
      have hrest : (vs.map fun v => if w = v then k else 0) = vs.map fun _ => 0 := by
        apply List.map_congr_left
        intro v' hv'
        exact if_neg fun heq : w = v' => hv (by rw [← hw, heq]; exact hv')
      rw [hrest]
      simp
    · exact le_of_eq_of_le (Nat.zero_add _) (ih hnodup)

/-- An instruction that moves or combines a version uses it, and does one of the two. -/
theorem movesAt_le (i : NarrowIns) (hi : i ∈ b.instrs) :
    (b.versions.map fun w => movesAt s w i).sum + (if combines s i then 1 else 0) ≤
      if usesAt s i then 1 else 0 := by
  have hused {v : Vid} {d : NarrowIn} (htarget : i.target = some (v, some d)) {x : NarrowSrc}
      (hx : x ∈ d.srcs) (hvid : (x.vid = s && x.lone.isNone) = true) : usesAt s i = true :=
    List.any_eq_true.mpr ⟨x, b.srcs_used i hi v d htarget hx, hvid⟩
  have hnone (h : ∀ w, movesAt s w i = 0) : (b.versions.map fun w => movesAt s w i).sum = 0 := by
    simp [h]
  match htarget : i.target with
  | none =>
    rw [hnone fun w => by rw [movesAt, htarget], combines, htarget]
    exact Nat.zero_le _
  | some (v, none) =>
    rw [hnone fun w => by rw [movesAt, htarget], combines, htarget]
    exact Nat.zero_le _
  | some (v, some d) =>
    cases hbitwise : d.bitwise with
    | true =>
      rw [hnone fun w => by simp [movesAt, htarget, movesOf, hbitwise]]
      split
      · rename_i hcombines
        simp only [combines, htarget, hbitwise, Bool.true_and] at hcombines
        obtain ⟨x, hx, hvid⟩ := List.any_eq_true.mp hcombines
        rw [if_pos (hused htarget hx hvid)]
      · exact Nat.zero_le _
    | false =>
      have hcombines : combines s i = false := by simp [combines, htarget, hbitwise]
      rw [hcombines, if_neg Bool.false_ne_true, Nat.add_zero]
      have hmoves : (b.versions.map fun w => movesAt s w i) =
          b.versions.map fun w => if v = w then movesOf s d else 0 := by
        apply List.map_congr_left
        intro w _
        rw [movesAt, htarget]
      rw [hmoves]
      refine le_trans (sum_single_le b.versions b.nodup v _) ?_
      rw [movesOf, hbitwise, if_neg Bool.false_ne_true]
      have hlength := b.move_srcs i hi v d htarget hbitwise
      cases hfilter : d.srcs.filter fun x => x.vid = s && x.lone.isNone with
      | nil => exact Nat.zero_le _
      | cons x rest =>
        have hx : x ∈ d.srcs.filter fun x => x.vid = s && x.lone.isNone := by
          rw [hfilter]
          exact List.mem_cons_self
        obtain ⟨hx, hvid⟩ := List.mem_filter.mp hx
        rw [if_pos (hused htarget hx hvid), ← hfilter]
        exact le_trans (List.length_filter_le _ _) hlength

theorem sum_movesIn_le (instrs : List NarrowIns) (hsub : instrs ⊆ b.instrs) :
    (b.versions.map fun w =>
        movesIn s (NarrowNode.collect (instrs.filterMap (inputTo w))).ins).sum +
      instrs.countP (combines s) ≤ instrs.countP (usesAt s) := by
  have hsum : ∀ instrs ⊆ b.instrs,
      (b.versions.map fun w => (instrs.map (movesAt s w)).sum).sum +
        instrs.countP (combines s) ≤ instrs.countP (usesAt s) := by
    intro instrs hsub
    induction instrs with
    | nil => simp
    | cons i instrs ih =>
      obtain ⟨hi, hsub⟩ := List.cons_subset.mp hsub
      have hrest := ih hsub
      have hhead := b.movesAt_le s i hi
      have hsplit : (b.versions.map fun w => ((i :: instrs).map (movesAt s w)).sum).sum =
          (b.versions.map fun w => movesAt s w i).sum +
            (b.versions.map fun w => (instrs.map (movesAt s w)).sum).sum := by
        rw [← List.sum_map_add]
        rfl
      rw [hsplit, List.countP_cons, List.countP_cons]
      omega
  have hle : (b.versions.map fun w =>
      movesIn s (NarrowNode.collect (instrs.filterMap (inputTo w))).ins).sum ≤
        (b.versions.map fun w => (instrs.map (movesAt s w)).sum).sum :=
    List.sum_le_sum fun w _ => movesIn_collect_le s w instrs
  have htotal := hsum instrs hsub
  omega

/-- The moves of a version and the bitwise definitions over it are among its uses. -/
theorem length_intoOf_add_le :
    (b.intoOf s).length + b.instrs.countP (combines s) ≤ b.uses s := by
  have hnodes : (b.versions.map fun w => movesIn s (b.pass.node w).ins) = b.versions.map fun w =>
      movesIn s (NarrowNode.collect (b.instrs.filterMap (inputTo w))).ins := by
    apply List.map_congr_left
    intro w hw
    rw [node_eq hw, defsOf]
  rw [length_intoOf, hnodes]
  exact b.sum_movesIn_le s b.instrs (List.Subset.refl _)

end Uses

section First

variable {b : NarrowBody} {v : Vid} {d : NarrowIn} {s : NarrowSrc} {ty : Vid → Narrow}

theorem first_ends (b : NarrowBody) : Ends b.pass [] b.pass.start b.first :=
  forward_ends (queued_start b.pass [])

/-- What a version that is not bad reads is not bad. -/
theorem first_clean (hv : b.first.bad v = false) (hd : d ∈ (b.pass.node v).ins) (hs : s ∈ d.srcs)
    (hread : d.bitwise = true ∨ s.lone = none) : b.first.bad s.vid = false :=
  b.first_ends.clean hv s.vid (mem_reads hd hs hread)

theorem first_closed (hv : b.first.bad v = false) (hmem : v ∈ b.versions) :
    b.pass.closeUp v (b.pass.base v b.first.ty) ≤ b.first.ty v :=
  b.first_ends.transfer_le (order_eq b ▸ hmem) hv

/-- A version that is not bad has a variable of a narrow integral type. -/
theorem declared_ne_empty (hv : b.first.bad v = false) (hmem : v ∈ b.versions) :
    b.declared v ≠ .empty := by
  have hstart : b.pass.start.bad v = false := by
    by_contra hbad
    obtain ⟨⟨n, hrounds⟩, -⟩ := b.first_ends
    have hend := hrounds.reached.bad_of v (Bool.eq_true_of_not_eq_false hbad)
    exact absurd (hv.symm.trans hend) (by decide)
  have heligible : b.eligible v = true := by
    have horder : v ∈ b.pass.order := order_eq b ▸ hmem
    simp only [start, horder, decide_true, Bool.true_and, Bool.or_eq_false_iff,
      Bool.not_eq_false'] at hstart
    exact hstart.2
  unfold eligible at heligible
  obtain ⟨x, hx, hvar⟩ := (Option.any_eq_true _ _).mp heligible
  rw [Bool.and_eq_true, decide_eq_true_eq] at hvar
  rw [declared, hx]
  exact hvar.2

theorem gives_le_base (hd : d ∈ (b.pass.node v).ins) (ty : Vid → Narrow) :
    d.gives (b.pass.node v).decides ty ≤ b.pass.base v ty :=
  le_joinAll (List.mem_map_of_mem hd)

theorem ty_le_reads (hs : s ∈ d.srcs) (hread : d.bitwise = true ∨ s.lone = none)
    (decides : Bool) : ty s.vid ≤ joinAll ((d.reads decides).map fun s => ty s.vid) := by
  exact le_joinAll (List.mem_map_of_mem (mem_reads_of_src hs hread decides))

/-- The type of a source that a move reads is within what the definitions give. -/
theorem src_le_base (hd : d ∈ (b.pass.node v).ins) (hbitwise : d.bitwise = false)
    (hs : s ∈ d.srcs) (hlone : s.lone = none) : ty s.vid ≤ b.pass.base v ty := by
  refine le_trans ?_ (gives_le_base hd ty)
  rw [NarrowIn.gives, hbitwise, if_neg Bool.false_ne_true]
  exact le_trans (ty_le_reads hs (.inr hlone) _) le_sup_right

theorem type_le_base (hd : d ∈ (b.pass.node v).ins) (hbitwise : d.bitwise = false) :
    d.type ≤ b.pass.base v ty := by
  refine le_trans ?_ (gives_le_base hd ty)
  rw [NarrowIn.gives, hbitwise, if_neg Bool.false_ne_true]
  exact le_sup_left

/-- A bitwise definition is no more than `Z` only over constants and operands that are. -/
theorem bitwiseType_le_z {t : Narrow} (h : d.bitwiseType t ≤ .z) :
    t ≤ .z ∧ ∀ c ∈ d.consts, z.fits c = true := by
  have hall : d.consts.all z.fits = true → ∀ c ∈ d.consts, z.fits c = true :=
    List.all_eq_true.mp
  unfold NarrowIn.bitwiseType at h
  split at h
  · rename_i hempty
    exact ⟨hempty.1 ▸ empty_le .z, hall hempty.2.2⟩
  split at h
  · split at h
    · rename_i hz
      exact ⟨hz.1.le, hall hz.2⟩
    · exact absurd h (by decide)
  · rename_i hnone
    obtain ⟨hempty, hconsts⟩ := not_or.mp hnone
    rw [not_not.mp hempty, not_not.mp hconsts]
    exact ⟨empty_le .z, fun c hc => absurd hc (List.not_mem_nil)⟩

theorem operands_le_z (hd : d ∈ (b.pass.node v).ins) (hbitwise : d.bitwise = true)
    (h : b.pass.base v ty ≤ .z) :
    d.type ≤ .z ∧ (∀ s ∈ d.srcs, ty s.vid ≤ .z) ∧ ∀ c ∈ d.consts, z.fits c = true := by
  have hgives := le_trans (gives_le_base hd ty) h
  rw [NarrowIn.gives, hbitwise, if_pos rfl] at hgives
  obtain ⟨hjoin, hconsts⟩ := bitwiseType_le_z hgives
  obtain ⟨htype, hreads⟩ := sup_le_iff.mp hjoin
  exact ⟨htype, fun s hs => le_trans (ty_le_reads hs (.inl hbitwise) _) hreads, hconsts⟩

end First

section ConstantLike

variable {b : NarrowBody} {v w : Vid} {d : NarrowIn} {cvals : Vid → Option NarrowRange}

theorem exists_step_of_foldlM {α β : Type} {f : β → α → Option β} {as : List α} {r r' : β}
    (h : as.foldlM f r = some r') : ∀ a ∈ as, ∃ r₀ r₁, f r₀ a = some r₁ := by
  induction as generalizing r with
  | nil => exact fun a ha => nomatch ha
  | cons a as ih =>
    rw [List.foldlM_cons] at h
    obtain ⟨r₁, hhead, hrest⟩ := Option.bind_eq_some_iff.mp h
    intro a' ha'
    obtain rfl | ha' := List.mem_cons.mp ha'
    · exact ⟨r, r₁, hhead⟩
    · exact ih hrest a' ha'

/-- A version of the kind the assignment step looks at: nothing typed flows into it. -/
structure ConstantLike (b : NarrowBody) (cvals : Vid → Option NarrowRange) (v : Vid) : Prop where
  ok : b.first.bad v = false
  untyped : b.first.ty v = .empty
  mem : v ∈ b.versions
  ins : ∀ d ∈ (b.pass.node v).ins, d.type = .empty ∧ d.bitwise = false ∧
    ∀ s ∈ d.srcs, (cvals s.vid).isSome = true

theorem isSome_update (r : NarrowRange) (h : (cvals w).isSome = true) :
    (Function.update cvals v (some r) w).isSome = true := by
  by_cases heq : w = v
  · rw [heq, Function.update_self]
    rfl
  · rw [Function.update_of_ne heq]
    exact h

theorem settleRange_eq_some {cvals' : Vid → Option NarrowRange}
    (h : b.settleRange cvals v = some cvals') :
    b.first.bad v = false ∧ b.first.ty v = .empty ∧ (b.pass.node v).ins ≠ [] ∧ cvals v = none ∧
      ∃ r, (b.pass.node v).range cvals = some (some r) ∧
        cvals' = Function.update cvals v (some r) := by
  unfold settleRange at h
  split at h
  · cases h
  rename_i hcond
  simp only [Bool.or_eq_true, not_or, Bool.not_eq_true, decide_eq_true_eq, not_not,
    List.isEmpty_eq_false_iff, Option.isSome_eq_false_iff, Option.isNone_iff_eq_none] at hcond
  obtain ⟨⟨⟨hok, huntyped⟩, hins⟩, hnew⟩ := hcond
  split at h
  · rename_i r hr
    exact ⟨hok, huntyped, hins, hnew, r, hr, (Option.some.inj h).symm⟩
  · cases h

theorem constantLike_settle {cvals' : Vid → Option NarrowRange}
    (hinv : ∀ v, (cvals v).isSome = true → b.ConstantLike cvals v)
    (h : b.settleRange cvals v = some cvals') :
    ∀ v, (cvals' v).isSome = true → b.ConstantLike cvals' v := by
  obtain ⟨hok, huntyped, hins, -, r, hr, rfl⟩ := settleRange_eq_some h
  intro w hw
  by_cases heq : w = v
  · subst heq
    obtain ⟨d, hd⟩ := List.exists_mem_of_ne_nil _ hins
    refine ⟨hok, huntyped, mem_versions_of_ins hd, fun d hd => ?_⟩
    obtain ⟨r₀, r₁, hstep⟩ := exists_step_of_foldlM hr d hd
    unfold NarrowIn.range at hstep
    split at hstep
    · cases hstep
    rename_i hkind
    obtain ⟨htype, hbitwise⟩ := not_or.mp hkind
    refine ⟨not_not.mp htype, Bool.eq_false_of_not_eq_true hbitwise, fun s hs => ?_⟩
    obtain ⟨_, _, hsrc⟩ := exists_step_of_foldlM hstep s hs
    obtain ⟨c, hc, -⟩ := Option.map_eq_some_iff.mp hsrc
    exact isSome_update r (by rw [hc]; rfl)
  · rw [Function.update_of_ne heq] at hw
    obtain ⟨hok', huntyped', hmem, hins'⟩ := hinv w hw
    refine ⟨hok', huntyped', hmem, fun d hd => ?_⟩
    obtain ⟨htype, hbitwise, hsrcs⟩ := hins' d hd
    exact ⟨htype, hbitwise, fun s hs => isSome_update r (hsrcs s hs)⟩

/-- A version with a range is constant-like. -/
theorem constantLike (hv : (b.cvals v).isSome = true) : b.ConstantLike b.cvals v := by
  have hinv : ∀ v, (b.cvals v).isSome = true → b.ConstantLike b.cvals v :=
    Settling.run_invariant (fun cvals => ∀ v, (cvals v).isSome = true → b.ConstantLike cvals v)
      (fun _ => True) (fun _ hv => absurd hv Bool.false_ne_true) (fun _ _ => trivial)
      (fun _ _ _ _ => trivial) fun _ _ _ hinv _ h => constantLike_settle hinv h
  exact hinv v hv

end ConstantLike

section Assign

variable {b : NarrowBody} {v w : Vid} {σ σ' : NarrowAssigned}

theorem agreed_of_ne_empty {ty : Vid → Narrow} {ds : List Vid} {t t' : Narrow}
    (hne : t ≠ .empty) (h : b.agreed ty ds t = some t') :
    t' = t ∧ ∀ d ∈ ds, b.first.bad d = false ∧ ty d = t := by
  induction ds generalizing t with
  | nil => exact ⟨(Option.some.inj h).symm, fun d hd => nomatch hd⟩
  | cons d ds ih =>
    rw [agreed] at h
    split at h
    · cases h
    rename_i hcond
    simp only [Bool.or_eq_true, not_or, Bool.not_eq_true, decide_eq_true_eq, Bool.and_eq_true,
      not_and, not_not] at hcond
    obtain ⟨⟨hok, htyped⟩, hagree⟩ := hcond
    have heq := hagree hne
    obtain ⟨rfl, hrest⟩ := ih htyped h
    refine ⟨heq, fun d' hd' => ?_⟩
    obtain rfl | hd' := List.mem_cons.mp hd'
    · exact ⟨hok, heq⟩
    · exact ⟨(hrest d' hd').1, (hrest d' hd').2.trans heq⟩

/-- Versions that agree on a type are all typed so. -/
theorem of_agreed {ty : Vid → Narrow} {ds : List Vid} {t : Narrow}
    (h : b.agreed ty ds .empty = some t) (hne : t ≠ .empty) :
    ∀ d ∈ ds, b.first.bad d = false ∧ ty d = t := by
  cases ds with
  | nil => exact fun d hd => nomatch hd
  | cons d ds =>
    rw [agreed] at h
    split at h
    · cases h
    rename_i hcond
    simp only [Bool.or_eq_true, not_or, Bool.not_eq_true, decide_eq_true_eq, Bool.and_eq_true,
      not_and, not_not] at hcond
    obtain ⟨⟨hok, htyped⟩, -⟩ := hcond
    obtain ⟨rfl, hrest⟩ := agreed_of_ne_empty htyped h
    intro d' hd'
    obtain rfl | hd' := List.mem_cons.mp hd'
    · exact ⟨hok, rfl⟩
    · exact hrest d' hd'

theorem agreed_congr {ty ty' : Vid → Narrow} {ds : List Vid} {t : Narrow}
    (h : ∀ d ∈ ds, ty d = ty' d) : b.agreed ty ds t = b.agreed ty' ds t := by
  induction ds generalizing t with
  | nil => rfl
  | cons d ds ih =>
    obtain ⟨hd, hrest⟩ := List.forall_mem_cons.mp h
    rw [agreed, agreed, hd, ih hrest]

theorem takes_eq_some {ty : Vid → Narrow} {t : Narrow} (h : b.takes ty v = some t) :
    ty v = .empty ∧ t ≠ .empty ∧ b.agreed ty (b.intoOf v) .empty = some t ∧
      (b.uses v ≤ (b.intoOf v).length ∨ t = .z) := by
  unfold takes at h
  split at h
  · cases h
  rename_i huntyped
  split at h
  · cases h
  rename_i t' hagree
  split at h
  · cases h
  rename_i hne
  split at h
  · cases h
  rename_i hclaim
  split at h
  · cases h
  obtain rfl := Option.some.inj h
  refine ⟨not_not.mp huntyped, hne, hagree, ?_⟩
  simp only [Bool.and_eq_true, Bool.or_eq_true, decide_eq_true_eq, not_and, not_or, not_not]
    at hclaim
  obtain hle | hlt := Nat.lt_or_ge (b.intoOf v).length (b.uses v)
  · exact .inr (hclaim hle).1
  · exact .inl hlt

/-- What holds of the types the assignment step has given. -/
structure Assigned (b : NarrowBody) (ty : Vid → Narrow) (v : Vid) : Prop where
  constant : (b.cvals v).isSome = true
  typed : ty v ≠ .empty
  into : ∀ d ∈ b.intoOf v, ty d = ty v
  claimed : b.uses v ≤ (b.intoOf v).length ∨ ty v = .z

theorem assigned_settle (hinv : ∀ v, σ.ty v ≠ b.first.ty v → b.Assigned σ.ty v)
    (hlisted : (b.cvals v).isSome = true) (h : b.settleAssign σ v = some σ') :
    ∀ v, σ'.ty v ≠ b.first.ty v → b.Assigned σ'.ty v := by
  obtain ⟨t, htakes, rfl⟩ := Option.map_eq_some_iff.mp h
  obtain ⟨huntyped, hne, hagree, hclaimed⟩ := takes_eq_some htakes
  have hkeep {d : Vid} {u : Narrow} (hd : σ.ty d = u) (hu : u ≠ .empty) :
      Function.update σ.ty v t d = u := by
    have hdv : d ≠ v := fun heq => hu (by rw [← hd, heq, huntyped])
    rw [Function.update_of_ne hdv]
    exact hd
  change ∀ w, Function.update σ.ty v t w ≠ b.first.ty w → b.Assigned (Function.update σ.ty v t) w
  intro w hw
  by_cases heq : w = v
  · subst heq
    have hself : Function.update σ.ty w t w = t := Function.update_self ..
    refine ⟨hlisted, by rw [hself]; exact hne, fun d hd => ?_, by rw [hself]; exact hclaimed⟩
    rw [hself]
    exact hkeep (of_agreed hagree hne d hd).2 hne
  · have hsame : Function.update σ.ty v t w = σ.ty w := Function.update_of_ne heq ..
    rw [hsame] at hw
    obtain ⟨hconstant, htyped, hinto, hclaimed'⟩ := hinv w hw
    refine ⟨hconstant, by rw [hsame]; exact htyped, fun d hd => ?_, by rw [hsame]; exact hclaimed'⟩
    rw [hsame]
    exact hkeep (hinto d hd) htyped

theorem mem_readyFrom : w ∈ b.readyFrom v ↔ w ∈ b.fromOf v ∧ (b.cvals w).isSome = true := by
  rw [readyFrom, List.mem_filter]

/-- What the assignment step leaves: the types of `forward`, or assigned ones. -/
theorem assigned_spec (b : NarrowBody) :
    ∀ v, b.assigned.ty v ≠ b.first.ty v → b.Assigned b.assigned.ty v :=
  Settling.run_invariant (fun σ => ∀ v, σ.ty v ≠ b.first.ty v → b.Assigned σ.ty v)
    (fun v => (b.cvals v).isSome = true) (fun _ hv => absurd rfl hv)
    (fun _ hv => (List.mem_filter.mp hv).2) (fun _ _ _ hw => (mem_readyFrom.mp hw).2)
    fun _ _ _ hinv hlisted h => assigned_settle hinv hlisted h

theorem settleAssign_once (b : NarrowBody) :
    Settling.Once b.settleAssign fun σ v => decide (σ.ty v ≠ .empty) where
  fresh h := by
    obtain ⟨t, htakes, rfl⟩ := Option.map_eq_some_iff.mp h
    simp [(takes_eq_some htakes).1]
  marks h := by
    obtain ⟨t, htakes, rfl⟩ := Option.map_eq_some_iff.mp h
    simp [(takes_eq_some htakes).2.1]
  keeps h hne := by
    obtain ⟨t, htakes, rfl⟩ := Option.map_eq_some_iff.mp h
    simp [hne]

theorem settleAssign_none_of_typed (h : σ.ty v ≠ .empty) : b.settleAssign σ v = none := by
  rw [settleAssign, takes, if_pos h]
  rfl

theorem assignLoop_ends (b : NarrowBody) : b.assignLoop.2 = [] := by
  refine Settling.run_ends b.settleAssign_once b.nodup (fun v hv => ?_) (Nat.add_le_add ?_ ?_)
  · obtain ⟨w, hw⟩ := List.exists_mem_of_ne_nil _ hv
    obtain ⟨d, hd, -⟩ := mem_fromOf.mp (mem_readyFrom.mp hw).1
    exact mem_versions_of_ins hd
  · refine List.sum_le_sum fun v _ => ?_
    split
    · exact Nat.zero_le _
    · exact le_rfl
  · exact List.length_filter_le _ _

theorem settleAssign_self (h : b.settleAssign σ v = some σ') : b.settleAssign σ' v = none :=
  settleAssign_none_of_typed (of_decide_eq_true (b.settleAssign_once.marks h))

/-- An assignment makes only the sources of the assigned version ready. -/
theorem settleAssign_back (h : b.settleAssign σ v = some σ') (hw : (b.cvals w).isSome = true)
    (hnone : b.settleAssign σ w = none) : w ∈ b.readyFrom v ∨ b.settleAssign σ' w = none := by
  by_cases hfrom : w ∈ b.fromOf v
  · exact .inl (mem_readyFrom.mpr ⟨hfrom, hw⟩)
  right
  by_cases heq : w = v
  · exact heq ▸ settleAssign_self h
  · obtain ⟨t, -, rfl⟩ := Option.map_eq_some_iff.mp h
    rw [settleAssign, Option.map_eq_none_iff] at hnone ⊢
    have hsame : ∀ d ∈ b.intoOf w, Function.update σ.ty v t d = σ.ty d := by
      intro d hd
      apply Function.update_of_ne
      rintro rfl
      exact hfrom (mem_intoOf.mp hd)
    change b.takes (Function.update σ.ty v t) w = none
    rw [takes, agreed_congr hsame, Function.update_of_ne heq]
    exact hnone

/-- No constant-like version can still take a type. -/
theorem assign_settled (hv : (b.cvals v).isSome = true) : b.takes b.assigned.ty v = none := by
  have hsettles : v ∈ b.assignLoop.2 ∨ b.settleAssign b.assigned v = none :=
    Settling.run_settles b.settleAssign b.readyFrom (fun v => (b.cvals v).isSome = true)
      (fun _ _ _ => settleAssign_self) (fun _ _ _ _ => settleAssign_back)
      (fun v hv => .inl (List.mem_filter.mpr ⟨(constantLike hv).mem, hv⟩)) v hv
  rw [assignLoop_ends] at hsettles
  exact Option.map_eq_none_iff.mp (hsettles.resolve_left List.not_mem_nil)

end Assign

end NarrowBody

end Dad

end Dexllm
