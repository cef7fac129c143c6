import Dexllm.Flow.InvokeArgs
import Dexllm.Lib.Association

/-!
The information order of the argument analysis: one register file is within
another if every origin it knows is known there too. The instructions, the meet
at a join and a run over a block keep the order.
-/

namespace Dexllm

namespace RegFile

variable {st st' src src' : RegFile} {r r' op : Nat} {a a' : InvokeArg}

@[simp] theorem lookup_drop : (st.drop r).lookup r' = if r' = r then none else st.lookup r' := by
  unfold drop
  split
  · rename_i heq
    apply Association.lookup_eq_none_iff.mpr
    intro e he
    have hkeep := (List.mem_filter.mp he).2
    rw [decide_eq_true_eq] at hkeep
    exact heq ▸ hkeep
  · rename_i hne
    exact Association.lookup_filter fun _ => decide_eq_true hne

@[simp] theorem lookup_put :
    (st.put r a).lookup r' = if r' = r then some a else st.lookup r' := by
  unfold put
  rw [List.lookup_cons]
  split
  · rename_i heq
    rw [beq_iff_eq] at heq
    rw [if_pos heq]
  · rename_i hne
    rw [beq_eq_false_iff_ne] at hne
    rw [lookup_drop, if_neg hne, if_neg hne]

theorem lookup_killWideAlias : (st.killWideAlias r).lookup r' = some a ↔
    st.lookup r' = some a ∧ ¬(r ≠ 0 ∧ r' = r - 1 ∧ a.wide = true) := by
  unfold killWideAlias
  split
  · rename_i hzero
    simp [hzero]
  · rename_i hpos
    split
    · rename_i hwide
      rw [lookup_drop]
      split
      · rename_i heq
        subst heq
        constructor
        · intro h
          cases h
        · rintro ⟨hlookup, hkeep⟩
          rw [hlookup] at hwide
          exact absurd ⟨hpos, rfl, hwide⟩ hkeep
      · rename_i hne
        simp [hne]
    · rename_i hnarrow
      constructor
      · intro hlookup
        refine ⟨hlookup, ?_⟩
        rintro ⟨-, rfl, hwide⟩
        rw [hlookup] at hnarrow
        exact hnarrow hwide
      · exact fun h => h.1

/-- Every origin `st` knows is known to `st'`. -/
def Within (st st' : RegFile) : Prop :=
  ∀ r a, st.lookup r = some a → a.kind ≠ .unknown → st'.lookup r = some a

theorem Within.refl (st : RegFile) : st.Within st := fun _ _ h _ => h

theorem nil_within (st : RegFile) : Within [] st := by
  intro r a h
  cases h

theorem Within.drop (h : st.Within st') (r : Nat) : (st.drop r).Within (st'.drop r) := by
  intro q b hq hknown
  rw [lookup_drop] at hq ⊢
  split at hq
  · cases hq
  · rename_i hne
    rw [if_neg hne]
    exact h q b hq hknown

theorem Within.put (h : st.Within st') (r : Nat) (harg : a.kind ≠ .unknown → a' = a) :
    (st.put r a).Within (st'.put r a') := by
  intro q b hq hknown
  rw [lookup_put] at hq ⊢
  split at hq
  · rename_i heq
    cases hq
    rw [if_pos heq, harg hknown]
  · rename_i hne
    rw [if_neg hne]
    exact h q b hq hknown

theorem Within.drop_put (h : st.Within st') (r : Nat) : (st.drop r).Within (st'.put r a') := by
  intro q b hq hknown
  rw [lookup_drop] at hq
  rw [lookup_put]
  split at hq
  · cases hq
  · rename_i hne
    rw [if_neg hne]
    exact h q b hq hknown

theorem Within.put_drop (h : st.Within st') (r : Nat) (harg : a.kind = .unknown) :
    (st.put r a).Within (st'.drop r) := by
  intro q b hq hknown
  rw [lookup_put] at hq
  rw [lookup_drop]
  split at hq
  · cases hq
    exact absurd harg hknown
  · rename_i hne
    rw [if_neg hne]
    exact h q b hq hknown

theorem Within.killWideAlias (h : st.Within st') (r : Nat) :
    (st.killWideAlias r).Within (st'.killWideAlias r) := by
  intro q b hq hknown
  obtain ⟨hlookup, hkeep⟩ := lookup_killWideAlias.mp hq
  exact lookup_killWideAlias.mpr ⟨h q b hlookup hknown, hkeep⟩

/-- The kills that follow a write keep the order. -/
theorem Within.afterWrite (h : st.Within st') (r op : Nat) :
    ((if isWideDest op = true then st.drop ((r + 1) % 2 ^ 16) else st).killWideAlias r).Within
      ((if isWideDest op = true then st'.drop ((r + 1) % 2 ^ 16) else st').killWideAlias r) := by
  apply Within.killWideAlias
  split
  · exact h.drop _
  · exact h

theorem Within.setRegOp (h : st.Within st') (r op : Nat) (harg : a.kind ≠ .unknown → a' = a) :
    (st.setRegOp r a op).Within (st'.setRegOp r a' op) := by
  refine (h.put r ?_).afterWrite r op
  intro hknown
  rw [harg hknown]

theorem Within.eraseRegOp (h : st.Within st') (r op : Nat) :
    (st.eraseRegOp r op).Within (st'.eraseRegOp r op) :=
  (h.drop r).afterWrite r op

theorem Within.erase_set (h : st.Within st') (r op : Nat) :
    (st.eraseRegOp r op).Within (st'.setRegOp r a' op) :=
  (h.drop_put r).afterWrite r op

theorem Within.set_erase (h : st.Within st') (r op : Nat) (harg : a.kind = .unknown) :
    (st.setRegOp r a op).Within (st'.eraseRegOp r op) :=
  (h.put_drop (a := { a with regNum := r, wide := isWideDest op }) r harg).afterWrite r op

/-- An origin survives a meet if it comes from both sides. -/
theorem lookup_meetInto (hknown : a.kind ≠ .unknown) : (st.meetInto src).lookup r = some a ↔
    st.lookup r = some a ∧ ∃ b, src.lookup r = some b ∧ sameOrigin a b = true := by
  have hleft : (st.map fun kv => if (src.lookup kv.1).any (sameOrigin kv.2) then kv
      else (kv.1, tombstone kv.1)).lookup r = (st.lookup r).map fun v =>
        if (src.lookup r).any (sameOrigin v) then v else tombstone r := by
    rw [← Association.lookup_map (fun kv : Nat × InvokeArg =>
      if (src.lookup kv.1).any (sameOrigin kv.2) then kv.2 else tombstone kv.1)]
    congr 1
    apply List.map_congr_left
    intro kv _
    split <;> rfl
  have hright : ∀ b, ((src.filter fun kv => (st.lookup kv.1).isNone).map
      fun kv => (kv.1, tombstone kv.1)).lookup r = some b → b = tombstone r := by
    intro b hb
    rw [Association.lookup_map (fun kv : Nat × InvokeArg => tombstone kv.1)] at hb
    obtain ⟨_, -, rfl⟩ := Option.map_eq_some_iff.mp hb
    rfl
  unfold meetInto
  rw [List.lookup_append, hleft]
  cases hst : st.lookup r with
  | none =>
    constructor
    · intro h
      rw [hright a h] at hknown
      exact absurd rfl hknown
    · rintro ⟨h, -⟩
      cases h
  | some v =>
    simp only [Option.map_some, Option.some_or, Option.some.injEq]
    split
    · rename_i hsame
      obtain ⟨b, hb, hvb⟩ := (Option.any_eq_true _ _).mp hsame
      constructor
      · rintro rfl
        exact ⟨rfl, b, hb, hvb⟩
      · exact fun h => h.1
    · rename_i hdiffer
      constructor
      · rintro rfl
        exact absurd rfl hknown
      · rintro ⟨rfl, b, hb, hsame⟩
        rw [hb] at hdiffer
        exact absurd hsame hdiffer

theorem kind_eq_of_sameOrigin (h : sameOrigin a a' = true) : a.kind = a'.kind := by
  unfold sameOrigin at h
  rw [Bool.and_eq_true, beq_iff_eq] at h
  exact h.1

theorem Within.meetInto (h : st.Within st') (hsrc : src.Within src') :
    (st.meetInto src).Within (st'.meetInto src') := by
  intro q b hq hknown
  obtain ⟨hst, other, hother, hsame⟩ := (lookup_meetInto hknown).mp hq
  have hotherKnown : other.kind ≠ .unknown := kind_eq_of_sameOrigin hsame ▸ hknown
  exact (lookup_meetInto hknown).mpr
    ⟨h q b hst hknown, other, hsrc q other hother hotherKnown, hsame⟩

theorem Within.argAt (h : st.Within st') (hknown : (st.argAt r).kind ≠ .unknown) :
    st'.argAt r = st.argAt r := by
  unfold RegFile.argAt at hknown ⊢
  cases hlookup : st.lookup r with
  | none =>
    rw [hlookup] at hknown
    exact absurd rfl hknown
  | some b =>
    rw [hlookup] at hknown
    rw [h r b hlookup hknown]

end RegFile

/-- The registers of `s` are within those of `s'`, after the same call. -/
structure BlockState.Within (s s' : BlockState) : Prop where
  regs : s.regs.Within s'.regs
  lastInvoke : s.lastInvoke = s'.lastInvoke

/-- One call site, its arguments known in `s'` where they are in `s`. -/
structure InvokeSiteWithArgs.Within (s s' : InvokeSiteWithArgs) : Prop where
  site : s.toInvokeSite = s'.toInvokeSite
  args : List.Forall₂ (fun a a' => a.kind ≠ .unknown → a' = a) s.args s'.args

namespace CodeItem

variable {c : CodeItem} {s s' : BlockState} {k : Nat}

/-- An instruction keeps the order. -/
theorem transfer_within (h : s.Within s') : (c.transfer k s).Within (c.transfer k s') := by
  obtain ⟨hregs, hlast⟩ := h
  unfold transfer
  dsimp only
  split
  · exact ⟨hregs, rfl⟩
  split
  · rw [← hlast]
    split
    · exact ⟨hregs.setRegOp _ _ fun _ => rfl, rfl⟩
    · exact ⟨hregs.eraseRegOp _ _, rfl⟩
  split
  · rename_i dst src _
    refine ⟨?_, ?_⟩
    · cases hsrc : s.regs.lookup src with
      | none =>
        cases hsrc' : s'.regs.lookup src with
        | none => exact hregs.eraseRegOp _ _
        | some a' => exact hregs.erase_set _ _
      | some a =>
        cases hsrc' : s'.regs.lookup src with
        | none =>
          refine hregs.set_erase _ _ (not_not.mp fun hknown => ?_)
          rw [hregs src a hsrc hknown] at hsrc'
          cases hsrc'
        | some a' =>
          refine hregs.setRegOp _ _ fun hknown => ?_
          rw [hregs src a hsrc hknown] at hsrc'
          exact (Option.some.inj hsrc').symm
    · cases s.regs.lookup src <;> cases s'.regs.lookup src <;> rfl
  split
  · exact ⟨hregs.setRegOp _ _ fun _ => rfl, rfl⟩
  split
  · exact ⟨hregs.eraseRegOp _ _, rfl⟩
  · exact ⟨hregs, rfl⟩

theorem emitAt_within (h : s.Within s') :
    List.Forall₂ InvokeSiteWithArgs.Within (c.emitAt k s) (c.emitAt k s') := by
  unfold emitAt
  cases c.siteAt k with
  | none => exact .nil
  | some site =>
    refine .cons ⟨rfl, ?_⟩ .nil
    rw [List.forall₂_map_left_iff, List.forall₂_map_right_iff]
    exact List.forall₂_same.mpr fun r _ hknown => h.regs.argAt hknown

/-- A run over instructions keeps the order and lists the same sites. -/
theorem runFrom_within {stop fuel : Nat} (h : s.Within s') :
    (c.runFrom stop fuel k s).regs.Within (c.runFrom stop fuel k s').regs ∧
      List.Forall₂ InvokeSiteWithArgs.Within (c.runFrom stop fuel k s).sites
        (c.runFrom stop fuel k s').sites := by
  induction fuel generalizing k s s' with
  | zero => exact ⟨h.regs, .nil⟩
  | succ fuel ih =>
    unfold runFrom
    split
    · split
      · exact ⟨h.regs, .nil⟩
      · obtain ⟨hregs, hsites⟩ := ih (k := k + c.getBytecodeWidth k) (transfer_within (k := k) h)
        exact ⟨hregs, List.rel_append (emitAt_within h) hsites⟩
    · exact ⟨h.regs, .nil⟩

theorem runBlock_within {g : Cfg} {b : Nat} {st st' : RegFile} (h : st.Within st') :
    (c.runBlock g b st).regs.Within (c.runBlock g b st').regs ∧
      List.Forall₂ InvokeSiteWithArgs.Within (c.runBlock g b st).sites
        (c.runBlock g b st').sites :=
  runFrom_within ⟨h, rfl⟩

/-- The states behind the blocks of `outs` are within those of `outs'`; a block
without a state carries nothing. -/
def OutsWithin (outs outs' : List (Nat × RegFile)) : Prop :=
  ∀ p, RegFile.Within ((outs.lookup p).getD []) ((outs'.lookup p).getD [])

theorem foldl_meet_within {outs outs' : List (Nat × RegFile)} (h : OutsWithin outs outs')
    (preds : List Nat) {acc acc' : Option RegFile} (hacc : Option.Rel RegFile.Within acc acc') :
    Option.Rel RegFile.Within
      (preds.foldl (fun (acc : Option RegFile) p =>
        let contrib := (outs.lookup p).getD []
        match acc with
        | none => some contrib
        | some st => some (st.meetInto contrib)) acc)
      (preds.foldl (fun (acc : Option RegFile) p =>
        let contrib := (outs'.lookup p).getD []
        match acc with
        | none => some contrib
        | some st => some (st.meetInto contrib)) acc') := by
  induction preds generalizing acc acc' with
  | nil => exact hacc
  | cons p preds ih =>
    rw [List.foldl_cons, List.foldl_cons]
    apply ih
    cases hacc with
    | none => exact .some (h p)
    | some hst => exact .some (hst.meetInto (h p))

/-- The state a block starts from keeps the order. -/
theorem incoming_within {g : Cfg} {w : Nat} {outs outs' : List (Nat × RegFile)}
    (h : OutsWithin outs outs') : (c.incoming g w outs).Within (c.incoming g w outs') := by
  unfold incoming
  split
  · exact RegFile.Within.refl []
  · have hentry : Option.Rel RegFile.Within (if w = 0 then some c.paramState else none)
        (if w = 0 then some c.paramState else none) := by
      split
      · exact .some (RegFile.Within.refl _)
      · exact .none
    have hmet := foldl_meet_within h (g.preds.getD w []) hentry
    dsimp only
    generalize (g.preds.getD w []).foldl _ _ = met at hmet ⊢
    generalize (g.preds.getD w []).foldl _ _ = met' at hmet ⊢
    cases hmet with
    | none => exact RegFile.Within.refl []
    | some hst => exact hst

end CodeItem

end Dexllm
