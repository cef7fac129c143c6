import Dexllm.Descriptors
import Dexllm.JavaText

/-!
`ParseParamsType` takes the parameter list of a proto text apart. Every round of its loop
takes a descriptor, and a valid descriptor is taken whole.
-/

namespace Dexllm

open Guarded Bytes Mutf8 Delimited

/-- A type descriptor of a verified dex: a string of the dex that `IsValidDescriptor` accepts. -/
def ValidDescriptor (bs : Text) : Prop :=
  ∃ us, Spelling us bs ∧ isValidDescriptor (bs ++ [0]) = .ok true

theorem ValidDescriptor.isDescriptor {bs : Text} (h : ValidDescriptor bs) : IsDescriptor bs := by
  obtain ⟨us, hspell, haccept⟩ := h
  exact (post_of_ok (wp_isValidDescriptor hspell []) haccept rfl).2

section Splitting

variable {body desc rest name : Text}

theorem splitSemicolon_append (hname : 0x3b ∉ name) (rest : Text) :
    splitSemicolon (name ++ 0x3b :: rest) = some (name ++ [0x3b], rest) := by
  induction name with
  | nil => rfl
  | cons c name ih =>
    obtain ⟨hc, hname⟩ := not_or.mp (fun h => hname (List.mem_cons.mpr h))
    rw [List.cons_append, splitSemicolon, if_neg (Ne.symm hc), ih hname]
    rfl

theorem splitDescriptor_core {core : Text} (hcore : core ∈ coreDescriptors) (rest : Text) :
    splitDescriptor (core ++ rest) = some (core, rest) := by
  obtain ⟨c, rfl, hc⟩ | ⟨name, rfl, hname⟩ := hcore
  · have hopen : c ≠ 0x5b := by
      rintro rfl
      exact absurd hc (by decide)
    have hclass : c ≠ 0x4c := by
      rintro rfl
      exact absurd hc (by decide)
    rw [List.singleton_append, splitDescriptor, if_neg hopen, if_neg hclass]
  · have hsemi : 0x3b ∉ name := fun hb => (hname.not_punctuation hb).2 rfl
    rw [List.cons_append, List.append_assoc, List.singleton_append, splitDescriptor,
      if_neg (by decide), if_pos rfl, splitSemicolon_append hsemi]
    rfl

/-- A descriptor in front of some text is the one that is taken. -/
theorem splitDescriptor_append (hdesc : IsDescriptor desc) (rest : Text) :
    splitDescriptor (desc ++ rest) = some (desc, rest) := by
  obtain ⟨array, core, rfl, hcore⟩ := hdesc
  induction array with
  | zero => exact splitDescriptor_core hcore rest
  | succ array ih =>
    rw [List.replicate_succ, List.cons_append, List.cons_append, splitDescriptor, if_pos rfl, ih]
    rfl

theorem length_splitSemicolon (h : splitSemicolon body = some (desc, rest)) :
    rest.length < body.length := by
  induction body generalizing desc with
  | nil => cases h
  | cons c body ih =>
    unfold splitSemicolon at h
    split at h
    · obtain ⟨-, rfl⟩ := Prod.mk.inj (Option.some.inj h)
      exact Nat.lt_succ_self _
    · obtain ⟨⟨name, more⟩, hname, heq⟩ := Option.map_eq_some_iff.mp h
      obtain ⟨-, rfl⟩ := Prod.mk.inj heq
      exact Nat.lt_succ_of_lt (ih hname)

/-- A round of the loop takes a byte at least. -/
theorem length_splitDescriptor (h : splitDescriptor body = some (desc, rest)) :
    rest.length < body.length := by
  induction body generalizing desc with
  | nil => cases h
  | cons c body ih =>
    unfold splitDescriptor at h
    split at h
    · obtain ⟨⟨name, more⟩, hname, heq⟩ := Option.map_eq_some_iff.mp h
      obtain ⟨-, rfl⟩ := Prod.mk.inj heq
      exact Nat.lt_succ_of_lt (ih hname)
    · split at h
      · obtain ⟨⟨name, more⟩, hname, heq⟩ := Option.map_eq_some_iff.mp h
        obtain ⟨-, rfl⟩ := Prod.mk.inj heq
        exact Nat.lt_succ_of_lt (length_splitSemicolon hname)
      · obtain ⟨-, rfl⟩ := Prod.mk.inj (Option.some.inj h)
        exact Nat.lt_succ_self _

/-- The loop ends within a round for each byte: more rounds change nothing. -/
theorem splitDescriptors_settled {fuel fuel' : Nat} (h : body.length ≤ fuel) (hle : fuel ≤ fuel') :
    splitDescriptors fuel' body = splitDescriptors fuel body := by
  induction fuel generalizing body fuel' with
  | zero =>
    obtain rfl := List.eq_nil_of_length_eq_zero (Nat.le_zero.mp h)
    cases fuel' <;> rfl
  | succ fuel ih =>
    obtain ⟨fuel', rfl⟩ : ∃ n, fuel' = n + 1 := ⟨fuel' - 1, by omega⟩
    unfold splitDescriptors
    cases hsplit : splitDescriptor body with
    | none => rfl
    | some taken =>
      obtain ⟨desc, rest⟩ := taken
      have hshort := length_splitDescriptor hsplit
      exact congrArg (desc :: ·) (ih (by omega) (by omega))

theorem splitDescriptors_flatten {ps : List Text} (hps : ∀ p ∈ ps, IsDescriptor p) {fuel : Nat}
    (hfuel : ps.length ≤ fuel) : splitDescriptors fuel ps.flatten = ps := by
  induction ps generalizing fuel with
  | nil => cases fuel <;> rfl
  | cons p ps ih =>
    obtain ⟨hp, hps⟩ := List.forall_mem_cons.mp hps
    obtain ⟨fuel, rfl⟩ : ∃ n, fuel = n + 1 := ⟨fuel - 1, by rw [List.length_cons] at hfuel; omega⟩
    rw [List.flatten_cons, splitDescriptors, splitDescriptor_append hp]
    exact congrArg (p :: ·) (ih hps (Nat.le_of_succ_le_succ hfuel))

theorem length_le_flatten {ps : List Text} (hps : ∀ p ∈ ps, IsDescriptor p) :
    ps.length ≤ ps.flatten.length := by
  induction ps with
  | nil => exact Nat.le_refl 0
  | cons p ps ih =>
    obtain ⟨hp, hps⟩ := List.forall_mem_cons.mp hps
    have hpos := List.length_pos_iff.mpr hp.ne_nil
    rw [List.flatten_cons, List.length_cons, List.length_append]
    exact Nat.add_comm 1 _ ▸ Nat.add_le_add hpos (ih hps)

end Splitting

/-- The descriptors between the parentheses come back, whatever stands behind them. -/
theorem parseParamsType_flatten {ps : List Text} (hps : ∀ p ∈ ps, IsDescriptor p) (r : Text) :
    parseParamsType (ascii "(" ++ ps.flatten ++ ascii ")" ++ r) = ps := by
  have hclose : 0x29 ∉ ascii "(" ++ ps.flatten := by
    intro hmem
    obtain hmem | hmem := List.mem_append.mp hmem
    · exact absurd hmem (by decide)
    · obtain ⟨p, hp, hb⟩ := List.mem_flatten.mp hmem
      exact (hps p hp).not_punctuation hb (by decide)
  have hbody : (ascii "(" ++ ps.flatten ++ ascii ")" ++ r).takeWhile (· ≠ 0x29) =
      ascii "(" ++ ps.flatten := by
    rw [List.append_assoc, List.takeWhile_append_of_pos]
    · rw [show ascii ")" ++ r = 0x29 :: r from rfl, List.takeWhile_cons_of_neg (by simp),
        List.append_nil]
    · intro b hb
      have hne : b ≠ 0x29 := by
        rintro rfl
        exact hclose hb
      simpa using hne
  unfold parseParamsType
  rw [if_pos (by simp [ascii]), hbody]
  exact splitDescriptors_flatten hps (length_le_flatten hps)

/-- The parameters of a proto text come back one by one, whatever the return type; and on
every text the loop over the parameter list ends by itself. -/
theorem parse_params_exact :
    (∀ (ps : List Text) (r : Text), (∀ p ∈ ps, ValidDescriptor p ∧ p ≠ ascii "V") →
      ValidDescriptor r → parseParamsType (ascii "(" ++ ps.flatten ++ ascii ")" ++ r) = ps) ∧
    ∀ (body : Text) (fuel : Nat), body.length ≤ fuel →
      splitDescriptors fuel body = splitDescriptors body.length body :=
  ⟨fun _ r hps _ => parseParamsType_flatten (fun p hp => (hps p hp).1.isDescriptor) r,
    fun _ _ hfuel => splitDescriptors_settled le_rfl hfuel⟩

theorem validDescriptor_long : ValidDescriptor (ascii "J") := by
  have hunit : CodeUnit 0x4a [0x4a] := .one (a := 0x4a) (by decide) (by decide)
  exact ⟨[0x4a], .cons hunit .nil, by decide⟩

theorem validDescriptor_ints : ValidDescriptor (ascii "[I") := by
  have hopen : CodeUnit 0x5b [0x5b] := .one (a := 0x5b) (by decide) (by decide)
  have hint : CodeUnit 0x49 [0x49] := .one (a := 0x49) (by decide) (by decide)
  exact ⟨[0x5b, 0x49], .cons hopen (.cons hint .nil), by decide⟩

theorem parse_params_exact_longInts :
    parseParamsType (ascii "(" ++ [ascii "J", ascii "[I"].flatten ++ ascii ")" ++ ascii "J") =
      [ascii "J", ascii "[I"] :=
  parse_params_exact.1 [ascii "J", ascii "[I"] (ascii "J")
    (List.forall_mem_cons.mpr ⟨⟨validDescriptor_long, by decide⟩,
      List.forall_mem_cons.mpr ⟨⟨validDescriptor_ints, by decide⟩,
        fun _ h => absurd h List.not_mem_nil⟩⟩) validDescriptor_long

end Dexllm
