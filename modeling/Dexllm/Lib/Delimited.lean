import Mathlib.Data.List.Basic
import Mathlib.InformationTheory.Coding.UniquelyDecodable

/-!
Prefix-free sets of words. A word of such a set can be read off the front of
any text, so a text made of its words has one decomposition. Two ways for a
word to delimit itself are a last symbol that stands nowhere else and a run of
marks before a word that starts with none.
-/

namespace Delimited

open InformationTheory

variable {α : Type} {S : Set (List α)} {w w' r r' : List α} {t : α}

/-- Words of `S` that stand at the front of one text are equal. -/
def PrefixFree (S : Set (List α)) : Prop :=
  ∀ w ∈ S, ∀ w' ∈ S, ∀ r r', w ++ r = w' ++ r' → w = w'

theorem PrefixFree.append_inj (h : PrefixFree S) (hw : w ∈ S) (hw' : w' ∈ S)
    (heq : w ++ r = w' ++ r') : w = w' ∧ r = r' := by
  obtain rfl := h w hw w' hw' r r' heq
  exact ⟨rfl, List.append_cancel_left heq⟩

/-- A text of nonempty words of a prefix-free set has one decomposition. -/
theorem PrefixFree.uniquelyDecodable (h : PrefixFree S) (hnil : [] ∉ S) :
    UniquelyDecodable S := by
  intro ws
  induction ws with
  | nil =>
    intro ws' _ hws' hflat
    cases ws' with
    | nil => rfl
    | cons w' ws' =>
      have hempty : w' = [] := by
        rw [List.flatten_nil, List.flatten_cons] at hflat
        exact (List.append_eq_nil_iff.mp hflat.symm).1
      exact absurd (hempty ▸ hws' w' (by simp)) hnil
  | cons w ws ih =>
    intro ws' hws hws' hflat
    cases ws' with
    | nil =>
      have hempty : w = [] := by
        rw [List.flatten_nil, List.flatten_cons] at hflat
        exact (List.append_eq_nil_iff.mp hflat).1
      exact absurd (hempty ▸ hws w (by simp)) hnil
    | cons w' ws' =>
      rw [List.flatten_cons, List.flatten_cons] at hflat
      obtain ⟨rfl, hrest⟩ := h.append_inj (hws w (by simp)) (hws' w' (by simp)) hflat
      rw [ih ws' (fun x hx => hws x (by simp [hx])) (fun x hx => hws' x (by simp [hx])) hrest]

/-- The word before the first `t` of a text. -/
theorem delimited_inj (hw : t ∉ w) (hw' : t ∉ w') (heq : w ++ t :: r = w' ++ t :: r') :
    w = w' ∧ r = r' := by
  induction w generalizing w' with
  | nil =>
    cases w' with
    | nil => exact ⟨rfl, (List.cons.inj heq).2⟩
    | cons a w' =>
      obtain rfl := (List.cons.inj heq).1
      exact absurd List.mem_cons_self hw'
  | cons a w ih =>
    cases w' with
    | nil =>
      obtain rfl := (List.cons.inj heq).1
      exact absurd List.mem_cons_self hw
    | cons a' w' =>
      obtain ⟨rfl, hrest⟩ := List.cons.inj heq
      obtain ⟨rfl, hr⟩ := ih (fun h => hw (List.mem_cons_of_mem a h))
        (fun h => hw' (List.mem_cons_of_mem a h)) hrest
      exact ⟨rfl, hr⟩

/-- The length of a run of marks before a text that starts with none. -/
theorem marks_inj {k k' : Nat} (hr : r.head? ≠ some t) (hr' : r'.head? ≠ some t)
    (heq : List.replicate k t ++ r = List.replicate k' t ++ r') : k = k' ∧ r = r' := by
  induction k generalizing k' with
  | zero =>
    cases k' with
    | zero => exact ⟨rfl, heq⟩
    | succ k' =>
      rw [List.replicate_zero, List.nil_append, List.replicate_succ, List.cons_append] at heq
      exact absurd (by rw [heq, List.head?_cons]) hr
  | succ k ih =>
    cases k' with
    | zero =>
      rw [List.replicate_zero, List.nil_append, List.replicate_succ, List.cons_append] at heq
      exact absurd (by rw [← heq, List.head?_cons]) hr'
    | succ k' =>
      rw [List.replicate_succ, List.replicate_succ, List.cons_append, List.cons_append] at heq
      obtain ⟨rfl, hrest⟩ := ih (List.cons.inj heq).2
      exact ⟨rfl, hrest⟩

/-- Marks before the words of a prefix-free set, none of which starts with a
mark. -/
theorem PrefixFree.marked (h : PrefixFree S) (hhead : ∀ w ∈ S, ∀ r, (w ++ r).head? ≠ some t) :
    PrefixFree {w | ∃ k, ∃ core ∈ S, w = List.replicate k t ++ core} := by
  rintro _ ⟨k, core, hcore, rfl⟩ _ ⟨k', core', hcore', rfl⟩ r r' heq
  rw [List.append_assoc, List.append_assoc] at heq
  obtain ⟨rfl, hrest⟩ := marks_inj (hhead core hcore r) (hhead core' hcore' r') heq
  rw [h core hcore core' hcore' r r' hrest]

/-- A text that changes sides of a bound once is cut there in one way. -/
theorem cut_inj {key : α → Nat} {bound : Nat} (hw : ∀ x ∈ w, key x < bound)
    (hw' : ∀ x ∈ w', key x < bound) (hr : ∀ x ∈ r, bound ≤ key x) (hr' : ∀ x ∈ r', bound ≤ key x)
    (heq : w ++ r = w' ++ r') : w = w' ∧ r = r' := by
  have hcut : ∀ {u s : List α}, (∀ x ∈ u, key x < bound) → (∀ x ∈ s, bound ≤ key x) →
      (u ++ s).filter (fun x => key x < bound) = u := by
    intro u s hu hs
    have hs' : s.filter (fun x => key x < bound) = [] := by
      rw [List.filter_eq_nil_iff]
      intro x hx
      have hkey := hs x hx
      simp only [decide_eq_true_eq]
      omega
    rw [List.filter_append, hs', List.append_nil, List.filter_eq_self]
    exact fun x hx => decide_eq_true (hu x hx)
  have hword : w = w' := by
    have hfilter := congrArg (List.filter fun x => decide (key x < bound)) heq
    rwa [hcut hw hr, hcut hw' hr'] at hfilter
  subst hword
  exact ⟨rfl, List.append_cancel_left heq⟩

end Delimited
