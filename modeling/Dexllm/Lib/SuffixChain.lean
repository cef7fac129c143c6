import Mathlib.Data.List.Infix

/-!
The longest suffix of a word in a set of words that is closed under prefixes, and
how it changes with one more letter: the search walks down the chain of suffixes
in the set until one of them can be extended.
-/

namespace SuffixChain

variable {α : Type*} {T : List α → Prop} {u v w f : List α} {c : α}

/-- A set of words that holds the empty word and the prefixes of its words. -/
structure PrefixClosed (T : List α → Prop) : Prop where
  nil : T []
  closed : ∀ u c, T (u ++ [c]) → T u

/-- `u` is the longest suffix of `w` in the set. -/
structure Longest (T : List α → Prop) (w u : List α) : Prop where
  suffix : u <:+ w
  mem : T u
  longest : ∀ v, v <:+ w → T v → v.length ≤ u.length

/-- `u` is a suffix of `w` in the set, and no longer one can be extended by `c`. -/
structure Pending (T : List α → Prop) (w : List α) (c : α) (u : List α) : Prop where
  suffix : u <:+ w
  mem : T u
  longest : ∀ v, v <:+ w → T (v ++ [c]) → v.length ≤ u.length

theorem Longest.of_mem (h : T w) : Longest T w w where
  suffix := List.suffix_rfl
  mem := h
  longest _ hv _ := hv.length_le

/-- What is a suffix of the word and in the set is a suffix of the longest. -/
theorem Longest.suffix_of_mem (h : Longest T w u) (hv : v <:+ w) (hmem : T v) : v <:+ u :=
  List.suffix_of_suffix_length_le hv h.suffix (h.longest v hv hmem)

theorem Longest.pending (hT : PrefixClosed T) (h : Longest T w u) : Pending T w c u where
  suffix := h.suffix
  mem := h.mem
  longest v hv hmem := h.longest v hv (hT.closed v c hmem)

theorem suffix_snoc (h : v <:+ w ++ [c]) : v = [] ∨ ∃ u, v = u ++ [c] ∧ u <:+ w := by
  rcases List.eq_nil_or_concat v with rfl | ⟨u, d, rfl⟩
  · exact .inl rfl
  · right
    obtain ⟨t, ht⟩ := h
    rw [List.concat_eq_append, ← List.append_assoc] at ht
    obtain ⟨hpre, hlast⟩ := List.append_inj' ht rfl
    obtain rfl := List.singleton_inj.mp hlast
    exact ⟨u, by rw [List.concat_eq_append], t, hpre⟩

/-- The word that can be extended is the one. -/
theorem Pending.found (h : Pending T w c u) (hmem : T (u ++ [c])) :
    Longest T (w ++ [c]) (u ++ [c]) where
  suffix := by
    obtain ⟨t, rfl⟩ := h.suffix
    exact ⟨t, by rw [List.append_assoc]⟩
  mem := hmem
  longest v hv hv' := by
    rcases suffix_snoc hv with rfl | ⟨x, rfl, hx⟩
    · exact Nat.zero_le _
    · have := h.longest x hx hv'
      simp only [List.length_append, List.length_singleton]
      omega

/-- A word that cannot be extended leaves the search to the suffixes behind it. -/
theorem Pending.next {a : α} (h : Pending T w c (a :: u)) (hmiss : ¬T (a :: u ++ [c]))
    (hf : Longest T u f) (hT : PrefixClosed T) : Pending T w c f where
  suffix := (hf.suffix.trans (List.suffix_cons a u)).trans h.suffix
  mem := hf.mem
  longest v hv hv' := by
    have hle := h.longest v hv hv'
    have hsuffix : v <:+ a :: u := List.suffix_of_suffix_length_le hv h.suffix hle
    rcases List.suffix_cons_iff.mp hsuffix with rfl | hsuffix
    · exact absurd hv' hmiss
    · exact hf.longest v hsuffix (hT.closed v c hv')

/-- Where not even the letter is in the set, the empty word is left. -/
theorem Pending.nil (h : Pending T w c []) (hmiss : ¬T [c]) (hT : PrefixClosed T) :
    Longest T (w ++ [c]) [] where
  suffix := List.nil_suffix
  mem := hT.nil
  longest v hv hv' := by
    rcases suffix_snoc hv with rfl | ⟨x, rfl, hx⟩
    · exact Nat.zero_le _
    · have hnil := List.eq_nil_of_length_eq_zero (Nat.le_zero.mp (h.longest x hx hv'))
      subst hnil
      exact absurd hv' hmiss

end SuffixChain
