import Mathlib.Algebra.Order.BigOperators.Group.List
import Mathlib.Data.List.Sort
import Dexllm.Lib.LevelQueue
import Dexllm.Search.StringMatch

/-!
The trie of the keywords: its states are the prefixes of the keywords in lower case,
and a state at which a keyword ends has its number.
-/

namespace Dexllm.AhoCorasick

open SuffixChain LevelQueue

/-- A letter as the trie has it. -/
def lower (c : UInt8) : UInt8 := if 0x41 ≤ c && c ≤ 0x5a then c + 32 else c

/-- A `State`, by the letters that lead to it from the root. Its depth is their
number. -/
abbrev State := List UInt8

/-- The `success` map of every state by its keys, and the `emits` set. -/
structure Trie where
  success : State → List UInt8 := fun _ => []
  emits : State → List Nat := fun _ => []

namespace Trie

variable (t : Trie)

/-- `AddState`. -/
def addState (s : State) (ch : UInt8) : Trie :=
  if ch ∈ t.success s then t
  else { t with
    success := Function.update t.success s ((t.success s).orderedInsert (· ≤ ·) ch) }

/-- `AddEmit`. -/
def addEmit (s : State) (keyword : Nat) : Trie :=
  if keyword ∈ t.emits s then t
  else { t with
    emits := Function.update t.emits s ((t.emits s).orderedInsert (· ≥ ·) keyword) }

/-- The loop of `AddKeyword` from the state `s`. -/
def addLetters : Trie → State → Text → Trie × State
  | t, s, [] => (t, s)
  | t, s, i :: keyword => addLetters (t.addState s (lower i)) (s ++ [lower i]) keyword

/-- `AddKeyword`. -/
def addKeyword (keyword : Text) (index : Nat) : Trie :=
  let (t, s) := addLetters t [] keyword
  t.addEmit s index

/-- `AddAllKeyword` from the keyword `i`. -/
def addAllKeyword : Trie → (i : Nat) → List Text → Trie
  | t, _, [] => t
  | t, i, keyword :: keywords => addAllKeyword (t.addKeyword keyword i) (i + 1) keywords

/-- `GetLargestValueId`. -/
def largestValueId (s : State) : Int :=
  match t.emits s with
  | [] => -1
  | keyword :: _ => keyword

/-- `IsAcceptable`. -/
def isAcceptable (s : State) : Bool := s ≠ [] && t.emits s ≠ []

/-- The states a state leads to, by their letters. -/
def children (s : State) : List State := (t.success s).map fun c => s ++ [c]

variable {t} {s u : State} {c : UInt8} {j : Nat} {keyword : Text}

theorem mem_success_addState {ch : UInt8} :
    c ∈ (t.addState s ch).success u ↔ c ∈ t.success u ∨ u = s ∧ c = ch := by
  unfold addState
  split
  next hmem =>
    refine ⟨.inl, fun h => ?_⟩
    rcases h with h | ⟨rfl, rfl⟩
    · exact h
    · exact hmem
  next hmem =>
    by_cases hu : u = s
    · subst hu
      simp [List.mem_orderedInsert, or_comm]
    · simp [hu]

theorem emits_addState {ch : UInt8} : (t.addState s ch).emits = t.emits := by
  unfold addState
  split <;> rfl

theorem mem_emits_addEmit {keyword : Nat} :
    j ∈ (t.addEmit s keyword).emits u ↔ j ∈ t.emits u ∨ u = s ∧ j = keyword := by
  unfold addEmit
  split
  next hmem =>
    refine ⟨.inl, fun h => ?_⟩
    rcases h with h | ⟨rfl, rfl⟩
    · exact h
    · exact hmem
  next hmem =>
    by_cases hu : u = s
    · subst hu
      simp [List.mem_orderedInsert, or_comm]
    · simp [hu]

theorem success_addEmit {keyword : Nat} : (t.addEmit s keyword).success = t.success := by
  unfold addEmit
  split <;> rfl

/-- The keys of the maps ascend, the numbers of the sets descend. -/
structure Sorted (t : Trie) : Prop where
  ascending : ∀ u, (t.success u).Pairwise (· < ·)
  descending : ∀ u, (t.emits u).Pairwise (· > ·)

theorem Sorted.addState (h : t.Sorted) (ch : UInt8) : (t.addState s ch).Sorted := by
  unfold Trie.addState
  split
  next => exact h
  next hmem =>
    refine ⟨fun u => ?_, h.descending⟩
    by_cases hu : u = s
    · subst hu
      simp only [Function.update_self]
      have hle := ((h.ascending u).imp fun hlt => UInt8.le_of_lt hlt).orderedInsert ch
      have hnodup : ((t.success u).orderedInsert (· ≤ ·) ch).Nodup :=
        (List.perm_orderedInsert (· ≤ ·) ch _).nodup_iff.mpr
          (List.nodup_cons.mpr ⟨hmem, (h.ascending u).imp fun hlt => UInt8.ne_of_lt hlt⟩)
      exact hle.imp₂ (fun _ _ hle hne => UInt8.lt_of_le_of_ne hle hne) hnodup
    · simp only [Function.update_of_ne hu]
      exact h.ascending u

theorem Sorted.addEmit (h : t.Sorted) (keyword : Nat) : (t.addEmit s keyword).Sorted := by
  unfold Trie.addEmit
  split
  next => exact h
  next hmem =>
    refine ⟨h.ascending, fun u => ?_⟩
    by_cases hu : u = s
    · subst hu
      simp only [Function.update_self]
      have hge := ((h.descending u).imp fun hlt => le_of_lt hlt).orderedInsert keyword
      have hnodup : ((t.emits u).orderedInsert (· ≥ ·) keyword).Nodup :=
        (List.perm_orderedInsert (· ≥ ·) keyword _).nodup_iff.mpr
          (List.nodup_cons.mpr ⟨hmem, (h.descending u).imp fun hlt => ne_of_gt hlt⟩)
      exact hge.imp₂ (fun _ _ hge hne => lt_of_le_of_ne hge hne.symm) hnodup
    · simp only [Function.update_of_ne hu]
      exact h.descending u

/-- What the letters of a keyword add behind the state `s`. -/
theorem addLetters_spec (h : t.Sorted) :
    (addLetters t s keyword).2 = s ++ keyword.map lower ∧
      (addLetters t s keyword).1.emits = t.emits ∧ (addLetters t s keyword).1.Sorted ∧
      ∀ u c, c ∈ (addLetters t s keyword).1.success u ↔ c ∈ t.success u ∨
        ∃ p, u = s ++ p ∧ p ++ [c] <+: keyword.map lower := by
  induction keyword generalizing t s with
  | nil => simp [addLetters, h]
  | cons i keyword ih =>
    obtain ⟨hend, hemits, hsorted, hsuccess⟩ := @ih (t.addState s (lower i)) (s ++ [lower i])
      (h.addState (lower i))
    rw [addLetters]
    refine ⟨by rw [hend]; simp, hemits.trans emits_addState, hsorted, fun u c => ?_⟩
    rw [hsuccess, mem_success_addState, or_assoc]
    apply or_congr_right
    constructor
    · rintro (⟨rfl, rfl⟩ | ⟨p, rfl, hp⟩)
      · exact ⟨[], (List.append_nil _).symm, by simp⟩
      · exact ⟨lower i :: p, by simp, by simpa using hp⟩
    · rintro ⟨p, rfl, hp⟩
      cases p with
      | nil =>
        left
        rw [List.nil_append, List.map_cons, List.cons_prefix_cons] at hp
        exact ⟨List.append_nil _, hp.1⟩
      | cons d p =>
        rw [List.cons_append, List.map_cons, List.cons_prefix_cons] at hp
        obtain ⟨rfl, hp⟩ := hp
        exact .inr ⟨p, by simp, hp⟩

theorem addAllKeyword_spec {keywords : List Text} {i : Nat} (h : t.Sorted) :
    (addAllKeyword t i keywords).Sorted ∧
      (∀ u c, c ∈ (addAllKeyword t i keywords).success u ↔ c ∈ t.success u ∨
        ∃ k ∈ keywords, u ++ [c] <+: k.map lower) ∧
      ∀ u j, j ∈ (addAllKeyword t i keywords).emits u ↔ j ∈ t.emits u ∨
        ∃ n k, keywords[n]? = some k ∧ j = i + n ∧ u = k.map lower := by
  induction keywords generalizing t i with
  | nil => simp [addAllKeyword, h]
  | cons k keywords ih =>
    obtain ⟨hend, hemits, hsorted, hsuccess⟩ := @addLetters_spec t [] k h
    obtain ⟨hall, hkeys, hnumbers⟩ := @ih ((addLetters t [] k).1.addEmit (addLetters t [] k).2 i)
      (i + 1) (hsorted.addEmit i)
    refine ⟨hall, fun u c => ?_, fun u j => ?_⟩
    · rw [addAllKeyword, addKeyword, hkeys, success_addEmit, hsuccess, or_assoc]
      simp
    · rw [addAllKeyword, addKeyword, hnumbers, mem_emits_addEmit, hemits, hend, List.nil_append,
        or_assoc]
      apply or_congr_right
      constructor
      · rintro (⟨rfl, rfl⟩ | ⟨n, k', hn, rfl, rfl⟩)
        · exact ⟨0, k, rfl, rfl, rfl⟩
        · exact ⟨n + 1, k', hn, by omega, rfl⟩
      · rintro ⟨n, k', hn, rfl, rfl⟩
        cases n with
        | zero =>
          obtain rfl := Option.some.inj hn
          exact .inl ⟨rfl, rfl⟩
        | succ n => exact .inr ⟨n, k', hn, by omega, rfl⟩

end Trie

/-- A state of the trie of these keywords. -/
def Node (keywords : List Text) (u : State) : Prop :=
  u = [] ∨ ∃ k ∈ keywords, u <+: k.map lower

theorem prefixClosed_node (keywords : List Text) : PrefixClosed (Node keywords) where
  nil := .inl rfl
  closed u c h := by
    rcases h with h | ⟨k, hk, hpre⟩
    · exact absurd h (List.append_ne_nil_of_right_ne_nil _ (List.cons_ne_nil c []))
    · exact .inr ⟨k, hk, (List.prefix_append u [c]).trans hpre⟩

/-- The trie has the keywords. -/
structure Built (keywords : List Text) (t : Trie) : Prop extends t.Sorted where
  success : ∀ u c, c ∈ t.success u ↔ Node keywords (u ++ [c])
  emits : ∀ u j, j ∈ t.emits u ↔ ∃ k, keywords[j]? = some k ∧ u = k.map lower

theorem built_addAllKeyword (keywords : List Text) :
    Built keywords (Trie.addAllKeyword {} 0 keywords) := by
  obtain ⟨hsorted, hsuccess, hemits⟩ := @Trie.addAllKeyword_spec {} keywords 0
    ⟨fun _ => List.Pairwise.nil, fun _ => List.Pairwise.nil⟩
  refine ⟨hsorted, fun u c => ?_, fun u j => ?_⟩
  · rw [hsuccess]
    simp [Node]
  · rw [hemits]
    simp

section Levels

variable {keywords : List Text} {t : Trie} (h : Built keywords t) {u v : State}
include h

theorem mem_children : v ∈ t.children u ↔ Node keywords v ∧ ∃ c, v = u ++ [c] := by
  simp only [Trie.children, List.mem_map, h.success]
  constructor
  · rintro ⟨c, hc, rfl⟩
    exact ⟨hc, c, rfl⟩
  · rintro ⟨hv, c, rfl⟩
    exact ⟨c, hv, rfl⟩

theorem mem_level {d : Nat} :
    u ∈ level t.children [[]] d ↔ Node keywords u ∧ u.length = d := by
  induction d generalizing u with
  | zero =>
    rw [level, List.mem_singleton, List.length_eq_zero_iff]
    exact ⟨fun hnil => ⟨.inl hnil, hnil⟩, And.right⟩
  | succ d ih =>
    simp only [level, List.mem_flatMap, ih, mem_children h]
    constructor
    · rintro ⟨p, ⟨-, hlength⟩, hu, c, rfl⟩
      exact ⟨hu, by simp [hlength]⟩
    · rintro ⟨hu, hlength⟩
      rcases List.eq_nil_or_concat u with rfl | ⟨p, c, rfl⟩
      · cases hlength
      · rw [List.concat_eq_append] at hu hlength ⊢
        have hp := (prefixClosed_node keywords).closed p c hu
        exact ⟨p, ⟨hp, by simpa using hlength⟩, hu, c, rfl⟩

theorem nodup_children : (t.children u).Nodup := by
  refine List.Nodup.map (fun c d heq => ?_) ((h.ascending u).imp fun hlt => UInt8.ne_of_lt hlt)
  exact List.singleton_inj.mp (List.append_cancel_left heq)

theorem nodup_level {d : Nat} : (level t.children [[]] d).Nodup := by
  induction d with
  | zero => exact List.nodup_singleton _
  | succ d ih =>
    rw [level, List.nodup_flatMap]
    refine ⟨fun u _ => nodup_children h, ih.imp fun {u v} hne x hu hv => ?_⟩
    obtain ⟨-, c, rfl⟩ := (mem_children h).mp hu
    obtain ⟨-, d, heq⟩ := (mem_children h).mp hv
    exact hne (List.append_inj' heq rfl).1

theorem mem_order {levels : Nat} :
    u ∈ order t.children [[]] levels ↔ Node keywords u ∧ u.length < levels := by
  simp only [order, List.mem_flatMap, List.mem_range, mem_level h]
  constructor
  · rintro ⟨d, hd, hu, rfl⟩
    exact ⟨hu, hd⟩
  · rintro ⟨hu, hlt⟩
    exact ⟨u.length, hlt, hu, rfl⟩

theorem nodup_order {levels : Nat} : (order t.children [[]] levels).Nodup := by
  rw [order, List.nodup_flatMap]
  refine ⟨fun d _ => nodup_level h, List.nodup_range.imp fun {d e} hne x hd he => hne ?_⟩
  rw [← ((mem_level h).mp hd).2, ((mem_level h).mp he).2]

/-- A state is taken before the longer ones. -/
theorem pairwise_order {levels : Nat} :
    (order t.children [[]] levels).Pairwise fun u v => u.length ≤ v.length := by
  rw [order, List.pairwise_flatMap]
  refine ⟨fun d _ => ?_, List.pairwise_lt_range.imp fun {d e} hlt u hu v hv => ?_⟩
  · refine List.pairwise_of_forall_mem_list fun u hu v hv => ?_
    rw [((mem_level h).mp hu).2, ((mem_level h).mp hv).2]
  · rw [((mem_level h).mp hu).2, ((mem_level h).mp hv).2]
    exact hlt.le

omit h in
/-- The letters of the keywords and one for each. -/
def letters (keywords : List Text) : Nat := (keywords.map fun k => k.length + 1).sum

omit h in
theorem length_lt_letters (hu : Node keywords u) : u.length < letters keywords + 1 := by
  rcases hu with rfl | ⟨k, hk, hpre⟩
  · exact Nat.succ_pos _
  · have hle := hpre.length_le
    rw [List.length_map] at hle
    have hsum := List.le_sum_of_mem (List.mem_map_of_mem (f := fun k : Text => k.length + 1) hk)
    rw [← letters] at hsum
    omega

theorem mem_order_iff : u ∈ order t.children [[]] (letters keywords + 1) ↔ Node keywords u := by
  rw [mem_order h]
  exact ⟨And.left, fun hu => ⟨hu, length_lt_letters hu⟩⟩

theorem level_end : level t.children [[]] (letters keywords + 1) = [] := by
  apply List.eq_nil_iff_forall_not_mem.mpr
  intro u hu
  obtain ⟨hnode, hlength⟩ := (mem_level h).mp hu
  have := length_lt_letters hnode
  omega

theorem length_order_le :
    (order t.children [[]] (letters keywords + 1)).length ≤ letters keywords + 1 := by
  have hsubset : order t.children [[]] (letters keywords + 1) ⊆
      [] :: keywords.flatMap fun k => (k.map lower).inits := by
    intro u hu
    rcases (mem_order_iff h).mp hu with rfl | ⟨k, hk, hpre⟩
    · exact List.mem_cons_self
    · exact List.mem_cons_of_mem _ (List.mem_flatMap.mpr ⟨k, hk, (List.mem_inits _ _).mpr hpre⟩)
  refine (List.subperm_of_subset (nodup_order h) hsubset).length_le.trans (Nat.le_of_eq ?_)
  rw [List.length_cons, List.length_flatMap, letters]
  simp

end Levels

end Dexllm.AhoCorasick
