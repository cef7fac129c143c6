import Dexllm.Search.Prefilter

/-!
The plan of a matcher lets every method through that the matcher accepts.
-/

namespace Dexllm

open AhoCorasick

theorem normalizeStringMatcherValue_eq (value : Text) (matchType : StringMatchType)
    (ignoreCase : Bool) :
    normalizeStringMatcherValue value matchType ignoreCase =
      keywordOf value matchType ignoreCase := by
  unfold normalizeStringMatcherValue keywordOf
  by_cases hregex : matchType = .similarRegex
  · rw [if_neg (not_not.mpr hregex), if_pos hregex]
    cases value with
    | nil => rfl
    | cons front tail =>
      by_cases hstarts : front = 0x5e
      · subst hstarts
        cases tail with
        | nil => rfl
        | cons c tail =>
          by_cases hends : (c :: tail).getLast? = some 0x24
          · simp [hends]
          · simp [hends]
      · by_cases hends : (front :: tail).getLast? = some 0x24
        · simp [hstarts, hends]
        · simp [hstarts, hends]
  · rw [if_pos hregex, if_neg hregex]

/-- The keyword of a matcher is an atom with this bit. -/
def AtomBit (atoms : List Keyword) (matchers : List StringMatcher) (i : Nat) : Prop :=
  ∃ m ∈ matchers, ∃ value, m.value = some value ∧
    atoms[i]? = some (keywordOf value m.matchType m.ignoreCase)

section Build

variable {plan : PrefilterAtoms} {matchers : List StringMatcher} {i : Nat}

theorem AtomBit.mono {atoms atoms' : List Keyword} {matchers' : List StringMatcher}
    (h : AtomBit atoms matchers i) (hatoms : atoms <+: atoms') (hsub : matchers ⊆ matchers') :
    AtomBit atoms' matchers' i := by
  obtain ⟨m, hm, value, hvalue, hatom⟩ := h
  refine ⟨m, hsub hm, value, hvalue, ?_⟩
  obtain ⟨rest, rfl⟩ := hatoms
  rw [List.getElem?_append_left (List.getElem?_eq_some_iff.mp hatom).1, hatom]

theorem PrefilterAtoms.Valid.tryAdd (h : plan.Valid) (m : StringMatcher) :
    (plan.tryAdd m).1.Valid ∧ plan.atoms <+: (plan.tryAdd m).1.atoms ∧
      ∀ i, (plan.tryAdd m).2.testBit i = true → AtomBit (plan.tryAdd m).1.atoms [m] i := by
  unfold PrefilterAtoms.tryAdd
  cases hvalue : m.value with
  | none => exact ⟨h, List.prefix_rfl, by simp⟩
  | some value =>
    simp only [normalizeStringMatcherValue_eq]
    obtain ⟨atom, hatom⟩ : ∃ atom, keywordOf value m.matchType m.ignoreCase = atom := ⟨_, rfl⟩
    rw [hatom]
    have hatBit {atoms : List Keyword} {i : Nat} (hi : atoms[i]? = some atom) :
        AtomBit atoms [m] i :=
      ⟨m, List.mem_singleton_self m, value, hvalue, hi.trans (congrArg some hatom.symm)⟩
    split
    · exact ⟨h, List.prefix_rfl, by simp⟩
    next hkind =>
      split
      next hmem =>
        refine ⟨h, List.prefix_rfl, fun i hi => hatBit ?_⟩
        rw [Nat.testBit_two_pow, decide_eq_true_eq] at hi
        rw [← hi, List.getElem?_eq_getElem (List.idxOf_lt_length_of_mem hmem)]
        exact congrArg some (List.getElem_idxOf _)
      next hnew =>
        split
        · exact ⟨h, List.prefix_rfl, by simp⟩
        next hroom =>
          have hlast (i : Nat) (found : Keyword) : (plan.atoms ++ [atom])[i]? = some found ↔
              plan.atoms[i]? = some found ∨ i = plan.atoms.length ∧ found = atom := by
            rw [List.getElem?_append]
            split
            next hlt => exact ⟨.inl, fun h => h.resolve_right (by omega)⟩
            next hge =>
              rw [List.getElem?_eq_none (Nat.le_of_not_lt hge), List.getElem?_singleton]
              constructor
              · intro hfound
                split at hfound
                next heq => exact .inr ⟨by omega, (Option.some.inj hfound).symm⟩
                next => cases hfound
              · rintro (hfound | ⟨rfl, rfl⟩)
                · cases hfound
                · rw [Nat.sub_self, if_pos rfl]
          refine ⟨⟨?_, ?_, ?_, fun i => ?_⟩, List.prefix_append _ _, fun i hi => hatBit ?_⟩
          · simp only [List.length_append, List.length_singleton]
            omega
          · intro found hfound
            rcases List.mem_append.mp hfound with hfound | hfound
            · exact h.types found hfound
            · rw [List.mem_singleton.mp hfound, ← hatom]
              exact matchType_keywordOf value m.matchType m.ignoreCase
          · intro found hfound hnil
            rcases List.mem_append.mp hfound with hfound | hfound
            · exact h.equal found hfound hnil
            · rw [List.mem_singleton.mp hfound] at hnil ⊢
              exact not_not.mp fun hne => hkind ⟨hnil, hne⟩
          · simp only [hlast]
            split
            next hnil =>
              rw [Nat.testBit_or, Bool.or_eq_true, h.mask, Nat.testBit_two_pow, decide_eq_true_eq]
              constructor
              · rintro (⟨found, hfound, hempty⟩ | rfl)
                · exact ⟨found, .inl hfound, hempty⟩
                · exact ⟨atom, .inr ⟨rfl, rfl⟩, hnil⟩
              · rintro ⟨found, hfound | ⟨rfl, rfl⟩, hempty⟩
                · exact .inl ⟨found, hfound, hempty⟩
                · exact .inr rfl
            next hne =>
              rw [h.mask]
              constructor
              · rintro ⟨found, hfound, hempty⟩
                exact ⟨found, .inl hfound, hempty⟩
              · rintro ⟨found, hfound | ⟨-, rfl⟩, hempty⟩
                · exact ⟨found, hfound, hempty⟩
                · exact absurd hempty hne
          · rw [Nat.testBit_two_pow, decide_eq_true_eq] at hi
            exact (hlast i atom).mpr (.inr ⟨hi.symm, rfl⟩)

theorem PrefilterAtoms.Valid.buildMask (h : plan.Valid) (matchers : List StringMatcher)
    (mask : Nat) :
    (plan.buildMask matchers mask).1.Valid ∧
      plan.atoms <+: (plan.buildMask matchers mask).1.atoms ∧
      ∀ i, (plan.buildMask matchers mask).2.testBit i = true → mask.testBit i = true ∨
        AtomBit (plan.buildMask matchers mask).1.atoms matchers i := by
  induction matchers generalizing plan mask with
  | nil => exact ⟨h, List.prefix_rfl, fun i hi => .inl hi⟩
  | cons m matchers ih =>
    obtain ⟨hvalid, hpre, hbit⟩ := h.tryAdd m
    obtain ⟨hvalid', hpre', hmask⟩ := ih hvalid (mask ||| (plan.tryAdd m).2)
    rw [PrefilterAtoms.buildMask]
    refine ⟨hvalid', hpre.trans hpre', fun i hi => ?_⟩
    rcases hmask i hi with hi | hi
    · rw [Nat.testBit_or, Bool.or_eq_true] at hi
      refine hi.imp_right fun hi => (hbit i hi).mono hpre' fun m' hm' => ?_
      rw [List.mem_singleton.mp hm']
      exact List.mem_cons_self
    · exact .inr (hi.mono List.prefix_rfl (List.subset_cons_self m matchers))

end Build

section Sound

variable {α : Type} (othersMatched : α → Bool)
  (usingStringsMatched : Option (List StringMatcher) → Option Bool) (strings : List Text)

/-- The bits of the atoms that some string matches are set. -/
def Covers (atoms : List Keyword) (bits : Nat) : Prop :=
  ∀ (i : Nat) atom, atoms[i]? = some atom → (∃ str ∈ strings, atom.Matches str) →
    bits.testBit i = true

theorem Covers.of_prefix {strings : List Text} {atoms atoms' : List Keyword} {bits : Nat}
    (h : Covers strings atoms' bits) (hpre : atoms <+: atoms') : Covers strings atoms bits := by
  intro i atom hatom hstr
  obtain ⟨rest, rfl⟩ := hpre
  refine h i atom ?_ hstr
  rw [List.getElem?_append_left (List.getElem?_eq_some_iff.mp hatom).1, hatom]

/-- The condition on the strings of a matcher finds a string for each of its values. -/
def Answers (usingStrings : Option (List StringMatcher)) : Prop :=
  usingStringsMatched usingStrings = some true → ∀ m ∈ usingStrings.getD [], ∀ value,
    m.value = some value → ∃ str ∈ strings, (keywordOf value m.matchType m.ignoreCase).Matches str

mutual

/-- All of the conditions on strings that the plan uses have a property. -/
def MethodMatcher.Each (P : Option (List StringMatcher) → Prop) : MethodMatcher α → Prop
  | .mk _ usingStrings allOf anyOf _ =>
    P usingStrings ∧ MethodMatcher.EachOf P allOf ∧ MethodMatcher.EachOf P anyOf

def MethodMatcher.EachOf (P : Option (List StringMatcher) → Prop) :
    List (MethodMatcher α) → Prop
  | [] => True
  | m :: ms => m.Each P ∧ MethodMatcher.EachOf P ms

end

variable {othersMatched usingStringsMatched strings}

theorem matchAllOf_eq_true {ms : List (MethodMatcher α)}
    (h : matchAllOf othersMatched usingStringsMatched ms = some true) :
    ∀ m ∈ ms, isMethodMatched othersMatched usingStringsMatched m = some true := by
  induction ms with
  | nil => simp
  | cons m ms ih =>
    rw [matchAllOf] at h
    obtain ⟨matched, hm, h⟩ := Option.bind_eq_some_iff.mp h
    cases matched with
    | true => exact List.forall_mem_cons.mpr ⟨hm, ih h⟩
    | false => cases h

theorem matchAnyOf_eq_true {ms : List (MethodMatcher α)} (hne : ms ≠ [])
    (h : matchAnyOf othersMatched usingStringsMatched ms = some true) :
    ∃ m ∈ ms, isMethodMatched othersMatched usingStringsMatched m = some true := by
  induction ms with
  | nil => exact absurd rfl hne
  | cons m ms ih =>
    rw [matchAnyOf] at h
    obtain ⟨matched, hm, h⟩ := Option.bind_eq_some_iff.mp h
    cases matched with
    | true => exact ⟨m, List.mem_cons_self, hm⟩
    | false =>
      cases ms with
      | nil => cases h
      | cons m' ms =>
        obtain ⟨found, hfound, hmatched⟩ := ih (List.cons_ne_nil m' ms) h
        exact ⟨found, List.mem_cons_of_mem _ hfound, hmatched⟩

theorem isMethodMatched_eq_true {others : α} {usingStrings : Option (List StringMatcher)}
    {allOf anyOf noneOf : List (MethodMatcher α)}
    (h : isMethodMatched othersMatched usingStringsMatched
      (.mk others usingStrings allOf anyOf noneOf) = some true) :
    usingStringsMatched usingStrings = some true ∧
      matchAllOf othersMatched usingStringsMatched allOf = some true ∧
      matchAnyOf othersMatched usingStringsMatched anyOf = some true := by
  rw [isMethodMatched] at h
  cases hothers : othersMatched others with
  | false =>
    rw [hothers] at h
    cases h
  | true =>
    rw [hothers] at h
    obtain ⟨answer, hstrings, h⟩ := Option.bind_eq_some_iff.mp h
    cases answer with
    | false => cases h
    | true =>
      obtain ⟨answer, hall, h⟩ := Option.bind_eq_some_iff.mp h
      cases answer with
      | false => cases h
      | true =>
        obtain ⟨answer, hany, h⟩ := Option.bind_eq_some_iff.mp h
        cases answer with
        | false => cases h
        | true => exact ⟨hstrings, hall, hany⟩

theorem evaluateAll_iff {bits : Nat} {nodes : List PrefilterNode} :
    PrefilterNode.evaluateAll bits nodes = true ↔ ∀ node ∈ nodes, node.evaluate bits = true := by
  induction nodes with
  | nil => simp [PrefilterNode.evaluateAll]
  | cons node nodes ih => rw [PrefilterNode.evaluateAll, Bool.and_eq_true, ih, List.forall_mem_cons]

theorem evaluateAny_iff {bits : Nat} {nodes : List PrefilterNode} :
    PrefilterNode.evaluateAny bits nodes = true ↔ ∃ node ∈ nodes, node.evaluate bits = true := by
  induction nodes with
  | nil => simp [PrefilterNode.evaluateAny]
  | cons node nodes ih =>
    rw [PrefilterNode.evaluateAny, Bool.or_eq_true, ih, List.exists_mem_cons_iff]

theorem evaluate_conjunction {bits : Nat} {conjuncts : List PrefilterNode} {node : PrefilterNode}
    (h : conjunction conjuncts = some node) (hall : ∀ c ∈ conjuncts, c.evaluate bits = true) :
    node.evaluate bits = true := by
  unfold conjunction at h
  split at h
  · cases h
  · obtain rfl := Option.some.inj h
    exact hall _ (List.mem_singleton_self _)
  · obtain rfl := Option.some.inj h
    rw [PrefilterNode.evaluate, evaluateAll_iff]
    exact hall

theorem evaluate_disjunction {bits : Nat} {disjuncts : List PrefilterNode}
    (hany : disjuncts ≠ [] → ∃ d ∈ disjuncts, d.evaluate bits = true) :
    ∀ node ∈ disjunction disjuncts, node.evaluate bits = true := by
  unfold disjunction
  split
  · simp
  · rw [List.forall_mem_singleton]
    obtain ⟨d, hd, heval⟩ := hany (List.cons_ne_nil _ _)
    rwa [List.mem_singleton.mp hd] at heval
  next hne _ =>
    rw [List.forall_mem_singleton, PrefilterNode.evaluate, evaluateAny_iff]
    exact hany hne

/-- What the plan of a matcher keeps of the atoms before, and that its node is true where
the matcher is. -/
def NodeSound (othersMatched : α → Bool)
    (usingStringsMatched : Option (List StringMatcher) → Option Bool) (strings : List Text)
    (m : MethodMatcher α) : Prop :=
  ∀ plan : PrefilterAtoms, plan.Valid → m.Each (Answers usingStringsMatched strings) →
    (plan.buildNode m).1.Valid ∧ plan.atoms <+: (plan.buildNode m).1.atoms ∧
    ∀ node, (plan.buildNode m).2 = some node →
      isMethodMatched othersMatched usingStringsMatched m = some true →
      ∀ bits, Covers strings (plan.buildNode m).1.atoms bits → node.evaluate bits = true

theorem buildAll_spec {ms : List (MethodMatcher α)}
    (hsound : ∀ m ∈ ms, NodeSound othersMatched usingStringsMatched strings m)
    {plan : PrefilterAtoms} (hvalid : plan.Valid)
    (heach : MethodMatcher.EachOf (Answers usingStringsMatched strings) ms) :
    (plan.buildAll ms).1.Valid ∧ plan.atoms <+: (plan.buildAll ms).1.atoms ∧
    ((∀ m ∈ ms, isMethodMatched othersMatched usingStringsMatched m = some true) →
      ∀ bits, Covers strings (plan.buildAll ms).1.atoms bits →
        ∀ node ∈ (plan.buildAll ms).2, node.evaluate bits = true) := by
  induction ms generalizing plan with
  | nil =>
    rw [PrefilterAtoms.buildAll]
    exact ⟨hvalid, List.prefix_rfl, by simp⟩
  | cons m ms ih =>
    rw [MethodMatcher.EachOf] at heach
    obtain ⟨hvalid₁, hpre₁, hnode⟩ := hsound m List.mem_cons_self plan hvalid heach.1
    obtain ⟨hvalid₂, hpre₂, hnodes⟩ :=
      ih (fun m hm => hsound m (List.mem_cons_of_mem _ hm)) hvalid₁ heach.2
    rw [PrefilterAtoms.buildAll]
    refine ⟨hvalid₂, hpre₁.trans hpre₂, fun hmatched bits hcovers node hmem => ?_⟩
    obtain ⟨hm, hms⟩ := List.forall_mem_cons.mp hmatched
    rcases List.mem_append.mp hmem with hmem | hmem
    · exact hnode node (Option.mem_toList.mp hmem) hm bits (hcovers.of_prefix hpre₂)
    · exact hnodes hms bits hcovers node hmem

theorem buildAny_spec {ms : List (MethodMatcher α)}
    (hsound : ∀ m ∈ ms, NodeSound othersMatched usingStringsMatched strings m)
    {plan : PrefilterAtoms} (hvalid : plan.Valid)
    (heach : MethodMatcher.EachOf (Answers usingStringsMatched strings) ms) :
    (plan.buildAny ms).1.Valid ∧ plan.atoms <+: (plan.buildAny ms).1.atoms ∧
    ∀ nodes, (plan.buildAny ms).2 = some nodes → (ms = [] → nodes = []) ∧
      ((∃ m ∈ ms, isMethodMatched othersMatched usingStringsMatched m = some true) →
        ∀ bits, Covers strings (plan.buildAny ms).1.atoms bits →
          ∃ node ∈ nodes, node.evaluate bits = true) := by
  induction ms generalizing plan with
  | nil =>
    rw [PrefilterAtoms.buildAny]
    refine ⟨hvalid, List.prefix_rfl, fun nodes hnodes => ?_⟩
    obtain rfl := Option.some.inj hnodes
    exact ⟨fun _ => rfl, by simp⟩
  | cons m ms ih =>
    rw [MethodMatcher.EachOf] at heach
    obtain ⟨hvalid₁, hpre₁, hnode⟩ := hsound m List.mem_cons_self plan hvalid heach.1
    rw [PrefilterAtoms.buildAny]
    cases hbuild : plan.buildNode m with
    | mk plan₁ child =>
      rw [hbuild] at hvalid₁ hpre₁ hnode
      cases child with
      | none => exact ⟨hvalid₁, hpre₁, fun nodes hnodes => by cases hnodes⟩
      | some child =>
        obtain ⟨hvalid₂, hpre₂, hnodes⟩ :=
          ih (fun m hm => hsound m (List.mem_cons_of_mem _ hm)) hvalid₁ heach.2
        refine ⟨hvalid₂, hpre₁.trans hpre₂, fun nodes hsome => ⟨fun hnil => ?_, ?_⟩⟩
        · cases hnil
        · obtain ⟨rest, hrest, rfl⟩ := Option.map_eq_some_iff.mp hsome
          rintro ⟨m', hm', hmatched⟩ bits hcovers
          rcases List.mem_cons.mp hm' with rfl | hm'
          · exact ⟨child, List.mem_cons_self,
              hnode child rfl hmatched bits (hcovers.of_prefix hpre₂)⟩
          · obtain ⟨node, hmem, heval⟩ :=
              (hnodes rest hrest).2 ⟨m', hm', hmatched⟩ bits hcovers
            exact ⟨node, List.mem_cons_of_mem _ hmem, heval⟩

theorem node_sound (m : MethodMatcher α) :
    NodeSound othersMatched usingStringsMatched strings m := by
  induction m using MethodMatcher.induct with
  | mk others usingStrings allOf anyOf noneOf hallSound hanySound =>
    intro plan hvalid heach
    rw [MethodMatcher.Each] at heach
    obtain ⟨hanswers, heachAll, heachAny⟩ := heach
    obtain ⟨hvalid₁, hpre₁, hmask⟩ := hvalid.buildMask (usingStrings.getD []) 0
    obtain ⟨hvalid₂, hpre₂, hchildren⟩ := buildAll_spec hallSound hvalid₁ heachAll
    obtain ⟨hvalid₃, hpre₃, hdisjuncts⟩ := buildAny_spec hanySound hvalid₂ heachAny
    rw [PrefilterAtoms.buildNode]
    refine ⟨hvalid₃, (hpre₁.trans hpre₂).trans hpre₃, fun node hnode hmatched bits
      hcovers => ?_⟩
    obtain ⟨hstrings, hall, hany⟩ := isMethodMatched_eq_true hmatched
    refine evaluate_conjunction hnode fun c hc => ?_
    rcases List.mem_append.mp hc with hc | hc
    · rcases List.mem_append.mp hc with hc | hc
      · split at hc
        · obtain rfl := List.mem_singleton.mp hc
          rw [PrefilterNode.evaluate, decide_eq_true_eq]
          apply Nat.eq_of_testBit_eq
          intro i
          rw [Nat.testBit_and]
          cases hbit : (plan.buildMask (usingStrings.getD []) 0).2.testBit i with
          | false => exact Bool.and_false _
          | true =>
            obtain ⟨m, hm, value, hvalue, hatom⟩ := (hmask i hbit).resolve_left (by simp)
            rw [Bool.and_true]
            exact (hcovers.of_prefix (hpre₂.trans hpre₃)) i _ hatom
              (hanswers hstrings m hm value hvalue)
        · cases hc
      · exact hchildren (matchAllOf_eq_true hall) bits (hcovers.of_prefix hpre₃) c hc
    · refine evaluate_disjunction (fun hne => ?_) c hc
      cases hsome : (PrefilterAtoms.buildAny
          ((plan.buildMask (usingStrings.getD []) 0).1.buildAll allOf).1 anyOf).2 with
      | none =>
        rw [hsome] at hne
        exact absurd rfl hne
      | some nodes =>
        rw [hsome] at hne
        obtain ⟨hnil, hnodes⟩ := hdisjuncts nodes hsome
        exact hnodes (matchAnyOf_eq_true (fun h => hne (hnil h)) hany) bits hcovers

end Sound

section Leaves

variable {g : Growth} {table : List Text} {emptyStringId : Nat} {ids : List Nat}
  {usingStrings : List Text} {matchers : List StringMatcher}

theorem anyStringMatched_eq_true {m : StringMatcher}
    (h : anyStringMatched m usingStrings = some true) :
    ∃ str ∈ usingStrings, isStringMatchedAtomic str m = some true := by
  induction usingStrings with
  | nil => cases h
  | cons str usingStrings ih =>
    obtain ⟨matched, hstr, h⟩ := Option.bind_eq_some_iff.mp h
    cases matched with
    | true => exact ⟨str, List.mem_cons_self, hstr⟩
    | false => exact List.exists_mem_cons_of_exists (ih h)

/-- The loops find a string for every value, also beside matchers without one. -/
theorem matchUsingStringGroup_eq_true
    (h : matchUsingStringGroup usingStrings matchers = some true) :
    ∀ m ∈ matchers, ∀ value, m.value = some value →
      ∃ str ∈ usingStrings, (keywordOf value m.matchType m.ignoreCase).Matches str := by
  induction matchers with
  | nil => simp
  | cons m matchers ih =>
    obtain ⟨matched, hm, h⟩ := Option.bind_eq_some_iff.mp h
    cases matched with
    | false => cases h
    | true =>
      refine List.forall_mem_cons.mpr ⟨fun value hvalue => ?_, ih h⟩
      obtain ⟨str, hstr, hmatched⟩ := anyStringMatched_eq_true hm
      exact ⟨str, hstr, (isStringMatchedAtomic_spec hvalue hmatched).mp rfl⟩

/-- A set of matched values stands behind the check of the empty keyword. -/
theorem equal_of_searchSet {trie : DoubleArrayTrie}
    {matchTypeMap : Text → Option StringMatchType} {set : List Text} {type : StringMatchType}
    (h : searchSet trie matchTypeMap table emptyStringId ids = some set)
    (htype : matchTypeMap [] = some type) : type = .equal := by
  obtain ⟨found, -, h⟩ := Option.bind_eq_some_iff.mp h
  rw [htype] at h
  cases type with
  | equal => rfl
  | contains => cases h
  | startWith => cases h
  | endWith => cases h
  | similarRegex => cases h

/-- The keywords of one value are the same. -/
def SameKeywords (usingStrings : Option (List StringMatcher)) : Prop :=
  ∀ matchers, usingStrings = some matchers →
    ∀ k ∈ matchers.filterMap StringMatcher.keyword?,
      ∀ k' ∈ matchers.filterMap StringMatcher.keyword?, k.value = k'.value → k = k'

theorem answers_of_same (hrange : ∀ idx ∈ ids, idx < table.length)
    (hempty : ∀ idx ∈ ids, table[idx]? = some [] ↔ idx = emptyStringId)
    (husing : ids.mapM (table[·]?) = some usingStrings)
    {condition : Option (List StringMatcher)} (hsame : SameKeywords condition) :
    Answers (isMethodUsingStringsMatched g table emptyStringId ids) usingStrings condition := by
  intro hmatched
  cases condition with
  | none => simp
  | some matchers =>
    rw [Option.getD_some]
    by_cases hvalues : matchers.all (·.value.isSome) = true
    · rw [isMethodUsingStringsMatched, if_pos hvalues] at hmatched
      have hsame := hsame matchers rfl
      have hcache := cached_keywordCache (matchers.filterMap StringMatcher.keyword?)
      obtain ⟨trie, -, hrun⟩ := Option.bind_eq_some_iff.mp hmatched
      obtain ⟨set, hset, -⟩ := Option.bind_eq_some_iff.mp hrun
      have hadmitted : Admitted table emptyStringId ids
          (matchers.filterMap StringMatcher.keyword?) := by
        refine ⟨fun k hk => ?_, fun k hk hnil => ?_, hrange, hempty⟩
        · obtain ⟨m, -, value, -, rfl⟩ := mem_keywords.mp hk
          exact matchType_keywordOf value m.matchType m.ignoreCase
        · obtain ⟨type, htype⟩ := hcache.known k hk
          obtain ⟨k', hk', hvalue, rfl⟩ := hcache.types _ _ htype
          obtain rfl := hsame k' hk' k hk hvalue
          exact equal_of_searchSet hset (hnil ▸ htype)
      obtain ⟨answer, hanswer, hiff⟩ := keywordsMatched_spec g hadmitted
      obtain rfl := Option.some.inj (hmatched.symm.trans hanswer)
      intro m hm value hvalue
      have hk := mem_keywords.mpr ⟨m, hm, value, hvalue, rfl⟩
      obtain ⟨idx, hidx, str, hstr, hmerged⟩ := hiff.mp rfl _ hk
      exact ⟨str, (mem_of_mapM husing).mpr ⟨idx, hidx, hstr⟩, (merged_iff hsame hk).mp hmerged⟩
    · rw [isMethodUsingStringsMatched, if_neg hvalues, husing] at hmatched
      exact matchUsingStringGroup_eq_true hmatched

end Leaves

theorem MethodMatcher.each_mono {α : Type} {P Q : Option (List StringMatcher) → Prop}
    (h : ∀ us, P us → Q us) (m : MethodMatcher α) (hm : m.Each P) : m.Each Q := by
  have hof {ms : List (MethodMatcher α)} (hms : ∀ m ∈ ms, m.Each P → m.Each Q)
      (heach : MethodMatcher.EachOf P ms) : MethodMatcher.EachOf Q ms := by
    induction ms with
    | nil => exact trivial
    | cons m ms ih =>
      rw [MethodMatcher.EachOf] at heach ⊢
      exact ⟨hms m List.mem_cons_self heach.1,
        ih (fun m hm => hms m (List.mem_cons_of_mem _ hm)) heach.2⟩
  induction m using MethodMatcher.induct with
  | mk others usingStrings allOf anyOf noneOf hall hany =>
    rw [MethodMatcher.Each] at hm ⊢
    exact ⟨h _ hm.1, hof hall hm.2.1, hof hany hm.2.2⟩

theorem exists_prefilterTrie (g : Growth) (atoms : List Keyword) (ignoreCase : Bool) :
    ∃ trie, prefilterTrie g atoms ignoreCase = some trie := by
  unfold prefilterTrie
  split
  · exact ⟨none, rfl⟩
  · obtain ⟨trie, hbuild, -⟩ := exists_build g (prefilterKeywords atoms ignoreCase)
    rw [hbuild]
    exact ⟨some trie, rfl⟩

/-- A plan is made of every matcher and has an answer for all strings. It lets every
method through that the matcher accepts, where the matchers of one value in one
condition are the same: a condition with the value once with and once without its case
accepts what its atoms refuse. -/
theorem prefilter_keeps_matches (g : Growth) {table : List Text} {emptyStringId : Nat}
    {ids : List Nat} {usingStrings : List Text} (hrange : ∀ idx ∈ ids, idx < table.length)
    (hempty : ∀ idx ∈ ids, table[idx]? = some [] ↔ idx = emptyStringId)
    (husing : ids.mapM (table[·]?) = some usingStrings) {α : Type} (othersMatched : α → Bool)
    (matcher : MethodMatcher α) (hsame : matcher.Each SameKeywords) :
    ∃ enabled, buildPrefilterPlan g matcher = some enabled ∧ ∀ plan, enabled = some plan →
      ∃ answer, plan.mayMatch usingStrings = some answer ∧
        (isMethodMatched othersMatched (isMethodUsingStringsMatched g table emptyStringId ids)
          matcher = some true → answer = true) := by
  have hvalid : PrefilterAtoms.Valid {} := ⟨Nat.zero_le _, by simp, by simp, by simp⟩
  have hsound : NodeSound othersMatched
      (isMethodUsingStringsMatched g table emptyStringId ids) usingStrings matcher :=
    node_sound matcher
  obtain ⟨hvalid', -, hnode⟩ := hsound {} hvalid
    (matcher.each_mono (fun us hus => answers_of_same hrange hempty husing hus) hsame)
  obtain ⟨sensitive, hsensitive⟩ :=
    exists_prefilterTrie g (PrefilterAtoms.buildNode {} matcher).1.atoms false
  obtain ⟨ignore, hignore⟩ :=
    exists_prefilterTrie g (PrefilterAtoms.buildNode {} matcher).1.atoms true
  cases hroot : (PrefilterAtoms.buildNode {} matcher).2 with
  | none =>
    refine ⟨none, ?_, fun plan hplan => by cases hplan⟩
    simp only [buildPrefilterPlan, hroot]
    rfl
  | some root =>
    by_cases hmask : (PrefilterAtoms.buildNode {} matcher).1.allAtomMask = 0
    · refine ⟨none, ?_, fun plan hplan => by cases hplan⟩
      simp only [buildPrefilterPlan, hroot, hmask, if_true]
      rfl
    · refine ⟨some ⟨(PrefilterAtoms.buildNode {} matcher).1.atoms,
        (PrefilterAtoms.buildNode {} matcher).1.emptyEqualAtomMask, root, sensitive, ignore⟩,
        ?_, fun plan hplan => ?_⟩
      · simp only [buildPrefilterPlan, hroot, hmask, if_false, hsensitive, hignore,
          Option.bind_eq_bind, Option.bind_some]
        rfl
      · obtain rfl := Option.some.inj hplan
        obtain ⟨all, hall⟩ : ∃ all : Nat, ∀ i, all.testBit i = true ↔
            ∃ atom, (PrefilterAtoms.buildNode {} matcher).1.atoms[i]? = some atom ∧
              ∃ str ∈ usingStrings, atom.Matches str := by
          classical
          refine ⟨_, fun i => (testBit_foldl_or (fun i => decide (∃ atom,
            (PrefilterAtoms.buildNode {} matcher).1.atoms[i]? = some atom ∧
              ∃ str ∈ usingStrings, atom.Matches str))
            (PrefilterAtoms.buildNode {} matcher).1.atoms.length i).trans ?_⟩
          rw [decide_eq_true_eq]
          refine ⟨And.right, fun h => ⟨?_, h⟩⟩
          obtain ⟨atom, hatom, -⟩ := h
          exact (List.getElem?_eq_some_iff.mp hatom).1
        refine ⟨root.evaluate all, ?_, fun hmatched => ?_⟩
        · have hseen : false = true ↔ [] ∈ ([] : List Text) := by simp
          exact mayMatchFrom_spec hvalid'.length hvalid'.types hvalid'.equal hvalid'.mask
            hsensitive hignore (by simp) hseen hall
        · exact hnode root hroot hmatched all fun i atom hatom hstr =>
            (hall i).mpr ⟨atom, hatom, hstr⟩

theorem prefilter_keeps_matches_login :
    ∃ enabled, buildPrefilterPlan Growth.exact
        (.mk () none [] [.mk () (some [⟨some [108, 111, 103], .contains, true⟩]) [] [] []] []) =
          some enabled ∧
      ∀ plan, enabled = some plan → ∃ answer,
        plan.mayMatch [[76, 111, 103], [108, 111, 103, 105, 110]] = some answer ∧
          (isMethodMatched (fun _ => true) (isMethodUsingStringsMatched Growth.exact
            [[], [76, 111, 103], [108, 111, 103, 105, 110]] 0 [1, 2])
            (.mk () none [] [.mk () (some [⟨some [108, 111, 103], .contains, true⟩]) [] [] []] [])
              = some true → answer = true) :=
  prefilter_keeps_matches Growth.exact (by decide) (by decide) (by decide) (fun _ => true) _
    (by simp [MethodMatcher.Each, MethodMatcher.EachOf, SameKeywords, StringMatcher.keyword?])

end Dexllm
