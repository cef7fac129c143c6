import Dexllm.Search.KeywordPath

/-!
Before a matcher with logical groups is tried on a method, a plan made of its string
matchers says from the strings of the method whether it may match at all.
-/

namespace Dexllm

open AhoCorasick

/-- A `MethodMatcher`: `others` are its conditions that are not about strings. -/
inductive MethodMatcher (α : Type) where
  | mk (others : α) (usingStrings : Option (List StringMatcher))
    (allOf anyOf noneOf : List (MethodMatcher α))

/-- Induction on a matcher and the matchers of its groups. -/
theorem MethodMatcher.induct {α : Type} {motive : MethodMatcher α → Prop}
    (mk : ∀ others usingStrings allOf anyOf noneOf, (∀ m ∈ allOf, motive m) →
      (∀ m ∈ anyOf, motive m) → motive (.mk others usingStrings allOf anyOf noneOf))
    (m : MethodMatcher α) : motive m :=
  @MethodMatcher.rec α motive (fun ms => ∀ m ∈ ms, motive m)
    (fun others usingStrings allOf anyOf noneOf hall hany _ =>
      mk others usingStrings allOf anyOf noneOf hall hany)
    (fun _ hm => absurd hm List.not_mem_nil)
    (fun _ _ hhead htail => List.forall_mem_cons.mpr ⟨hhead, htail⟩) m

section Matching

variable {α : Type} (othersMatched : α → Bool)
  (usingStringsMatched : Option (List StringMatcher) → Option Bool)

mutual

/-- `IsMethodMatched`; the other conditions come before and after the one on the
strings. -/
def isMethodMatched : MethodMatcher α → Option Bool
  | .mk others usingStrings allOf anyOf noneOf => do
    if !othersMatched others then return false
    if !(← usingStringsMatched usingStrings) then return false
    if !(← matchAllOf allOf) then return false
    if !(← matchAnyOf anyOf) then return false
    matchNoneOf noneOf

/-- `MatchAllOf`. -/
def matchAllOf : List (MethodMatcher α) → Option Bool
  | [] => some true
  | m :: ms => do
    if !(← isMethodMatched m) then return false
    matchAllOf ms

/-- `MatchAnyOf`: no matcher is no condition. -/
def matchAnyOf : List (MethodMatcher α) → Option Bool
  | [] => some true
  | m :: ms => do
    if ← isMethodMatched m then return true
    if ms.isEmpty then return false
    matchAnyOf ms

/-- `MatchNoneOf`. -/
def matchNoneOf : List (MethodMatcher α) → Option Bool
  | [] => some true
  | m :: ms => do
    if ← isMethodMatched m then return false
    matchNoneOf ms

end

end Matching

/-- `NormalizeStringMatcherValue`. -/
def normalizeStringMatcherValue (value : Text) (matchType : StringMatchType)
    (ignoreCase : Bool) : Keyword :=
  if matchType ≠ .similarRegex then ⟨value, matchType, ignoreCase⟩
  else
    let starts := value.head? = some 0x5e
    let value := if starts then value.drop 1 else value
    let matchType := if starts then StringMatchType.startWith else .contains
    if value.getLast? = some 0x24 then
      ⟨value.take (value.length - 1), if matchType = .startWith then .equal else .endWith,
        ignoreCase⟩
    else ⟨value, matchType, ignoreCase⟩

/-- A node of the plan; the source has its index in a vector. -/
inductive PrefilterNode where
  | group (groupMask : Nat)
  | allOf (children : List PrefilterNode)
  | anyOf (children : List PrefilterNode)

/-- The atoms of a plan: the bit of an atom is that of its position. -/
structure PrefilterAtoms where
  atoms : List Keyword := []
  allAtomMask : Nat := 0
  emptyEqualAtomMask : Nat := 0

/-- `TryAddPrefilterAtomBit`. -/
def PrefilterAtoms.tryAdd (plan : PrefilterAtoms) (matcher : StringMatcher) :
    PrefilterAtoms × Nat :=
  match matcher.value with
  | none => (plan, 0)
  | some value =>
    let atom := normalizeStringMatcherValue value matcher.matchType matcher.ignoreCase
    if atom.value = [] ∧ atom.matchType ≠ .equal then (plan, 0)
    else if atom ∈ plan.atoms then (plan, 2 ^ plan.atoms.idxOf atom)
    else if 64 ≤ plan.atoms.length then (plan, 0)
    else
      let bit := 2 ^ plan.atoms.length
      ({ atoms := plan.atoms ++ [atom]
         allAtomMask := plan.allAtomMask ||| bit
         emptyEqualAtomMask := if atom.value = [] then plan.emptyEqualAtomMask ||| bit
          else plan.emptyEqualAtomMask }, bit)

/-- `BuildUsingStringsPrefilterMask`. -/
def PrefilterAtoms.buildMask (plan : PrefilterAtoms) : List StringMatcher → (mask : Nat) →
    PrefilterAtoms × Nat
  | [], mask => (plan, mask)
  | matcher :: matchers, mask =>
    let (plan, bit) := plan.tryAdd matcher
    buildMask plan matchers (mask ||| bit)

/-- The node of the nodes of a conjunction. -/
def conjunction : List PrefilterNode → Option PrefilterNode
  | [] => none
  | [conjunct] => some conjunct
  | conjuncts => some (.allOf conjuncts)

/-- The node of the nodes of a disjunction, if there are any. -/
def disjunction : List PrefilterNode → List PrefilterNode
  | [] => []
  | [disjunct] => [disjunct]
  | disjuncts => [.anyOf disjuncts]

section Building

variable {α : Type}

mutual

/-- `BuildUsingStringsPrefilterNode`; no node is the index -1. -/
def PrefilterAtoms.buildNode (plan : PrefilterAtoms) :
    MethodMatcher α → PrefilterAtoms × Option PrefilterNode
  | .mk _ usingStrings allOf anyOf _ =>
    let (plan, localMask) := plan.buildMask (usingStrings.getD []) 0
    let conjuncts := if localMask ≠ 0 then [PrefilterNode.group localMask] else []
    let (plan, children) := plan.buildAll allOf
    let (plan, disjuncts) := plan.buildAny anyOf
    (plan, conjunction (conjuncts ++ children ++ disjunction (disjuncts.getD [])))

/-- The loop over `all_of`. -/
def PrefilterAtoms.buildAll (plan : PrefilterAtoms) :
    List (MethodMatcher α) → PrefilterAtoms × List PrefilterNode
  | [] => (plan, [])
  | m :: ms =>
    let (plan, child) := plan.buildNode m
    let (plan, children) := plan.buildAll ms
    (plan, child.toList ++ children)

/-- The loop over `any_of`; it has no result if a matcher has no node. -/
def PrefilterAtoms.buildAny (plan : PrefilterAtoms) :
    List (MethodMatcher α) → PrefilterAtoms × Option (List PrefilterNode)
  | [] => (plan, some [])
  | m :: ms =>
    match plan.buildNode m with
    | (plan, none) => (plan, none)
    | (plan, some child) =>
      let (plan, children) := plan.buildAny ms
      (plan, children.map (child :: ·))

end

end Building

mutual

/-- `EvaluateUsingStringsPrefilterNode`. -/
def PrefilterNode.evaluate (matchedBits : Nat) : PrefilterNode → Bool
  | .group groupMask => matchedBits &&& groupMask = groupMask
  | .allOf children => evaluateAll matchedBits children
  | .anyOf children => evaluateAny matchedBits children

def PrefilterNode.evaluateAll (matchedBits : Nat) : List PrefilterNode → Bool
  | [] => true
  | child :: children => child.evaluate matchedBits && evaluateAll matchedBits children

def PrefilterNode.evaluateAny (matchedBits : Nat) : List PrefilterNode → Bool
  | [] => false
  | child :: children => child.evaluate matchedBits || evaluateAny matchedBits children

end

/-- A plan with its tries; there is none for no keywords. -/
structure PrefilterPlan where
  atoms : List Keyword
  emptyEqualAtomMask : Nat
  root : PrefilterNode
  caseSensitiveTrie : Option DoubleArrayTrie
  ignoreCaseTrie : Option DoubleArrayTrie

/-- The keywords of a trie of the plan. -/
def prefilterKeywords (atoms : List Keyword) (ignoreCase : Bool) : List (Text × Bool) :=
  (atoms.filter fun atom => atom.value ≠ [] ∧ atom.ignoreCase = ignoreCase).map fun atom =>
    (atom.value, ignoreCase)

/-- Whether an atom is one of a keyword of a trie. -/
def Keyword.isAtomOf (ignoreCase : Bool) (keyword : Text) (atom : Keyword) : Bool :=
  atom.value ≠ [] ∧ atom.ignoreCase = ignoreCase ∧ atom.value = keyword

/-- The mask of a keyword of a trie. -/
def keywordMask (atoms : List Keyword) (ignoreCase : Bool) (keyword : Text) : Nat :=
  (List.range atoms.length).foldl (fun mask i =>
    if atoms[i]?.any (Keyword.isAtomOf ignoreCase keyword) then mask ||| 2 ^ i else mask) 0

/-- A trie of the plan. -/
def prefilterTrie (g : Growth) (atoms : List Keyword) (ignoreCase : Bool) :
    Option (Option DoubleArrayTrie) :=
  if prefilterKeywords atoms ignoreCase = [] then some none
  else do return some (← build g (prefilterKeywords atoms ignoreCase))

/-- `BuildUsingStringsPrefilterPlan` of a matcher with logical groups; the inner `none`
is a plan that is not enabled. -/
def buildPrefilterPlan {α : Type} (g : Growth) (matcher : MethodMatcher α) :
    Option (Option PrefilterPlan) := do
  let (plan, root) := PrefilterAtoms.buildNode {} matcher
  match root with
  | none => return none
  | some root =>
    if plan.allAtomMask = 0 then return none
    let caseSensitiveTrie ← prefilterTrie g plan.atoms false
    let ignoreCaseTrie ← prefilterTrie g plan.atoms true
    return some ⟨plan.atoms, plan.emptyEqualAtomMask, root, caseSensitiveTrie, ignoreCaseTrie⟩

/-- The loop over the remaining bits of a keyword, from the lowest on. -/
def matchBits (atoms : List Keyword) (str : Text) (hit : Hit) (remaining : Nat) :
    List Nat → (matchedBits : Nat) → Option Nat
  | [], matchedBits => some matchedBits
  | atomIndex :: bits, matchedBits => do
    if remaining.testBit atomIndex then
      let atom ← atoms[atomIndex]?
      let found ← hitMatched str hit atom.matchType
      matchBits atoms str hit remaining bits
        (if found then matchedBits ||| 2 ^ atomIndex else matchedBits)
    else matchBits atoms str hit remaining bits matchedBits

/-- The bits of a mask that are not matched yet. -/
def remainingBits (mask matchedBits : Nat) : Nat :=
  Nat.bitwise (fun a b => a && !b) mask matchedBits

/-- The callbacks of the hits of a trie. -/
def accumulateHits (atoms : List Keyword) (ignoreCase : Bool) (str : Text) :
    List Hit → (matchedBits : Nat) → Option Nat
  | [], matchedBits => some matchedBits
  | hit :: hits, matchedBits => do
    let remaining := remainingBits (keywordMask atoms ignoreCase hit.value) matchedBits
    let matchedBits ← matchBits atoms str hit remaining (List.range 64) matchedBits
    accumulateHits atoms ignoreCase str hits matchedBits

/-- `AccumulateUsingStringsPrefilterMatches`. -/
def accumulateMatches (atoms : List Keyword) (ignoreCase : Bool)
    (trie : Option DoubleArrayTrie) (str : Text) (matchedBits : Nat) : Option Nat :=
  match trie with
  | none => some matchedBits
  | some trie => do
    let hits ← trie.parseText str false
    accumulateHits atoms ignoreCase str hits matchedBits

/-- `MayMatchUsingStringsPrefilter`, its loop over the strings. -/
def PrefilterPlan.mayMatchFrom (plan : PrefilterPlan) :
    List Text → (matchedBits : Nat) → (hasEmptyString : Bool) → Option Bool
  | [], matchedBits, hasEmptyString =>
    let matchedBits := if hasEmptyString then matchedBits ||| plan.emptyEqualAtomMask
      else matchedBits
    some (plan.root.evaluate matchedBits)
  | str :: strings, matchedBits, hasEmptyString => do
    let hasEmptyString := hasEmptyString || str = []
    let matchedBits ← accumulateMatches plan.atoms false plan.caseSensitiveTrie str matchedBits
    let matchedBits ← accumulateMatches plan.atoms true plan.ignoreCaseTrie str matchedBits
    if plan.root.evaluate matchedBits then return true
    mayMatchFrom plan strings matchedBits hasEmptyString

/-- `MayMatchUsingStringsPrefilter`. -/
def PrefilterPlan.mayMatch (plan : PrefilterPlan) (strings : List Text) : Option Bool :=
  plan.mayMatchFrom strings 0 false

section Bits

theorem testBit_foldl_or (p : Nat → Bool) (n i : Nat) :
    ((List.range n).foldl (fun mask i => if p i then mask ||| 2 ^ i else mask) 0).testBit i = true ↔
      i < n ∧ p i = true := by
  induction n with
  | zero => simp
  | succ n ih =>
    rw [List.range_succ, List.foldl_append, List.foldl_cons, List.foldl_nil]
    by_cases hp : p n
    · rw [if_pos hp, Nat.testBit_or, Bool.or_eq_true, ih, Nat.testBit_two_pow, decide_eq_true_eq]
      constructor
      · rintro (⟨hlt, hi⟩ | rfl)
        · exact ⟨by omega, hi⟩
        · exact ⟨by omega, hp⟩
      · rintro ⟨hlt, hi⟩
        by_cases heq : n = i
        · exact .inr heq
        · exact .inl ⟨by omega, hi⟩
    · rw [if_neg hp, ih]
      constructor
      · rintro ⟨hlt, hi⟩
        exact ⟨by omega, hi⟩
      · rintro ⟨hlt, hi⟩
        refine ⟨Nat.lt_of_le_of_ne (by omega) fun heq => hp (heq ▸ hi), hi⟩

theorem testBit_remainingBits (mask matchedBits i : Nat) :
    (remainingBits mask matchedBits).testBit i = true ↔
      mask.testBit i = true ∧ ¬matchedBits.testBit i = true := by
  rw [remainingBits, Nat.testBit_bitwise rfl]
  simp

variable {atoms : List Keyword} {ignoreCase : Bool} {str : Text}

theorem testBit_keywordMask {keyword : Text} {i : Nat} :
    (keywordMask atoms ignoreCase keyword).testBit i = true ↔ ∃ atom, atoms[i]? = some atom ∧
      atom.value ≠ [] ∧ atom.ignoreCase = ignoreCase ∧ atom.value = keyword := by
  rw [keywordMask, testBit_foldl_or, Option.any_eq_true]
  simp only [Keyword.isAtomOf, decide_eq_true_eq]
  refine ⟨And.right, fun h => ⟨?_, h⟩⟩
  obtain ⟨atom, hatom, -⟩ := h
  exact (List.getElem?_eq_some_iff.mp hatom).1

/-- The bits that the callback of a hit sets. -/
theorem matchBits_spec {hit : Hit} {remaining : Nat}
    (hatoms : ∀ i, remaining.testBit i = true →
      ∃ atom, atoms[i]? = some atom ∧ atom.matchType ≠ .similarRegex)
    (bits : List Nat) (matchedBits : Nat) :
    ∃ bits', matchBits atoms str hit remaining bits matchedBits = some bits' ∧
      ∀ i, bits'.testBit i = true ↔ matchedBits.testBit i = true ∨ i ∈ bits ∧
        remaining.testBit i = true ∧ ∃ atom, atoms[i]? = some atom ∧
          hitMatched str hit atom.matchType = some true := by
  induction bits generalizing matchedBits with
  | nil => exact ⟨matchedBits, rfl, by simp⟩
  | cons b bits ih =>
    rw [matchBits]
    by_cases hb : remaining.testBit b = true
    · rw [if_pos hb]
      obtain ⟨atom, hatom, htype⟩ := hatoms b hb
      obtain ⟨found, hfound⟩ := exists_hitMatched str hit htype
      obtain ⟨bits', hrest, hmem⟩ := ih (if found then matchedBits ||| 2 ^ b else matchedBits)
      refine ⟨bits', ?_, fun i => ?_⟩
      · simp only [hatom, Option.bind_eq_bind, Option.bind_some, hfound]
        exact hrest
      · have hone : (if found then matchedBits ||| 2 ^ b else matchedBits).testBit i = true ↔
            matchedBits.testBit i = true ∨ i = b ∧ found = true := by
          cases found with
          | true =>
            rw [if_pos rfl, Nat.testBit_or, Bool.or_eq_true, Nat.testBit_two_pow,
              decide_eq_true_eq]
            exact or_congr_right ⟨fun h => ⟨h.symm, rfl⟩, fun h => h.1.symm⟩
          | false => simp
        rw [hmem, hone, or_assoc, List.mem_cons, or_and_right]
        apply or_congr_right
        apply or_congr_left
        constructor
        · rintro ⟨rfl, rfl⟩
          exact ⟨rfl, hb, atom, hatom, hfound⟩
        · rintro ⟨rfl, -, atom', hatom', hfound'⟩
          obtain rfl := Option.some.inj (hatom.symm.trans hatom')
          exact ⟨rfl, Option.some.inj (hfound.symm.trans hfound')⟩
    · rw [if_neg hb]
      obtain ⟨bits', hrest, hmem⟩ := ih matchedBits
      refine ⟨bits', hrest, fun i => ?_⟩
      rw [hmem, List.mem_cons, or_and_right]
      apply or_congr_right
      refine ⟨.inr, fun h => h.resolve_left ?_⟩
      rintro ⟨rfl, hbit, -⟩
      exact hb hbit

variable (hlength : atoms.length ≤ 64) (htypes : ∀ atom ∈ atoms, atom.matchType ≠ .similarRegex)
include hlength htypes

theorem accumulateHits_spec (hits : List Hit) (matchedBits : Nat) :
    ∃ bits', accumulateHits atoms ignoreCase str hits matchedBits = some bits' ∧
      ∀ i, bits'.testBit i = true ↔ matchedBits.testBit i = true ∨ ∃ hit ∈ hits, ∃ atom,
        atoms[i]? = some atom ∧ atom.value ≠ [] ∧ atom.ignoreCase = ignoreCase ∧
          atom.value = hit.value ∧ hitMatched str hit atom.matchType = some true := by
  induction hits generalizing matchedBits with
  | nil => exact ⟨matchedBits, rfl, by simp⟩
  | cons hit hits ih =>
    obtain ⟨bits₁, hstep, hmem₁⟩ := @matchBits_spec atoms str hit
      (remainingBits (keywordMask atoms ignoreCase hit.value) matchedBits) (fun i hi => by
        obtain ⟨atom, hatom, -⟩ :=
          testBit_keywordMask.mp ((testBit_remainingBits _ _ i).mp hi).1
        exact ⟨atom, hatom, htypes atom (List.mem_of_getElem? hatom)⟩) (List.range 64) matchedBits
    obtain ⟨bits', hrest, hmem⟩ := ih bits₁
    refine ⟨bits', ?_, fun i => ?_⟩
    · rw [accumulateHits]
      simp only [hstep, Option.bind_eq_bind, Option.bind_some]
      exact hrest
    · rw [hmem, hmem₁, List.exists_mem_cons_iff, ← or_assoc]
      apply or_congr_left
      by_cases hbit : matchedBits.testBit i = true
      · exact iff_of_true (.inl hbit) (.inl hbit)
      · rw [or_iff_right hbit, or_iff_right hbit, testBit_remainingBits, testBit_keywordMask]
        constructor
        · rintro ⟨-, ⟨⟨atom, hatom, hkey⟩, -⟩, atom', hatom', hfound⟩
          obtain rfl := Option.some.inj (hatom.symm.trans hatom')
          exact ⟨atom, hatom, hkey.1, hkey.2.1, hkey.2.2, hfound⟩
        · rintro ⟨atom, hatom, hne, hcase, hvalue, hfound⟩
          have hi := (List.getElem?_eq_some_iff.mp hatom).1
          exact ⟨List.mem_range.mpr (by omega), ⟨⟨atom, hatom, hne, hcase, hvalue⟩, hbit⟩, atom,
            hatom, hfound⟩

/-- The atoms of a trie that a string sets. -/
theorem accumulateMatches_spec {g : Growth} {trie : Option DoubleArrayTrie}
    (htrie : prefilterTrie g atoms ignoreCase = some trie) (str : Text) (matchedBits : Nat) :
    ∃ bits', accumulateMatches atoms ignoreCase trie str matchedBits = some bits' ∧
      ∀ i, bits'.testBit i = true ↔ matchedBits.testBit i = true ∨ ∃ atom,
        atoms[i]? = some atom ∧ atom.value ≠ [] ∧ atom.ignoreCase = ignoreCase ∧
          atom.Matches str := by
  have hkeys (v : Text) (flag : Bool) : (v, flag) ∈ prefilterKeywords atoms ignoreCase ↔
      flag = ignoreCase ∧ ∃ atom ∈ atoms, atom.value ≠ [] ∧ atom.ignoreCase = ignoreCase ∧
        atom.value = v := by
    simp only [prefilterKeywords, List.mem_map, List.mem_filter, decide_eq_true_eq, Prod.mk.injEq]
    constructor
    · rintro ⟨atom, ⟨hatom, hne, hcase⟩, hvalue, rfl⟩
      exact ⟨rfl, atom, hatom, hne, hcase, hvalue⟩
    · rintro ⟨rfl, atom, hatom, hne, hcase, hvalue⟩
      exact ⟨atom, ⟨hatom, hne, hcase⟩, hvalue, rfl⟩
  unfold prefilterTrie at htrie
  split at htrie
  next hnone =>
    obtain rfl := Option.some.inj htrie
    refine ⟨matchedBits, rfl, fun i => ⟨.inl, fun h => h.resolve_right ?_⟩⟩
    rintro ⟨atom, hatom, hne, hcase, -⟩
    have hmem := (hkeys atom.value ignoreCase).mpr
      ⟨rfl, atom, List.mem_of_getElem? hatom, hne, hcase, rfl⟩
    rw [hnone] at hmem
    cases hmem
  next =>
    obtain ⟨built, hbuild, hparse⟩ := exists_build g (prefilterKeywords atoms ignoreCase)
    rw [hbuild] at htrie
    obtain rfl := Option.some.inj htrie
    obtain ⟨hits, hrun, hsound, hcomplete⟩ := hparse str false
    obtain ⟨bits', hbits, hmem⟩ :=
      @accumulateHits_spec atoms ignoreCase str hlength htypes hits matchedBits
    refine ⟨bits', ?_, fun i => ?_⟩
    · rw [accumulateMatches]
      simp only [hrun, Option.bind_eq_bind, Option.bind_some]
      exact hbits
    · rw [hmem]
      apply or_congr_right
      constructor
      · rintro ⟨hit, hhit, atom, hatom, hne, hcase, hvalue, hfound⟩
        obtain ⟨hbegin, flag, hkey, hends⟩ := occurs_iff.mp (hsound hit hhit).1
        obtain ⟨rfl, -⟩ := (hkeys _ _).mp hkey
        have hhit : hit = ⟨(hit.endPos : Int) - hit.value.length, hit.endPos, hit.value⟩ := by
          obtain ⟨begin, endPos, value⟩ := hit
          simp only at hbegin
          rw [← hbegin, add_sub_cancel_right]
        refine ⟨atom, hatom, hne, hcase, ?_⟩
        have hmatches := exists_hit_iff.mp ⟨_, hends, hhit ▸ hfound⟩
        rw [← hvalue, ← hcase] at hmatches
        exact hmatches
      · rintro ⟨atom, hatom, hne, hcase, hmatches⟩
        obtain ⟨e, hends, hfound⟩ :=
          (@exists_hit_iff atom.value str atom.ignoreCase atom.matchType).mpr hmatches
        have hkey := (hkeys atom.value atom.ignoreCase).mpr
          ⟨hcase, atom, List.mem_of_getElem? hatom, hne, hcase, rfl⟩
        exact ⟨_, hcomplete ⟨(e : Int) - atom.value.length, e, atom.value⟩ hne
          (occurs_iff.mpr ⟨sub_add_cancel _ _, atom.ignoreCase, hkey, hends⟩), atom, hatom, hne,
          hcase, rfl, hfound⟩

end Bits

/-- The atoms that the plan of a matcher can have. -/
structure PrefilterAtoms.Valid (plan : PrefilterAtoms) : Prop where
  length : plan.atoms.length ≤ 64
  types : ∀ atom ∈ plan.atoms, atom.matchType ≠ .similarRegex
  equal : ∀ atom ∈ plan.atoms, atom.value = [] → atom.matchType = .equal
  mask : ∀ i, plan.emptyEqualAtomMask.testBit i = true ↔
    ∃ atom, plan.atoms[i]? = some atom ∧ atom.value = []

mutual

theorem PrefilterNode.evaluate_mono {a b : Nat} (h : ∀ i, a.testBit i = true → b.testBit i = true)
    (node : PrefilterNode) (ha : node.evaluate a = true) : node.evaluate b = true := by
  cases node with
  | group groupMask =>
    simp only [PrefilterNode.evaluate, decide_eq_true_eq] at ha ⊢
    apply Nat.eq_of_testBit_eq
    intro i
    have hi := congrArg (·.testBit i) ha
    simp only [Nat.testBit_and] at hi ⊢
    have hab := h i
    cases hm : groupMask.testBit i with
    | false => simp
    | true =>
      rw [hm, Bool.and_true] at hi
      simp [hab hi]
  | allOf children =>
    rw [PrefilterNode.evaluate] at ha ⊢
    exact PrefilterNode.evaluateAll_mono h children ha
  | anyOf children =>
    rw [PrefilterNode.evaluate] at ha ⊢
    exact PrefilterNode.evaluateAny_mono h children ha

theorem PrefilterNode.evaluateAll_mono {a b : Nat}
    (h : ∀ i, a.testBit i = true → b.testBit i = true) (nodes : List PrefilterNode)
    (ha : PrefilterNode.evaluateAll a nodes = true) :
    PrefilterNode.evaluateAll b nodes = true := by
  cases nodes with
  | nil => rfl
  | cons node nodes =>
    rw [PrefilterNode.evaluateAll, Bool.and_eq_true] at ha ⊢
    exact ⟨node.evaluate_mono h ha.1, PrefilterNode.evaluateAll_mono h nodes ha.2⟩

theorem PrefilterNode.evaluateAny_mono {a b : Nat}
    (h : ∀ i, a.testBit i = true → b.testBit i = true) (nodes : List PrefilterNode)
    (ha : PrefilterNode.evaluateAny a nodes = true) :
    PrefilterNode.evaluateAny b nodes = true := by
  cases nodes with
  | nil => cases ha
  | cons node nodes =>
    rw [PrefilterNode.evaluateAny, Bool.or_eq_true] at ha ⊢
    exact ha.imp (node.evaluate_mono h) (PrefilterNode.evaluateAny_mono h nodes)

end

section Plan

variable {g : Growth} {plan : PrefilterPlan} (hlength : plan.atoms.length ≤ 64)
  (htypes : ∀ atom ∈ plan.atoms, atom.matchType ≠ .similarRegex)
  (hequal : ∀ atom ∈ plan.atoms, atom.value = [] → atom.matchType = .equal)
  (hmask : ∀ i, plan.emptyEqualAtomMask.testBit i = true ↔
    ∃ atom, plan.atoms[i]? = some atom ∧ atom.value = [])
  (hsensitive : prefilterTrie g plan.atoms false = some plan.caseSensitiveTrie)
  (hignore : prefilterTrie g plan.atoms true = some plan.ignoreCaseTrie)
include hlength htypes hequal hmask hsensitive hignore

/-- The answer of the plan is that of its tree for the atoms that some string matches. -/
theorem mayMatchFrom_spec {seen rest : List Text} {bits : Nat} {hasEmpty : Bool}
    (hbits : ∀ i, bits.testBit i = true ↔ ∃ atom, plan.atoms[i]? = some atom ∧ atom.value ≠ [] ∧
      ∃ str ∈ seen, atom.Matches str)
    (hempty : hasEmpty = true ↔ [] ∈ seen) {all : Nat}
    (hall : ∀ i, all.testBit i = true ↔ ∃ atom, plan.atoms[i]? = some atom ∧
      ∃ str ∈ seen ++ rest, atom.Matches str) :
    plan.mayMatchFrom rest bits hasEmpty = some (plan.root.evaluate all) := by
  have hequalMatches {atom : Keyword} (hatom : atom ∈ plan.atoms) (hnil : atom.value = [])
      (str : Text) : atom.Matches str ↔ str = [] := by
    rw [Keyword.Matches, hequal atom hatom hnil, hnil]
    constructor
    · intro h
      have := congrArg List.length h
      rw [Kmp.length_folded, Kmp.length_folded] at this
      exact List.eq_nil_of_length_eq_zero this.symm
    · rintro rfl
      rfl
  induction rest generalizing seen bits hasEmpty with
  | nil =>
    rw [PrefilterPlan.mayMatchFrom]
    congr 2
    apply Nat.eq_of_testBit_eq
    intro i
    rw [Bool.eq_iff_iff, hall, List.append_nil]
    have hfinal : (if hasEmpty then bits ||| plan.emptyEqualAtomMask else bits).testBit i = true ↔
        bits.testBit i = true ∨ hasEmpty = true ∧ plan.emptyEqualAtomMask.testBit i = true := by
      cases hasEmpty with
      | true => simp
      | false => simp
    rw [hfinal, hbits, hmask, hempty]
    constructor
    · rintro (⟨atom, hatom, -, hstr⟩ | ⟨hseen, atom, hatom, hnil⟩)
      · exact ⟨atom, hatom, hstr⟩
      · exact ⟨atom, hatom, [], hseen,
          (hequalMatches (List.mem_of_getElem? hatom) hnil []).mpr rfl⟩
    · rintro ⟨atom, hatom, str, hstr, hmatches⟩
      by_cases hnil : atom.value = []
      · obtain rfl := (hequalMatches (List.mem_of_getElem? hatom) hnil str).mp hmatches
        exact .inr ⟨hstr, atom, hatom, hnil⟩
      · exact .inl ⟨atom, hatom, hnil, str, hstr, hmatches⟩
  | cons str rest ih =>
    obtain ⟨bits₁, hrun₁, hmem₁⟩ := accumulateMatches_spec hlength htypes hsensitive str bits
    obtain ⟨bits₂, hrun₂, hmem₂⟩ := accumulateMatches_spec hlength htypes hignore str bits₁
    have hbits₂ (i : Nat) : bits₂.testBit i = true ↔ ∃ atom, plan.atoms[i]? = some atom ∧
        atom.value ≠ [] ∧ ∃ s ∈ seen ++ [str], atom.Matches s := by
      rw [hmem₂, hmem₁, hbits]
      constructor
      · rintro ((⟨atom, hatom, hne, s, hs, hmatches⟩ | ⟨atom, hatom, hne, -, hmatches⟩) |
          ⟨atom, hatom, hne, -, hmatches⟩)
        · exact ⟨atom, hatom, hne, s, List.mem_append_left _ hs, hmatches⟩
        · exact ⟨atom, hatom, hne, str, by simp, hmatches⟩
        · exact ⟨atom, hatom, hne, str, by simp, hmatches⟩
      · rintro ⟨atom, hatom, hne, s, hs, hmatches⟩
        rcases List.mem_append.mp hs with hs | hs
        · exact .inl (.inl ⟨atom, hatom, hne, s, hs, hmatches⟩)
        · obtain rfl := List.mem_singleton.mp hs
          cases hcase : atom.ignoreCase with
          | false => exact .inl (.inr ⟨atom, hatom, hne, hcase, hmatches⟩)
          | true => exact .inr ⟨atom, hatom, hne, hcase, hmatches⟩
    have hall' (i : Nat) : all.testBit i = true ↔ ∃ atom, plan.atoms[i]? = some atom ∧
        ∃ s ∈ (seen ++ [str]) ++ rest, atom.Matches s := by
      rw [List.append_assoc, List.singleton_append]
      exact hall i
    rw [PrefilterPlan.mayMatchFrom]
    simp only [hrun₁, hrun₂, Option.bind_eq_bind, Option.bind_some]
    by_cases hnow : plan.root.evaluate bits₂ = true
    · rw [if_pos hnow, plan.root.evaluate_mono (fun i hi => ?_) hnow]
      · rfl
      · obtain ⟨atom, hatom, -, s, hs, hmatches⟩ := (hbits₂ i).mp hi
        exact (hall' i).mpr ⟨atom, hatom, s, List.mem_append_left _ hs, hmatches⟩
    · rw [if_neg hnow]
      refine ih hbits₂ ?_ hall'
      rw [Bool.or_eq_true, hempty, List.mem_append, List.mem_singleton, decide_eq_true_eq]
      exact or_congr_right eq_comm

end Plan

end Dexllm
