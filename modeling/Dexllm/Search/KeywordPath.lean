import Dexllm.Search.AhoCorasick
import Dexllm.Search.StringMatch

/-!
A method is asked for all its strings at once: the values of the matchers go into one
trie, and a hit counts if it lies where the type of its value asks for it. The trie has
one type for a value, that of its last matcher.
-/

namespace Dexllm

open AhoCorasick

/-- The keywords of the trie and what is known of their values; `realKeywords` is the
set of the values. -/
structure KeywordCache where
  keywords : List (Text × Bool) := []
  matchTypeMap : Text → Option StringMatchType := fun _ => none
  realKeywords : List Text := []

/-- The round of a matcher. -/
def KeywordCache.add (cache : KeywordCache) (k : Keyword) : KeywordCache where
  keywords := cache.keywords ++ [(k.value, k.ignoreCase)]
  matchTypeMap := Function.update cache.matchTypeMap k.value (some k.matchType)
  realKeywords := cache.realKeywords.insert k.value

/-- `BuildPersistentUsingStringsKeywordsCache` without the trie. -/
def keywordCache (keywords : List Keyword) : KeywordCache := keywords.foldl KeywordCache.add {}

/-- Whether the hit lies where the type asks for it. -/
def hitMatched (str : Text) (hit : Hit) : StringMatchType → Option Bool
  | .contains => some true
  | .startWith => some (hit.begin = 0)
  | .endWith => some (hit.endPos = str.length)
  | .equal => some (hit.begin = 0 && hit.endPos = str.length)
  | .similarRegex => none

/-- The loop over the hits in a string. -/
def collectHits (matchTypeMap : Text → Option StringMatchType) (str : Text) :
    List Hit → (searchSet : List Text) → Option (List Text)
  | [], searchSet => some searchSet
  | hit :: hits, searchSet => do
    let matchType ← matchTypeMap hit.value
    let found ← hitMatched str hit matchType
    collectHits matchTypeMap str hits (if found then searchSet.insert hit.value else searchSet)

/-- The loop over the strings that a method uses. -/
def searchStrings (trie : DoubleArrayTrie) (matchTypeMap : Text → Option StringMatchType)
    (strings : List Text) (emptyStringId : Nat) :
    List Nat → (usingEmptyStringCount : Nat) → (searchSet : List Text) →
      Option (Nat × List Text)
  | [], usingEmptyStringCount, searchSet => some (usingEmptyStringCount, searchSet)
  | idx :: ids, usingEmptyStringCount, searchSet => do
    let usingEmptyStringCount :=
      if idx = emptyStringId then usingEmptyStringCount + 1 else usingEmptyStringCount
    let str ← strings[idx]?
    let hits ← trie.parseText str false
    let searchSet ← collectHits matchTypeMap str hits searchSet
    searchStrings trie matchTypeMap strings emptyStringId ids usingEmptyStringCount searchSet

/-- The values that the strings of a method match; the empty one has to be of the type
`Equal`. -/
def searchSet (trie : DoubleArrayTrie) (matchTypeMap : Text → Option StringMatchType)
    (strings : List Text) (emptyStringId : Nat) (ids : List Nat) : Option (List Text) := do
  let (usingEmptyStringCount, searchSet) ←
    searchStrings trie matchTypeMap strings emptyStringId ids 0 []
  match matchTypeMap [] with
  | none => some searchSet
  | some .equal => some (if usingEmptyStringCount ≠ 0 then searchSet.insert [] else searchSet)
  | some _ => none

/-- The value of a matcher of the keyword path. -/
def StringMatcher.keyword? (matcher : StringMatcher) : Option Keyword :=
  matcher.value.map fun value => keywordOf value matcher.matchType matcher.ignoreCase

/-- The end of `IsMethodUsingStringsMatched`, behind the test for a matcher without a
value. -/
def keywordsMatched (g : Growth) (strings : List Text) (emptyStringId : Nat) (ids : List Nat)
    (keywords : List Keyword) : Option Bool := do
  let cache := keywordCache keywords
  let trie ← build g cache.keywords
  let searchSet ← searchSet trie cache.matchTypeMap strings emptyStringId ids
  if searchSet.length < cache.realKeywords.length then return false
  return (searchSet.filter (· ∈ cache.realKeywords)).length = cache.realKeywords.length

/-- `IsMethodUsingStringsMatched`. -/
def isMethodUsingStringsMatched (g : Growth) (strings : List Text) (emptyStringId : Nat)
    (ids : List Nat) : Option (List StringMatcher) → Option Bool
  | none => some true
  | some matchers =>
    if matchers.all (·.value.isSome) then
      keywordsMatched g strings emptyStringId ids (matchers.filterMap StringMatcher.keyword?)
    else do
      let usingStrings ← ids.mapM (strings[·]?)
      matchUsingStringGroup usingStrings matchers

section Hits

variable {v str : Text} {flag : Bool} {e : Nat}

/-- The keyword ends at `e`. -/
def EndsAt (flag : Bool) (v str : Text) (e : Nat) : Prop :=
  e ≤ str.length ∧ Kmp.folded flag v <:+ Kmp.folded flag (str.take e)

theorem folded_false : Kmp.folded false v = v := by
  have hid : Kmp.getIgnoreCaseChar false = id := by
    funext c
    simp [Kmp.getIgnoreCaseChar]
  rw [Kmp.folded, hid, List.map_id]

theorem folded_true : Kmp.folded true v = v.map lower := by
  have hlower : Kmp.getIgnoreCaseChar true = lower := by
    funext c
    simp [Kmp.getIgnoreCaseChar, lower]
  rw [Kmp.folded, hlower]

theorem folded_take : Kmp.folded flag (str.take e) = (Kmp.folded flag str).take e :=
  List.map_take

theorem EndsAt.length_le (h : EndsAt flag v str e) : v.length ≤ e := by
  have hle := h.2.length_le
  rw [Kmp.length_folded, Kmp.length_folded, List.length_take] at hle
  omega

theorem occurs_iff {keywords : List (Text × Bool)} {hit : Hit} :
    Occurs keywords str false hit ↔ hit.begin + hit.value.length = hit.endPos ∧
      ∃ flag, (hit.value, flag) ∈ keywords ∧ EndsAt flag hit.value str hit.endPos := by
  constructor
  · rintro ⟨flag, hkey, hend, hbegin, hlower, hcase⟩
    refine ⟨hbegin, flag, hkey, hend, ?_⟩
    cases flag with
    | true =>
      rw [folded_true, folded_true]
      exact hlower
    | false =>
      rw [folded_false, folded_false]
      exact (hcase.resolve_left Bool.false_ne_true).resolve_left Bool.false_ne_true
  · rintro ⟨hbegin, flag, hkey, hend, hsuffix⟩
    cases flag with
    | true =>
      rw [folded_true, folded_true] at hsuffix
      exact ⟨true, hkey, hend, hbegin, hsuffix, .inl rfl⟩
    | false =>
      rw [folded_false, folded_false] at hsuffix
      exact ⟨false, hkey, hend, hbegin, hsuffix.map lower, .inr (.inr hsuffix)⟩

theorem endsAt_append {pre post : Text} {w : Text} (hw : Kmp.folded flag v = w)
    (h : pre ++ w ++ post = Kmp.folded flag str) : EndsAt flag v str (pre.length + w.length) := by
  have hlength := congrArg List.length h
  simp only [List.length_append, Kmp.length_folded] at hlength
  refine ⟨by omega, ?_⟩
  rw [hw, folded_take, ← h, ← List.length_append, List.take_left]
  exact List.suffix_append pre w

/-- A hit where the type asks for it, and a text that is what the keyword asks for. -/
theorem exists_hit_iff {type : StringMatchType} :
    (∃ e, EndsAt flag v str e ∧
      hitMatched str ⟨(e : Int) - v.length, e, v⟩ type = some true) ↔
      (⟨v, type, flag⟩ : Keyword).Matches str := by
  have hwhole : str.take str.length = str := List.take_length
  cases type with
  | contains =>
    constructor
    · rintro ⟨e, ⟨-, hsuffix⟩, -⟩
      rw [folded_take] at hsuffix
      exact hsuffix.isInfix.trans (List.take_prefix e _).isInfix
    · rintro ⟨pre, post, h⟩
      exact ⟨_, endsAt_append rfl h, rfl⟩
  | startWith =>
    constructor
    · rintro ⟨e, hends, hbegin⟩
      have hle := hends.length_le
      simp only [hitMatched, Option.some.injEq, decide_eq_true_eq] at hbegin
      obtain rfl : e = v.length := by omega
      have hsuffix := hends.2
      have heq := hsuffix.eq_of_length (by
        rw [Kmp.length_folded, Kmp.length_folded, List.length_take, Nat.min_eq_left hends.1])
      rw [folded_take] at heq
      change Kmp.folded flag v <+: Kmp.folded flag str
      rw [heq]
      exact List.take_prefix _ _
    · rintro ⟨post, h⟩
      refine ⟨_, @endsAt_append v str flag [] post _ rfl h, ?_⟩
      simp [hitMatched]
  | endWith =>
    constructor
    · rintro ⟨e, ⟨-, hsuffix⟩, hend⟩
      simp only [hitMatched, Option.some.injEq, decide_eq_true_eq] at hend
      rw [hend, hwhole] at hsuffix
      exact hsuffix
    · intro h
      exact ⟨str.length, ⟨Nat.le_refl _, hwhole.symm ▸ h⟩, by simp [hitMatched]⟩
  | equal =>
    constructor
    · rintro ⟨e, hends, hboth⟩
      have hle := hends.length_le
      simp only [hitMatched, Option.some.injEq, Bool.and_eq_true, decide_eq_true_eq] at hboth
      obtain ⟨hbegin, hend⟩ := hboth
      have hsuffix := hends.2
      rw [hend, hwhole] at hsuffix
      exact hsuffix.eq_of_length (by rw [Kmp.length_folded, Kmp.length_folded]; omega)
    · intro h
      have hlength := congrArg List.length h
      rw [Kmp.length_folded, Kmp.length_folded] at hlength
      refine ⟨str.length, ⟨Nat.le_refl _, hwhole.symm ▸ h ▸ List.suffix_rfl⟩, ?_⟩
      simp [hitMatched, hlength]
  | similarRegex =>
    refine iff_of_false ?_ not_false
    rintro ⟨e, -, h⟩
    cases h

end Hits

/-- The types that the trie has for its values. -/
structure Typed (keywords : List (Text × Bool)) (matchTypeMap : Text → Option StringMatchType) :
    Prop where
  known : ∀ v flag, (v, flag) ∈ keywords → ∃ type, matchTypeMap v = some type
  plain : ∀ v, matchTypeMap v ≠ some .similarRegex
  equal : ∀ type, matchTypeMap [] = some type → type = .equal

/-- The text is what the keywords of the value ask for by the type of the value, one of
them at least. -/
def Merged (keywords : List (Text × Bool)) (matchTypeMap : Text → Option StringMatchType)
    (v str : Text) : Prop :=
  ∃ type flag, matchTypeMap v = some type ∧ (v, flag) ∈ keywords ∧
    (⟨v, type, flag⟩ : Keyword).Matches str

section Search

variable {keywords : List (Text × Bool)} {matchTypeMap : Text → Option StringMatchType}
  (htyped : Typed keywords matchTypeMap) {str : Text}

theorem exists_hitMatched (str : Text) (hit : Hit) {type : StringMatchType}
    (h : type ≠ .similarRegex) :
    ∃ found, hitMatched str hit type = some found := by
  cases type with
  | similarRegex => exact absurd rfl h
  | contains => exact ⟨_, rfl⟩
  | startWith => exact ⟨_, rfl⟩
  | endWith => exact ⟨_, rfl⟩
  | equal => exact ⟨_, rfl⟩

include htyped in
theorem collectHits_spec (str : Text) (hits : List Hit)
    (hkeys : ∀ hit ∈ hits, ∃ flag, (hit.value, flag) ∈ keywords) {set : List Text}
    (hset : set.Nodup) :
    ∃ set', collectHits matchTypeMap str hits set = some set' ∧ set'.Nodup ∧
      ∀ v, v ∈ set' ↔ v ∈ set ∨ ∃ hit ∈ hits, hit.value = v ∧
        ∃ type, matchTypeMap v = some type ∧ hitMatched str hit type = some true := by
  induction hits generalizing set with
  | nil => exact ⟨set, rfl, hset, by simp⟩
  | cons hit hits ih =>
    obtain ⟨flag, hkey⟩ := hkeys hit List.mem_cons_self
    obtain ⟨type, htype⟩ := htyped.known _ _ hkey
    have hplain : type ≠ .similarRegex := fun hregex => htyped.plain _ (hregex ▸ htype)
    obtain ⟨found, hfound⟩ := exists_hitMatched str hit hplain
    have hset' : (if found then set.insert hit.value else set).Nodup := by
      split
      · exact hset.insert
      · exact hset
    obtain ⟨set', hrest, hnodup, hmem⟩ :=
      ih (fun hit' hh => hkeys hit' (List.mem_cons_of_mem _ hh)) hset'
    refine ⟨set', ?_, hnodup, fun v => ?_⟩
    · rw [collectHits, htype]
      simp only [Option.bind_eq_bind, Option.bind_some]
      rw [hfound]
      exact hrest
    · have hone : (v ∈ if found then set.insert hit.value else set) ↔ v ∈ set ∨ hit.value = v ∧
          ∃ type, matchTypeMap v = some type ∧ hitMatched str hit type = some true := by
        cases found with
        | true =>
          rw [if_pos rfl, List.mem_insert_iff, or_comm]
          apply or_congr_right
          constructor
          · rintro rfl
            exact ⟨rfl, type, htype, hfound⟩
          · rintro ⟨rfl, -⟩
            rfl
        | false =>
          rw [if_neg Bool.false_ne_true]
          refine ⟨.inl, fun h => h.resolve_right ?_⟩
          rintro ⟨rfl, type', htype', hfound'⟩
          obtain rfl := Option.some.inj (htype.symm.trans htype')
          rw [hfound] at hfound'
          cases hfound'
      rw [hmem, hone, or_assoc, List.exists_mem_cons_iff]

variable {g : Growth} {trie : DoubleArrayTrie} {strings : List Text} {emptyStringId : Nat}
  (htrie : ∀ text ignoreCase, ∃ hits, trie.parseText text ignoreCase = some hits ∧
    (∀ hit ∈ hits, Occurs keywords text ignoreCase hit ∧ 0 < hit.endPos) ∧
    ∀ hit, hit.value ≠ [] → Occurs keywords text ignoreCase hit → hit ∈ hits)

include htyped htrie in
/-- The values that one string adds. -/
theorem collectHits_parseText (str : Text) {set : List Text} (hset : set.Nodup) :
    ∃ hits set', trie.parseText str false = some hits ∧
      collectHits matchTypeMap str hits set = some set' ∧ set'.Nodup ∧
      ∀ v, v ∈ set' ↔ v ∈ set ∨ v ≠ [] ∧ Merged keywords matchTypeMap v str := by
  obtain ⟨hits, hparse, hsound, hcomplete⟩ := htrie str false
  obtain ⟨set', hcollect, hnodup, hmem⟩ := collectHits_spec htyped str hits
    (fun hit hh => (hsound hit hh).1.imp fun flag h => h.1) hset
  refine ⟨hits, set', hparse, hcollect, hnodup, fun v => ?_⟩
  rw [hmem]
  apply or_congr_right
  constructor
  · rintro ⟨hit, hh, rfl, type, htype, hfound⟩
    obtain ⟨hoccurs, hpositive⟩ := hsound hit hh
    obtain ⟨hbegin, flag, hkey, hends⟩ := occurs_iff.mp hoccurs
    have hhit : hit = ⟨(hit.endPos : Int) - hit.value.length, hit.endPos, hit.value⟩ := by
      obtain ⟨begin, endPos, value⟩ := hit
      simp only at hbegin
      rw [← hbegin, add_sub_cancel_right]
    refine ⟨fun hnil => ?_, type, flag, htype, hkey, exists_hit_iff.mp ⟨_, hends, hhit ▸ hfound⟩⟩
    rw [hnil] at htype hbegin
    obtain rfl := htyped.equal type htype
    simp only [hitMatched, Option.some.injEq, Bool.and_eq_true, decide_eq_true_eq] at hfound
    rw [hfound.1, List.length_nil] at hbegin
    omega
  · rintro ⟨hne, type, flag, htype, hkey, hmatches⟩
    obtain ⟨e, hends, hfound⟩ := exists_hit_iff.mpr hmatches
    exact ⟨_, hcomplete _ hne (occurs_iff.mpr ⟨sub_add_cancel _ _, flag, hkey, hends⟩), rfl, type,
      htype, hfound⟩

include htyped htrie in
theorem searchStrings_spec (emptyStringId : Nat) {ids : List Nat}
    (hids : ∀ idx ∈ ids, idx < strings.length) (count : Nat) {set : List Text} (hset : set.Nodup) :
    ∃ count' set', searchStrings trie matchTypeMap strings emptyStringId ids count set =
        some (count', set') ∧ (count' ≠ 0 ↔ count ≠ 0 ∨ emptyStringId ∈ ids) ∧ set'.Nodup ∧
      ∀ v, v ∈ set' ↔ v ∈ set ∨ v ≠ [] ∧ ∃ idx ∈ ids, ∃ str, strings[idx]? = some str ∧
        Merged keywords matchTypeMap v str := by
  induction ids generalizing count set with
  | nil => exact ⟨count, set, rfl, by simp, hset, by simp⟩
  | cons idx ids ih =>
    have hidx := hids idx List.mem_cons_self
    have hstr : strings[idx]? = some strings[idx] := List.getElem?_eq_getElem hidx
    obtain ⟨hits, set₁, hparse, hcollect, hnodup₁, hmem₁⟩ :=
      collectHits_parseText htyped htrie strings[idx] hset
    obtain ⟨count', set', hrest, hcount, hnodup, hmem⟩ := ih
      (fun i hi => hids i (List.mem_cons_of_mem _ hi))
      (if idx = emptyStringId then count + 1 else count) hnodup₁
    refine ⟨count', set', ?_, ?_, hnodup, fun v => ?_⟩
    · rw [searchStrings, hstr]
      simp only [Option.bind_eq_bind, Option.bind_some, hparse, hcollect]
      exact hrest
    · rw [hcount, List.mem_cons]
      by_cases hempty : idx = emptyStringId
      · simp [hempty]
      · rw [if_neg hempty, or_iff_right_of_imp (a := emptyStringId = idx)]
        exact fun heq => absurd heq.symm hempty
    · rw [hmem, hmem₁, or_assoc, List.exists_mem_cons_iff, and_or_left]
      apply or_congr_right
      apply or_congr_left
      apply and_congr_right
      intro _
      rw [hstr]
      constructor
      · intro hmerged
        exact ⟨_, rfl, hmerged⟩
      · rintro ⟨str, heq, hmerged⟩
        exact Option.some.inj heq ▸ hmerged

include htyped htrie in
/-- The set of the values that the strings match. -/
theorem searchSet_spec {ids : List Nat} (hids : ∀ idx ∈ ids, idx < strings.length)
    (hempty : ∀ idx ∈ ids, strings[idx]? = some [] ↔ idx = emptyStringId) :
    ∃ set, searchSet trie matchTypeMap strings emptyStringId ids = some set ∧ set.Nodup ∧
      ∀ v flag, (v, flag) ∈ keywords → (v ∈ set ↔ ∃ idx ∈ ids, ∃ str, strings[idx]? = some str ∧
        Merged keywords matchTypeMap v str) := by
  obtain ⟨count, set, hrun, hcount, hnodup, hmem⟩ := searchStrings_spec htyped htrie
    emptyStringId hids 0 List.nodup_nil
  simp only [List.not_mem_nil, false_or] at hmem
  have hother (v : Text) (hne : v ≠ []) : v ∈ set ↔ ∃ idx ∈ ids, ∃ str,
      strings[idx]? = some str ∧ Merged keywords matchTypeMap v str := by
    rw [hmem]
    exact and_iff_right hne
  have hnot : [] ∉ set := fun h => ((hmem []).mp h).1 rfl
  rw [searchSet, hrun]
  simp only [Option.bind_eq_bind, Option.bind_some]
  cases hnil : matchTypeMap [] with
  | none =>
    refine ⟨set, rfl, hnodup, fun v flag hkey => hother v ?_⟩
    rintro rfl
    obtain ⟨type, htype⟩ := htyped.known _ _ hkey
    rw [hnil] at htype
    cases htype
  | some type =>
    obtain rfl := htyped.equal type hnil
    refine ⟨_, rfl, ?_, fun v flag hkey => ?_⟩
    · split
      · exact hnodup.insert
      · exact hnodup
    · by_cases hne : v = []
      · subst hne
        have hused : (∃ idx ∈ ids, ∃ str, strings[idx]? = some str ∧
            Merged keywords matchTypeMap [] str) ↔ emptyStringId ∈ ids := by
          constructor
          · rintro ⟨idx, hidx, str, hstr, type, flag', htype, -, hmatches⟩
            obtain rfl := Option.some.inj (hnil.symm.trans htype)
            have hlength := congrArg List.length hmatches
            rw [Kmp.length_folded, Kmp.length_folded] at hlength
            obtain rfl := List.eq_nil_of_length_eq_zero hlength.symm
            exact (hempty idx hidx).mp hstr ▸ hidx
          · intro hid
            exact ⟨_, hid, [], (hempty _ hid).mpr rfl, .equal, flag, hnil, hkey, rfl⟩
        rw [hused]
        simp only [ne_eq, not_true_eq_false, false_or] at hcount
        by_cases hzero : count ≠ 0
        · rw [if_pos hzero]
          exact iff_of_true List.mem_insert_self (hcount.mp hzero)
        · rw [if_neg hzero]
          exact iff_of_false hnot fun hid => hzero (hcount.mpr hid)
      · rw [← hother v hne]
        split
        · rw [List.mem_insert_iff]
          exact or_iff_right hne
        · exact Iff.rfl

end Search

/-- What the cache knows of these keywords. -/
structure Cached (keywords : List Keyword) (cache : KeywordCache) : Prop where
  pairs : cache.keywords = keywords.map fun k => (k.value, k.ignoreCase)
  types : ∀ v type, cache.matchTypeMap v = some type →
    ∃ k ∈ keywords, k.value = v ∧ k.matchType = type
  known : ∀ k ∈ keywords, ∃ type, cache.matchTypeMap k.value = some type
  values : ∀ v, v ∈ cache.realKeywords ↔ ∃ k ∈ keywords, k.value = v
  nodup : cache.realKeywords.Nodup

theorem cached_keywordCache (keywords : List Keyword) :
    Cached keywords (keywordCache keywords) := by
  induction keywords using List.reverseRecOn with
  | nil => exact ⟨rfl, by simp [keywordCache], by simp, by simp [keywordCache], List.nodup_nil⟩
  | append_singleton keywords k ih =>
    have hadd : keywordCache (keywords ++ [k]) = (keywordCache keywords).add k := by
      rw [keywordCache, List.foldl_append]
      rfl
    rw [hadd]
    refine ⟨?_, fun v type h => ?_, fun k' hk => ?_, fun v => ?_, ih.nodup.insert⟩
    · simp only [KeywordCache.add, ih.pairs, List.map_append, List.map_cons, List.map_nil]
    · simp only [KeywordCache.add] at h
      by_cases hv : v = k.value
      · rw [hv, Function.update_self] at h
        exact ⟨k, by simp, hv.symm, Option.some.inj h⟩
      · rw [Function.update_of_ne hv] at h
        obtain ⟨k', hk', heq⟩ := ih.types v type h
        exact ⟨k', List.mem_append_left _ hk', heq⟩
    · simp only [KeywordCache.add]
      by_cases hv : k'.value = k.value
      · exact ⟨k.matchType, by rw [hv, Function.update_self]⟩
      · rw [Function.update_of_ne hv]
        rcases List.mem_append.mp hk with hk | hk
        · exact ih.known k' hk
        · exact absurd (congrArg Keyword.value (List.mem_singleton.mp hk)) hv
    · simp only [KeywordCache.add, List.mem_insert_iff, ih.values, List.mem_append,
        List.mem_singleton]
      constructor
      · rintro (rfl | ⟨k', hk', rfl⟩)
        · exact ⟨k, .inr rfl, rfl⟩
        · exact ⟨k', .inl hk', rfl⟩
      · rintro ⟨k', hk' | rfl, rfl⟩
        · exact .inr ⟨k', hk', rfl⟩
        · exact .inl rfl

/-- Two sets have as many members in common as the second has, if it is in the first. -/
theorem length_filter_eq_iff {s r : List Text} (hs : s.Nodup) (hr : r.Nodup) :
    (s.filter (· ∈ r)).length = r.length ↔ ∀ v ∈ r, v ∈ s := by
  have hle : (s.filter (· ∈ r)).Subperm r := List.subperm_of_subset (hs.filter _)
    fun v hv => of_decide_eq_true (List.mem_filter.mp hv).2
  constructor
  · intro heq v hv
    have hperm := hle.perm_of_length_le heq.ge
    exact (List.mem_filter.mp (hperm.mem_iff.mpr hv)).1
  · intro hall
    have hge : r.Subperm (s.filter (· ∈ r)) := List.subperm_of_subset hr
      fun v hv => List.mem_filter.mpr ⟨hall v hv, decide_eq_true hv⟩
    exact Nat.le_antisymm hle.length_le hge.length_le

section Keywords

variable {g : Growth} {strings : List Text} {emptyStringId : Nat} {ids : List Nat}
  {keywords : List Keyword}

/-- The keywords that the path takes. -/
structure Admitted (strings : List Text) (emptyStringId : Nat) (ids : List Nat)
    (keywords : List Keyword) : Prop where
  types : ∀ k ∈ keywords, k.matchType ≠ .similarRegex
  equal : ∀ k ∈ keywords, k.value = [] → k.matchType = .equal
  range : ∀ idx ∈ ids, idx < strings.length
  empty : ∀ idx ∈ ids, strings[idx]? = some [] ↔ idx = emptyStringId

theorem Admitted.typed (h : Admitted strings emptyStringId ids keywords) :
    Typed (keywordCache keywords).keywords (keywordCache keywords).matchTypeMap := by
  have hcache := cached_keywordCache keywords
  refine ⟨fun v flag hkey => ?_, fun v hregex => ?_, fun type htype => ?_⟩
  · rw [hcache.pairs] at hkey
    obtain ⟨k, hk, heq⟩ := List.mem_map.mp hkey
    obtain ⟨rfl, -⟩ := Prod.mk.inj heq
    exact hcache.known k hk
  · obtain ⟨k, hk, -, htype⟩ := hcache.types v _ hregex
    exact h.types k hk htype
  · obtain ⟨k, hk, hvalue, rfl⟩ := hcache.types [] type htype
    exact h.equal k hk hvalue

/-- The answer of the path is about the values with the types that the trie has for
them. -/
theorem keywordsMatched_spec (g : Growth) (h : Admitted strings emptyStringId ids keywords) :
    ∃ answer, keywordsMatched g strings emptyStringId ids keywords = some answer ∧
      (answer = true ↔ ∀ k ∈ keywords, ∃ idx ∈ ids, ∃ str, strings[idx]? = some str ∧
        Merged (keywordCache keywords).keywords (keywordCache keywords).matchTypeMap k.value
          str) := by
  have hcache := cached_keywordCache keywords
  obtain ⟨trie, hbuild, htrie⟩ := exists_build g (keywordCache keywords).keywords
  obtain ⟨set, hset, hnodup, hmem⟩ := searchSet_spec h.typed htrie h.range h.empty
  have hsubset : (∀ v ∈ (keywordCache keywords).realKeywords, v ∈ set) ↔ ∀ k ∈ keywords,
      ∃ idx ∈ ids, ∃ str, strings[idx]? = some str ∧
        Merged (keywordCache keywords).keywords (keywordCache keywords).matchTypeMap k.value
          str := by
    have hone (k : Keyword) (hk : k ∈ keywords) := hmem k.value k.ignoreCase
      (hcache.pairs ▸ List.mem_map_of_mem hk)
    constructor
    · intro hall k hk
      exact (hone k hk).mp (hall _ ((hcache.values _).mpr ⟨k, hk, rfl⟩))
    · intro hall v hv
      obtain ⟨k, hk, rfl⟩ := (hcache.values v).mp hv
      exact (hone k hk).mpr (hall k hk)
  have hlength := length_filter_eq_iff hnodup hcache.nodup
  rw [keywordsMatched, hbuild]
  simp only [Option.bind_eq_bind, Option.bind_some, hset]
  rw [← hsubset, ← hlength]
  split
  next hlt =>
    have hle := (set.filter_sublist (p := (· ∈ (keywordCache keywords).realKeywords))).length_le
    exact ⟨false, rfl, iff_of_false Bool.false_ne_true (by omega)⟩
  · exact ⟨_, rfl, decide_eq_true_iff⟩

/-- Keywords of one value that are the same keyword are not merged. -/
theorem merged_iff (hsame : ∀ k ∈ keywords, ∀ k' ∈ keywords, k.value = k'.value → k = k')
    {k : Keyword} (hk : k ∈ keywords) {str : Text} :
    Merged (keywordCache keywords).keywords (keywordCache keywords).matchTypeMap k.value str ↔
      k.Matches str := by
  have hcache := cached_keywordCache keywords
  constructor
  · rintro ⟨type, flag, htype, hkey, hmatches⟩
    obtain ⟨k', hk', hvalue, rfl⟩ := hcache.types _ _ htype
    obtain rfl := hsame k' hk' k hk hvalue
    rw [hcache.pairs] at hkey
    obtain ⟨k', hk', heq⟩ := List.mem_map.mp hkey
    obtain ⟨hvalue, rfl⟩ := Prod.mk.inj heq
    obtain rfl := hsame k' hk' _ hk hvalue
    exact hmatches
  · intro hmatches
    obtain ⟨type, htype⟩ := hcache.known k hk
    obtain ⟨k', hk', hvalue, rfl⟩ := hcache.types _ _ htype
    obtain rfl := hsame k' hk' k hk hvalue
    exact ⟨_, _, htype, hcache.pairs ▸ List.mem_map_of_mem hk, hmatches⟩

end Keywords

theorem mem_of_mapM {α β : Type} {f : α → Option β} {xs : List α} {ys : List β}
    (h : xs.mapM f = some ys) {y : β} : y ∈ ys ↔ ∃ x ∈ xs, f x = some y := by
  induction xs generalizing ys with
  | nil =>
    obtain rfl := Option.some.inj h
    simp
  | cons x xs ih =>
    rw [List.mapM_cons] at h
    obtain ⟨z, hz, h⟩ := Option.bind_eq_some_iff.mp h
    obtain ⟨zs, hzs, h⟩ := Option.bind_eq_some_iff.mp h
    obtain rfl := Option.some.inj h
    rw [List.mem_cons, ih hzs, List.exists_mem_cons_iff, hz, Option.some.injEq, eq_comm]

theorem isMethodUsingStringsMatched_eq {g : Growth} {strings : List Text} {emptyStringId : Nat}
    {ids : List Nat} {matchers : List StringMatcher}
    (hvalues : ∀ m ∈ matchers, ∃ value, m.value = some value) :
    isMethodUsingStringsMatched g strings emptyStringId ids (some matchers) =
      keywordsMatched g strings emptyStringId ids (matchers.filterMap StringMatcher.keyword?) := by
  rw [isMethodUsingStringsMatched, if_pos]
  rw [List.all_eq_true]
  intro m hm
  obtain ⟨value, hvalue⟩ := hvalues m hm
  rw [hvalue]
  rfl

theorem mem_keywords {matchers : List StringMatcher} {k : Keyword} :
    k ∈ matchers.filterMap StringMatcher.keyword? ↔ ∃ m ∈ matchers, ∃ value, m.value = some value ∧
      k = keywordOf value m.matchType m.ignoreCase := by
  simp only [List.mem_filterMap, StringMatcher.keyword?, Option.map_eq_some_iff]
  refine exists_congr fun m => and_congr_right fun _ => exists_congr fun value => ?_
  exact and_congr_right fun _ => eq_comm

/-- What the trie says of the values of a group is what the loops say of it, if the
keywords of a value are the same. -/
theorem merged_iff_plain {strings : List Text} {ids : List Nat} {all : List Keyword}
    (hsame : ∀ k ∈ all, ∀ k' ∈ all, k.value = k'.value → k = k') {matchers : List StringMatcher}
    (hvalues : ∀ m ∈ matchers, ∃ value, m.value = some value)
    (hall : ∀ k ∈ matchers.filterMap StringMatcher.keyword?, k ∈ all) {usingStrings : List Text}
    {plain : Bool} (husing : ids.mapM (strings[·]?) = some usingStrings)
    (hplain : matchUsingStringGroup usingStrings matchers = some plain) :
    (∀ k ∈ matchers.filterMap StringMatcher.keyword?, ∃ idx ∈ ids, ∃ str,
      strings[idx]? = some str ∧ Merged (keywordCache all).keywords (keywordCache all).matchTypeMap
        k.value str) ↔ plain = true := by
  rw [matchUsingStringGroup_spec hvalues hplain]
  have hused (str : Text) := @mem_of_mapM _ _ _ _ _ husing str
  constructor
  · intro hmatched m hm value hvalue
    have hk := mem_keywords.mpr ⟨m, hm, value, hvalue, rfl⟩
    obtain ⟨idx, hidx, str, hstr, hmerged⟩ := hmatched _ hk
    exact ⟨str, (hused str).mpr ⟨idx, hidx, hstr⟩, (merged_iff hsame (hall _ hk)).mp hmerged⟩
  · intro hmatched k hk
    obtain ⟨m, hm, value, hvalue, rfl⟩ := mem_keywords.mp hk
    obtain ⟨str, hstr, hmatches⟩ := hmatched m hm value hvalue
    obtain ⟨idx, hidx, hget⟩ := (hused str).mp hstr
    exact ⟨idx, hidx, str, hget, (merged_iff hsame (hall _ hk)).mpr hmatches⟩

end Dexllm
