import Dexllm.Lib.Delimited
import Dexllm.Search.KeywordPath

/-!
Every thread keeps the tries of its last queries under texts made of their keywords. In
every run of calls, on any threads and with tables that forget, a call is answered as
without them.
-/

namespace Dexllm

open AhoCorasick Delimited

/-- The byte of a type in the schema. -/
def StringMatchType.byte : StringMatchType → UInt8
  | .contains => 0
  | .startWith => 1
  | .endWith => 2
  | .similarRegex => 3
  | .equal => 4

/-- The bytes of a length, as it lies in memory. -/
def lengthBytes (len : Nat) : Text :=
  [UInt8.ofNat len, UInt8.ofNat (len / 2 ^ 8), UInt8.ofNat (len / 2 ^ 16),
    UInt8.ofNat (len / 2 ^ 24)]

/-- The round of `BuildUsingStringsCacheKey`. -/
def cacheKeyItem (item : Keyword) : Text :=
  [item.matchType.byte, if item.ignoreCase then 1 else 0] ++ lengthBytes item.value.length ++
    item.value

/-- `BuildUsingStringsCacheKey`. -/
def buildUsingStringsCacheKey (normalized : List Keyword) : Text :=
  (normalized.map cacheKeyItem).flatten

/-- `kPersistentUsingStringsCacheLimit`. -/
def kPersistentUsingStringsCacheLimit : Nat := 32

/-- `PersistentUsingStringsThreadCache::GetOrCreate`. -/
def getOrCreate {V : Type} (entries : List (Text × V)) (key : Text) (factory : V) :
    List (Text × V) × V :=
  match entries.find? fun entry => entry.1 = key with
  | some entry => (entries, entry.2)
  | none =>
    ((if kPersistentUsingStringsCacheLimit ≤ entries.length then entries.drop 1 else entries) ++
      [(key, factory)], factory)

/-- `PersistentUsingStringsKeywordsCache`; no trie is a build that does not end. -/
abbrev PersistentCache := KeywordCache × Option DoubleArrayTrie

/-- `BuildPersistentUsingStringsKeywordsCache`. -/
def buildPersistentCache (g : Growth) (normalized : List Keyword) : PersistentCache :=
  (keywordCache normalized, build g (keywordCache normalized).keywords)

/-- `GetPersistentUsingStringsKeywordsCache` with the table of its thread. -/
def getPersistentCache (g : Growth) (entries : List (Text × PersistentCache))
    (matchers : List StringMatcher) : List (Text × PersistentCache) × PersistentCache :=
  let normalized := matchers.filterMap StringMatcher.keyword?
  getOrCreate entries (buildUsingStringsCacheKey normalized) (buildPersistentCache g normalized)

/-- The end of `IsMethodUsingStringsMatched` from what the cache has. -/
def cachedMatched (strings : List Text) (emptyStringId : Nat) (ids : List Nat)
    (cache : PersistentCache) : Option Bool := do
  let trie ← cache.2
  let searchSet ← searchSet trie cache.1.matchTypeMap strings emptyStringId ids
  if searchSet.length < cache.1.realKeywords.length then return false
  return (searchSet.filter (· ∈ cache.1.realKeywords)).length = cache.1.realKeywords.length

/-- A call of `IsMethodUsingStringsMatched` on a thread. -/
structure Call where
  thread : Nat
  strings : List Text
  emptyStringId : Nat
  ids : List Nat
  usingStrings : Option (List StringMatcher)

/-- The tables of the threads. -/
abbrev ThreadCaches := Nat → List (Text × PersistentCache)

/-- `IsMethodUsingStringsMatched` with the tables. -/
def Call.run (g : Growth) (caches : ThreadCaches) (call : Call) : ThreadCaches × Option Bool :=
  match call.usingStrings with
  | none => (caches, some true)
  | some matchers =>
    if matchers.all (·.value.isSome) then
      let (entries, cache) := getPersistentCache g (caches call.thread) matchers
      (Function.update caches call.thread entries,
        cachedMatched call.strings call.emptyStringId call.ids cache)
    else
      (caches, do
        let usingStrings ← call.ids.mapM (call.strings[·]?)
        matchUsingStringGroup usingStrings matchers)

/-- The answers of a run of calls, and the tables behind it. -/
def runCalls (g : Growth) (caches : ThreadCaches) : List Call → ThreadCaches × List (Option Bool)
  | [] => (caches, [])
  | call :: calls =>
    let (caches, answer) := call.run g caches
    let (caches, answers) := runCalls g caches calls
    (caches, answer :: answers)

theorem lengthBytes_inj {len len' : Nat} (h : len < 2 ^ 32) (h' : len' < 2 ^ 32)
    (heq : lengthBytes len = lengthBytes len') : len = len' := by
  simp only [lengthBytes, List.cons.injEq, and_true, ← UInt8.toNat_inj, UInt8.toNat_ofNat'] at heq
  omega

theorem byte_inj {type type' : StringMatchType} (h : type.byte = type'.byte) : type = type' := by
  cases type <;> cases type' <;> first | rfl | cases h

/-- The words of keywords with a length that four bytes hold. -/
def CacheKeyItems : Set Text := {w | ∃ k : Keyword, k.value.length < 2 ^ 32 ∧ w = cacheKeyItem k}

theorem cacheKeyItem_append_inj {k k' : Keyword} (hk : k.value.length < 2 ^ 32)
    (hk' : k'.value.length < 2 ^ 32) {r r' : Text}
    (heq : cacheKeyItem k ++ r = cacheKeyItem k' ++ r') : k = k' := by
  unfold cacheKeyItem at heq
  simp only [List.append_assoc] at heq
  obtain ⟨hhead, heq⟩ := List.append_inj heq rfl
  obtain ⟨hlen, heq⟩ := List.append_inj heq rfl
  obtain ⟨hvalue, -⟩ := List.append_inj heq (lengthBytes_inj hk hk' hlen)
  obtain ⟨hbyte, hflag⟩ := List.cons.inj hhead
  obtain ⟨value, type, flag⟩ := k
  obtain ⟨value', type', flag'⟩ := k'
  obtain rfl : value = value' := hvalue
  obtain rfl : type = type' := byte_inj hbyte
  have hflag := (List.cons.inj hflag).1
  cases flag <;> cases flag' <;> first | rfl | cases hflag

theorem prefixFree_cacheKeyItems : PrefixFree CacheKeyItems := by
  rintro _ ⟨k, hk, rfl⟩ _ ⟨k', hk', rfl⟩ r r' heq
  rw [cacheKeyItem_append_inj hk hk' heq]

/-- Lists of keywords with one key are the same. -/
theorem buildUsingStringsCacheKey_inj {ks ks' : List Keyword}
    (hks : ∀ k ∈ ks, k.value.length < 2 ^ 32) (hks' : ∀ k ∈ ks', k.value.length < 2 ^ 32)
    (heq : buildUsingStringsCacheKey ks = buildUsingStringsCacheKey ks') : ks = ks' := by
  have hnil : [] ∉ CacheKeyItems := by
    rintro ⟨k, -, hk⟩
    cases hk
  have hwords {ks : List Keyword} (hks : ∀ k ∈ ks, k.value.length < 2 ^ 32) :
      ∀ w ∈ ks.map cacheKeyItem, w ∈ CacheKeyItems := by
    intro w hw
    obtain ⟨k, hk, rfl⟩ := List.mem_map.mp hw
    exact ⟨k, hks k hk, rfl⟩
  have hmap : ks.map cacheKeyItem = ks'.map cacheKeyItem :=
    prefixFree_cacheKeyItems.uniquelyDecodable hnil _ _ (hwords hks) (hwords hks') heq
  have hlength : ks.length = ks'.length := by simpa using congrArg List.length hmap
  refine List.ext_getElem hlength fun i hi hi' => ?_
  have hitem : cacheKeyItem ks[i] = cacheKeyItem ks'[i] := by
    have := congrArg (·[i]?) hmap
    simpa [hi, hi'] using this
  exact cacheKeyItem_append_inj (hks _ (List.getElem_mem hi)) (hks' _ (List.getElem_mem hi'))
    (congrArg (· ++ ([] : Text)) hitem)

theorem length_keywordOf (value : Text) (type : StringMatchType) (ignoreCase : Bool) :
    (keywordOf value type ignoreCase).value.length ≤ value.length := by
  unfold keywordOf
  split
  · simp only [List.length_take, List.length_drop]
    split <;> split <;> omega
  · exact Nat.le_refl _

/-- The entries of a table are those of lists of keywords. -/
def Sound (g : Growth) (entries : List (Text × PersistentCache)) : Prop :=
  entries.length ≤ kPersistentUsingStringsCacheLimit ∧ ∀ entry ∈ entries, ∃ normalized,
    (∀ k ∈ normalized, k.value.length < 2 ^ 32) ∧
      entry = (buildUsingStringsCacheKey normalized, buildPersistentCache g normalized)

theorem Sound.getOrCreate {g : Growth} {entries : List (Text × PersistentCache)}
    (h : Sound g entries) {normalized : List Keyword}
    (hnormalized : ∀ k ∈ normalized, k.value.length < 2 ^ 32) :
    Sound g (getOrCreate entries (buildUsingStringsCacheKey normalized)
        (buildPersistentCache g normalized)).1 ∧
      (getOrCreate entries (buildUsingStringsCacheKey normalized)
        (buildPersistentCache g normalized)).2 = buildPersistentCache g normalized := by
  unfold Dexllm.getOrCreate
  split
  next entry hfound =>
    obtain ⟨normalized', hnormalized', rfl⟩ := h.2 entry (List.mem_of_find?_eq_some hfound)
    have hkey : buildUsingStringsCacheKey normalized' = buildUsingStringsCacheKey normalized := by
      simpa using List.find?_some hfound
    rw [buildUsingStringsCacheKey_inj hnormalized' hnormalized hkey]
    exact ⟨h, rfl⟩
  next hmissing =>
    have hlength := h.1
    refine ⟨⟨?_, fun entry he => ?_⟩, rfl⟩
    · rw [List.length_append, List.length_singleton]
      split
      next hfull =>
        rw [List.length_drop]
        have : 0 < kPersistentUsingStringsCacheLimit := by decide
        omega
      next hroom => omega
    · rcases List.mem_append.mp he with he | he
      · refine h.2 entry ?_
        split at he
        · exact List.mem_of_mem_drop he
        · exact he
      · exact ⟨normalized, hnormalized, List.mem_singleton.mp he⟩

/-- The matchers of a call have values with a length that four bytes hold. -/
def Call.Short (call : Call) : Prop :=
  ∀ matchers, call.usingStrings = some matchers → ∀ m ∈ matchers, ∀ value,
    m.value = some value → value.length < 2 ^ 32

theorem Call.run_spec {g : Growth} {caches : ThreadCaches} (h : ∀ t, Sound g (caches t))
    {call : Call} (hshort : call.Short) :
    (∀ t, Sound g ((call.run g caches).1 t)) ∧ (call.run g caches).2 =
      isMethodUsingStringsMatched g call.strings call.emptyStringId call.ids call.usingStrings := by
  unfold Call.run isMethodUsingStringsMatched
  cases hmatchers : call.usingStrings with
  | none => exact ⟨h, rfl⟩
  | some matchers =>
    simp only
    split
    next hvalues =>
      have hnormalized : ∀ k ∈ matchers.filterMap StringMatcher.keyword?,
          k.value.length < 2 ^ 32 := by
        intro k hk
        obtain ⟨m, hm, value, hvalue, rfl⟩ := mem_keywords.mp hk
        exact (length_keywordOf value m.matchType m.ignoreCase).trans_lt
          (hshort matchers hmatchers m hm value hvalue)
      obtain ⟨hsound, hcache⟩ := (h call.thread).getOrCreate hnormalized
      refine ⟨fun t => ?_, ?_⟩
      · simp only [getPersistentCache]
        by_cases ht : t = call.thread
        · rw [ht, Function.update_self]
          exact hsound
        · rw [Function.update_of_ne ht]
          exact h t
      · simp only [getPersistentCache, hcache]
        rfl
    · exact ⟨h, rfl⟩

/-- In every run of calls on any threads each is answered as it is without the tables,
which never have more entries than their limit. -/
theorem keyword_caches_transparent (g : Growth) {calls : List Call}
    (hshort : ∀ call ∈ calls, call.Short) :
    (runCalls g (fun _ => []) calls).2 = (calls.map fun call =>
      isMethodUsingStringsMatched g call.strings call.emptyStringId call.ids call.usingStrings) ∧
    ∀ t, ((runCalls g (fun _ => []) calls).1 t).length ≤ kPersistentUsingStringsCacheLimit := by
  have hrun : ∀ caches : ThreadCaches, (∀ t, Sound g (caches t)) →
      (runCalls g caches calls).2 = (calls.map fun call => isMethodUsingStringsMatched g
        call.strings call.emptyStringId call.ids call.usingStrings) ∧
      ∀ t, Sound g ((runCalls g caches calls).1 t) := by
    induction calls with
    | nil => exact fun caches h => ⟨rfl, h⟩
    | cons call calls ih =>
      intro caches h
      obtain ⟨hsound, hanswer⟩ := call.run_spec h (hshort call List.mem_cons_self)
      obtain ⟨hanswers, hsounds⟩ := ih (fun c hc => hshort c (List.mem_cons_of_mem _ hc)) _ hsound
      exact ⟨congrArg₂ List.cons hanswer hanswers, hsounds⟩
  obtain ⟨hanswers, hsound⟩ := hrun (fun _ => []) fun t =>
    ⟨Nat.zero_le _, fun _ he => absurd he List.not_mem_nil⟩
  exact ⟨hanswers, fun t => (hsound t).1⟩

theorem keyword_caches_transparent_twice :
    (runCalls Growth.exact (fun _ => [])
      [⟨0, [[], [108, 111, 103]], 0, [1], some [⟨some [108], .contains, false⟩]⟩,
        ⟨0, [[], [116]], 0, [1], some [⟨some [108], .contains, false⟩]⟩]).2 =
      [isMethodUsingStringsMatched Growth.exact [[], [108, 111, 103]] 0 [1]
        (some [⟨some [108], .contains, false⟩]),
      isMethodUsingStringsMatched Growth.exact [[], [116]] 0 [1]
        (some [⟨some [108], .contains, false⟩])] :=
  (keyword_caches_transparent Growth.exact (by simp [Call.Short])).1

end Dexllm
