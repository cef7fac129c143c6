import Mathlib.Data.List.Basic
import Mathlib.Logic.Function.Basic
import Mathlib.Logic.Relation

/-!
What a query makes for its matchers is owned by its context and freed with it. A thread
keeps the addresses in a table of its own, which it clears when it comes to another
query. In every interleaving of queries and threads the address a thread is given is that
of the object of its own query.
-/

namespace Dexllm.QueryCaches

open Relation

/-- `QueryCacheKey`. -/
structure QueryCacheKey where
  scope : UInt8
  key : Nat
  deriving DecidableEq

/-- What is stored for keys, by addresses. -/
abbrev Entries := List (QueryCacheKey × Nat)

/-- `MatcherThreadLocalQueryCache`; the values are addresses. -/
structure ThreadQueryCache where
  queryId : Nat := 0
  entries : Entries := []

/-- `Rebind`. -/
def ThreadQueryCache.rebind (c : ThreadQueryCache) (currentQueryId : Nat) : ThreadQueryCache :=
  if c.queryId ≠ currentQueryId then ⟨currentQueryId, []⟩ else c

/-- `Find`, and the lookup in `matcher_cache_`. -/
def find (entries : Entries) (cacheKey : QueryCacheKey) : Option Nat :=
  (entries.find? fun entry => entry.1 = cacheKey).map Prod.snd

/-- `Put`. -/
def put (cacheKey : QueryCacheKey) (value : Nat) : Entries → Entries
  | [] => [(cacheKey, value)]
  | entry :: entries =>
    if entry.1 = cacheKey then (entry.1, value) :: entries else entry :: put cacheKey value entries

/-- The contexts of the running queries by their `matcher_cache_`, the objects by their
addresses, and the tables of the threads. -/
structure State (V : Type) where
  nextQueryId : Nat := 1
  contexts : Nat → Option Entries := fun _ => none
  heap : Nat → Option V := fun _ => none
  threads : Nat → ThreadQueryCache := fun _ => {}

namespace State

variable {V : Type} (s : State V)

/-- `GetOrCreateMatcherCache`, under its lock; `address` is where `new` puts the object. -/
def getOrCreateMatcherCache (queryId : Nat) (matcherCache : Entries)
    (cacheKey : QueryCacheKey) (address : Nat) (value : V) : State V × Nat :=
  match find matcherCache cacheKey with
  | some found => (s, found)
  | none =>
    ({ s with
        contexts := Function.update s.contexts queryId (some ((cacheKey, address) :: matcherCache))
        heap := Function.update s.heap address (some value) }, address)

/-- `GetMatcherCache` on a thread that is bound to the query; no result without its
context. -/
def getMatcherCache (thread queryId : Nat) (cacheKey : QueryCacheKey) (address : Nat)
    (value : V) : Option (State V × Nat) := do
  let matcherCache ← s.contexts queryId
  let queryCache := (s.threads thread).rebind queryId
  match find queryCache.entries cacheKey with
  | some cached =>
    return ({ s with threads := Function.update s.threads thread queryCache }, cached)
  | none =>
    let (s, ptr) := s.getOrCreateMatcherCache queryId matcherCache cacheKey address value
    let queryCache := { queryCache with entries := put cacheKey ptr queryCache.entries }
    return ({ s with threads := Function.update s.threads thread queryCache }, ptr)

/-- The constructor of a context. -/
def start : State V :=
  { s with
    nextQueryId := s.nextQueryId + 1
    contexts := Function.update s.contexts s.nextQueryId (some []) }

/-- `ClearMatcherCaches`, from the destructor of a context. -/
def finish (queryId : Nat) (matcherCache : Entries) : State V :=
  { s with
    contexts := Function.update s.contexts queryId none
    heap := fun address => if address ∈ matcherCache.map Prod.snd then none else s.heap address }

/-- `ReleaseMatcherThreadLocalCaches` for a thread that has ended. -/
def release (thread : Nat) : State V :=
  { s with threads := Function.update s.threads thread {} }

end State

/-- A step of the system. What is made for a key of a query is `build` of both. -/
inductive Step {V : Type} (build : Nat → QueryCacheKey → V) : State V → State V → Prop where
  | start (s : State V) : Step build s s.start
  | call {s s' : State V} {thread queryId address ptr : Nat} {cacheKey : QueryCacheKey}
    (hfree : s.heap address = none)
    (hcall : s.getMatcherCache thread queryId cacheKey address (build queryId cacheKey) =
      some (s', ptr)) : Step build s s'
  | finish {s : State V} {queryId : Nat} {matcherCache : Entries}
    (hlive : s.contexts queryId = some matcherCache) : Step build s (s.finish queryId matcherCache)
  | release (s : State V) (thread : Nat) : Step build s (s.release thread)

section Tables

variable {entries : Entries} {cacheKey : QueryCacheKey} {value : Nat}

theorem mem_of_find (h : find entries cacheKey = some value) : (cacheKey, value) ∈ entries := by
  obtain ⟨entry, hentry, rfl⟩ := Option.map_eq_some_iff.mp h
  have hkey : entry.1 = cacheKey := by simpa using List.find?_some hentry
  rw [← hkey]
  exact List.mem_of_find?_eq_some hentry

theorem find_eq_none : find entries cacheKey = none ↔ ∀ entry ∈ entries, entry.1 ≠ cacheKey := by
  rw [find, Option.map_eq_none_iff, List.find?_eq_none]
  simp

theorem mem_put {entry : QueryCacheKey × Nat} (h : entry ∈ put cacheKey value entries) :
    entry ∈ entries ∨ entry = (cacheKey, value) := by
  induction entries with
  | nil => exact .inr (List.mem_singleton.mp h)
  | cons first entries ih =>
    rw [put] at h
    split at h
    next hkey =>
      rcases List.mem_cons.mp h with rfl | h
      · exact .inr (by rw [hkey])
      · exact .inl (List.mem_cons_of_mem _ h)
    · rcases List.mem_cons.mp h with rfl | h
      · exact .inl List.mem_cons_self
      · exact (ih h).imp_left (List.mem_cons_of_mem _)

end Tables

section Steps

variable {V : Type} {build : Nat → QueryCacheKey → V} {s s' : State V}

/-- Every object belongs to one running query, which made it for its key, and the table
of a thread has addresses of its query only. -/
structure Inv (build : Nat → QueryCacheKey → V) (s : State V) : Prop where
  pos : 0 < s.nextQueryId
  live : ∀ {q cache}, s.contexts q = some cache → 0 < q ∧ q < s.nextQueryId
  owned : ∀ {q cache}, s.contexts q = some cache → ∀ entry ∈ cache,
    s.heap entry.2 = some (build q entry.1)
  disjoint : ∀ {q q' cache cache'}, s.contexts q = some cache → s.contexts q' = some cache' →
    ∀ entry ∈ cache, ∀ entry' ∈ cache', entry.2 = entry'.2 → q = q'
  unique : ∀ {q cache}, s.contexts q = some cache → ∀ entry ∈ cache, ∀ entry' ∈ cache,
    entry.1 = entry'.1 → entry = entry'
  bound : ∀ t, (s.threads t).queryId < s.nextQueryId
  known : ∀ t {cache}, s.contexts (s.threads t).queryId = some cache →
    ∀ entry ∈ (s.threads t).entries, entry ∈ cache

theorem Inv.initial : Inv build {} where
  pos := Nat.one_pos
  live := by simp
  owned := by simp
  disjoint := by simp
  unique := by simp
  bound := by simp
  known := by simp

theorem Inv.getOrCreate (h : Inv build s) {q address : Nat} {cache : Entries}
    (hlive : s.contexts q = some cache) (cacheKey : QueryCacheKey)
    (hfree : s.heap address = none) {ptr : Nat}
    (hcall : s.getOrCreateMatcherCache q cache cacheKey address (build q cacheKey) = (s', ptr)) :
    Inv build s' ∧ s'.nextQueryId = s.nextQueryId ∧ s'.threads = s.threads ∧
      (∃ cache', s'.contexts q = some cache' ∧ cache ⊆ cache' ∧ (cacheKey, ptr) ∈ cache') ∧
      ∀ q', q' ≠ q → s'.contexts q' = s.contexts q' := by
  unfold State.getOrCreateMatcherCache at hcall
  split at hcall
  next found hfound =>
    obtain ⟨rfl, rfl⟩ := Prod.mk.inj hcall
    exact ⟨h, rfl, rfl, ⟨cache, hlive, fun _ he => he, mem_of_find hfound⟩, fun _ _ => rfl⟩
  next hmissing =>
    obtain ⟨rfl, rfl⟩ := Prod.mk.inj hcall
    have hself : Function.update s.contexts q (some ((cacheKey, address) :: cache)) q =
      some ((cacheKey, address) :: cache) := Function.update_self _ _ _
    have hother {q' : Nat} (hq : q' ≠ q) :
        Function.update s.contexts q (some ((cacheKey, address) :: cache)) q' = s.contexts q' :=
      Function.update_of_ne hq _ _
    -- no object in use is at the address
    have hapart {q' : Nat} {cache' : Entries}
        (hcache : s.contexts q' = some cache') {entry : QueryCacheKey × Nat}
        (he : entry ∈ cache') : entry.2 ≠ address := by
      intro heq
      have howned := h.owned hcache entry he
      rw [heq, hfree] at howned
      cases howned
    -- the cache of a query after the step is the one before it, or has the new entry
    have hcases {q' : Nat} {cache' : Entries}
        (hcache : Function.update s.contexts q (some ((cacheKey, address) :: cache)) q' =
          some cache') : ∃ old, s.contexts q' = some old ∧ ∀ entry ∈ cache',
            entry ∈ old ∨ q' = q ∧ entry = (cacheKey, address) := by
      by_cases hq : q' = q
      · subst hq
        rw [hself] at hcache
        obtain rfl := Option.some.inj hcache
        exact ⟨cache, hlive, fun entry he => (List.mem_cons.mp he).symm.imp_right (⟨rfl, ·⟩)⟩
      · rw [hother hq] at hcache
        exact ⟨cache', hcache, fun entry he => .inl he⟩
    refine ⟨⟨h.pos, ?_, ?_, ?_, ?_, h.bound, ?_⟩, rfl, rfl,
      ⟨_, hself, List.subset_cons_self _ _, List.mem_cons_self⟩, fun q' hq => hother hq⟩
    · intro q' cache' hcache
      obtain ⟨old, hold, -⟩ := hcases hcache
      exact h.live hold
    · intro q' cache' hcache entry he
      obtain ⟨old, hold, hentries⟩ := hcases hcache
      simp only
      rcases hentries entry he with he | ⟨rfl, rfl⟩
      · rw [Function.update_of_ne (hapart hold he), h.owned hold entry he]
      · rw [Function.update_self]
    · intro q₁ q₂ cache₁ cache₂ hcache₁ hcache₂ entry he entry' he' heq
      obtain ⟨old₁, hold₁, hentries₁⟩ := hcases hcache₁
      obtain ⟨old₂, hold₂, hentries₂⟩ := hcases hcache₂
      rcases hentries₁ entry he with he | ⟨rfl, rfl⟩
      · rcases hentries₂ entry' he' with he' | ⟨rfl, rfl⟩
        · exact h.disjoint hold₁ hold₂ entry he entry' he' heq
        · exact absurd heq (hapart hold₁ he)
      · rcases hentries₂ entry' he' with he' | ⟨rfl, rfl⟩
        · exact absurd heq.symm (hapart hold₂ he')
        · rfl
    · intro q' cache' hcache entry he entry' he' heq
      obtain ⟨old, hold, hentries⟩ := hcases hcache
      have hnew {e : QueryCacheKey × Nat} (hq : q' = q) (he : e ∈ old) : e.1 ≠ cacheKey := by
        subst hq
        obtain rfl := Option.some.inj (hlive.symm.trans hold)
        exact find_eq_none.mp hmissing e he
      rcases hentries entry he with he | ⟨hq, rfl⟩
      · rcases hentries entry' he' with he' | ⟨hq, rfl⟩
        · exact h.unique hold entry he entry' he' heq
        · exact absurd heq (hnew hq he)
      · rcases hentries entry' he' with he' | ⟨hq, rfl⟩
        · exact absurd heq.symm (hnew hq he')
        · rfl
    · intro t cache' hcache entry he
      simp only at hcache he
      by_cases hq : (s.threads t).queryId = q
      · rw [hq, hself] at hcache
        obtain rfl := Option.some.inj hcache
        exact List.mem_cons_of_mem _ (h.known t (hq ▸ hlive) entry he)
      · rw [hother hq] at hcache
        exact h.known t hcache entry he

/-- A thread may take any table of a running query with entries of its cache. -/
theorem Inv.setThread (h : Inv build s) {q : Nat} {cache : Entries}
    (hlive : s.contexts q = some cache) (thread : Nat) {c : ThreadQueryCache}
    (hq : c.queryId = q) (hentries : ∀ entry ∈ c.entries, entry ∈ cache) :
    Inv build { s with threads := Function.update s.threads thread c } := by
  refine ⟨h.pos, h.live, h.owned, h.disjoint, h.unique, fun t => ?_, fun t cache' hcache => ?_⟩
  · simp only
    by_cases ht : t = thread
    · rw [ht, Function.update_self, hq]
      exact (h.live hlive).2
    · rw [Function.update_of_ne ht]
      exact h.bound t
  · simp only at hcache ⊢
    by_cases ht : t = thread
    · rw [ht, Function.update_self] at hcache ⊢
      rw [hq, hlive] at hcache
      obtain rfl := Option.some.inj hcache
      exact hentries
    · rw [Function.update_of_ne ht] at hcache ⊢
      exact h.known t hcache

theorem Inv.rebind (h : Inv build s) {q : Nat} {cache : Entries}
    (hlive : s.contexts q = some cache) (thread : Nat) :
    ((s.threads thread).rebind q).queryId = q ∧
      ∀ entry ∈ ((s.threads thread).rebind q).entries, entry ∈ cache := by
  unfold ThreadQueryCache.rebind
  split
  next hne => exact ⟨rfl, fun _ he => absurd he List.not_mem_nil⟩
  next heq =>
    have heq := not_not.mp heq
    exact ⟨heq, h.known thread (heq ▸ hlive)⟩

/-- What a call changes: the query has the key at the address that it gives, and the other
queries are as they were. -/
theorem Inv.call (h : Inv build s) {thread q address ptr : Nat} {cacheKey : QueryCacheKey}
    (hfree : s.heap address = none)
    (hcall : s.getMatcherCache thread q cacheKey address (build q cacheKey) = some (s', ptr)) :
    Inv build s' ∧ s'.nextQueryId = s.nextQueryId ∧
      (∃ cache cache', s.contexts q = some cache ∧ s'.contexts q = some cache' ∧
        cache ⊆ cache' ∧ (cacheKey, ptr) ∈ cache') ∧
      ∀ q', q' ≠ q → s'.contexts q' = s.contexts q' := by
  unfold State.getMatcherCache at hcall
  obtain ⟨cache, hlive, hcall⟩ := Option.bind_eq_some_iff.mp hcall
  obtain ⟨hqueryId, hentries⟩ := h.rebind hlive thread
  simp only at hcall
  split at hcall
  next cached hcached =>
    obtain ⟨rfl, rfl⟩ := Prod.mk.inj (Option.some.inj hcall)
    exact ⟨h.setThread hlive thread hqueryId hentries, rfl,
      ⟨cache, cache, hlive, hlive, fun _ he => he, hentries _ (mem_of_find hcached)⟩,
      fun _ _ => rfl⟩
  next hmissing =>
    obtain ⟨⟨s₁, ptr₁⟩, hcreate⟩ : ∃ made,
      s.getOrCreateMatcherCache q cache cacheKey address (build q cacheKey) = made := ⟨_, rfl⟩
    rw [hcreate] at hcall
    obtain ⟨rfl, rfl⟩ := Prod.mk.inj (Option.some.inj hcall)
    obtain ⟨hinv, hnext, hthreads, ⟨cache', hcache', hsubset, hmem⟩, hothers⟩ :=
      h.getOrCreate hlive cacheKey hfree hcreate
    refine ⟨hinv.setThread hcache' thread hqueryId fun entry he => ?_, hnext,
      ⟨cache, cache', hlive, hcache', hsubset, hmem⟩, hothers⟩
    rcases mem_put he with he | rfl
    · exact hsubset (hentries entry he)
    · exact hmem

theorem Inv.start (h : Inv build s) : Inv build s.start := by
  have hnext : s.contexts s.nextQueryId = none := by
    cases hcache : s.contexts s.nextQueryId with
    | none => rfl
    | some cache => exact absurd (h.live hcache).2 (Nat.lt_irrefl _)
  have hcases {q : Nat} {cache : Entries}
      (hcache : s.start.contexts q = some cache) :
      q = s.nextQueryId ∧ cache = [] ∨ s.contexts q = some cache := by
    unfold State.start at hcache
    by_cases hq : q = s.nextQueryId
    · subst hq
      simp only [Function.update_self, Option.some.injEq] at hcache
      exact .inl ⟨rfl, hcache.symm⟩
    · simp only [Function.update_of_ne hq] at hcache
      exact .inr hcache
  refine ⟨Nat.succ_pos _, ?_, ?_, ?_, ?_, fun t => Nat.lt_succ_of_lt (h.bound t), ?_⟩
  · intro q cache hcache
    rcases hcases hcache with ⟨rfl, -⟩ | hcache
    · exact ⟨h.pos, Nat.lt_succ_self _⟩
    · exact ⟨(h.live hcache).1, Nat.lt_succ_of_lt (h.live hcache).2⟩
  · intro q cache hcache entry he
    rcases hcases hcache with ⟨-, rfl⟩ | hcache
    · exact absurd he List.not_mem_nil
    · exact h.owned hcache entry he
  · intro q q' cache cache' hcache hcache' entry he entry' he' heq
    rcases hcases hcache with ⟨-, rfl⟩ | hcache
    · exact absurd he List.not_mem_nil
    · rcases hcases hcache' with ⟨-, rfl⟩ | hcache'
      · exact absurd he' List.not_mem_nil
      · exact h.disjoint hcache hcache' entry he entry' he' heq
  · intro q cache hcache entry he entry' he' heq
    rcases hcases hcache with ⟨-, rfl⟩ | hcache
    · exact absurd he List.not_mem_nil
    · exact h.unique hcache entry he entry' he' heq
  · intro t cache hcache entry he
    rcases hcases hcache with ⟨hq, -⟩ | hcache
    · exact absurd (h.bound t) (hq ▸ Nat.lt_irrefl _)
    · exact h.known t hcache entry he

theorem Inv.finish (h : Inv build s) {q : Nat} {cache : Entries}
    (hlive : s.contexts q = some cache) : Inv build (s.finish q cache) := by
  have hcases {q' : Nat} {cache' : Entries}
      (hcache : (s.finish q cache).contexts q' = some cache') :
      q' ≠ q ∧ s.contexts q' = some cache' := by
    unfold State.finish at hcache
    by_cases hq : q' = q
    · subst hq
      simp only [Function.update_self] at hcache
      cases hcache
    · simp only [Function.update_of_ne hq] at hcache
      exact ⟨hq, hcache⟩
  refine ⟨h.pos, ?_, ?_, ?_, ?_, h.bound, ?_⟩
  · exact fun hcache => h.live (hcases hcache).2
  · intro q' cache' hcache entry he
    obtain ⟨hq, hcache⟩ := hcases hcache
    have hkept : entry.2 ∉ cache.map Prod.snd := by
      intro hmem
      obtain ⟨entry', he', heq⟩ := List.mem_map.mp hmem
      exact hq (h.disjoint hcache hlive entry he entry' he' heq.symm)
    simp only [State.finish, if_neg hkept]
    exact h.owned hcache entry he
  · exact fun hcache hcache' => h.disjoint (hcases hcache).2 (hcases hcache').2
  · exact fun hcache => h.unique (hcases hcache).2
  · exact fun t cache' hcache => h.known t (hcases hcache).2

theorem Inv.release (h : Inv build s) (thread : Nat) : Inv build (s.release thread) := by
  refine ⟨h.pos, h.live, h.owned, h.disjoint, h.unique, fun t => ?_, fun t cache hcache => ?_⟩
  · simp only [State.release]
    by_cases ht : t = thread
    · rw [ht, Function.update_self]
      exact h.pos
    · rw [Function.update_of_ne ht]
      exact h.bound t
  · simp only [State.release] at hcache ⊢
    by_cases ht : t = thread
    · rw [ht, Function.update_self]
      simp
    · rw [Function.update_of_ne ht] at hcache ⊢
      exact h.known t hcache

theorem Inv.step (h : Inv build s) (hstep : Step build s s') : Inv build s' := by
  cases hstep with
  | start => exact h.start
  | call hfree hcall => exact (h.call hfree hcall).1
  | finish hlive => exact h.finish hlive
  | release thread => exact h.release thread

theorem Inv.run (h : Inv build s) (hrun : ReflTransGen (Step build) s s') : Inv build s' := by
  induction hrun with
  | refl => exact h
  | tail _ hstep ih => exact ih.step hstep

/-- The query has this entry as long as it runs. -/
def Keeps (q : Nat) (entry : QueryCacheKey × Nat) (s : State V) : Prop :=
  q < s.nextQueryId ∧ ∀ cache, s.contexts q = some cache → entry ∈ cache

theorem Keeps.step {q : Nat} {entry : QueryCacheKey × Nat} (hkeeps : Keeps q entry s)
    (h : Inv build s) (hstep : Step build s s') : Keeps q entry s' := by
  cases hstep with
  | start =>
    refine ⟨Nat.lt_succ_of_lt hkeeps.1, fun cache hcache => hkeeps.2 cache ?_⟩
    simp only [State.start] at hcache
    rwa [Function.update_of_ne (Nat.ne_of_lt hkeeps.1)] at hcache
  | @call _ thread q' address ptr cacheKey hfree hcall =>
    obtain ⟨-, hnext, ⟨cache, cache', hcache, hcache', hsubset, -⟩, hothers⟩ := h.call hfree hcall
    refine ⟨hnext ▸ hkeeps.1, fun cache'' hcache'' => ?_⟩
    by_cases hq : q = q'
    · subst hq
      obtain rfl := Option.some.inj (hcache'.symm.trans hcache'')
      exact hsubset (hkeeps.2 cache hcache)
    · rw [hothers q hq] at hcache''
      exact hkeeps.2 cache'' hcache''
  | @finish q' cache hlive =>
    refine ⟨hkeeps.1, fun cache' hcache' => hkeeps.2 cache' ?_⟩
    simp only [State.finish] at hcache'
    by_cases hq : q = q'
    · subst hq
      rw [Function.update_self] at hcache'
      cases hcache'
    · rwa [Function.update_of_ne hq] at hcache'
  | release thread => exact hkeeps

theorem Keeps.run {q : Nat} {entry : QueryCacheKey × Nat} (hkeeps : Keeps q entry s)
    (h : Inv build s) (hrun : ReflTransGen (Step build) s s') : Keeps q entry s' := by
  induction hrun with
  | refl => exact hkeeps
  | tail hrun hstep ih => exact ih.step (h.run hrun) hstep

end Steps

/-- In every run the address that a call gives is, from then on and as long as the query
runs, that of the object made for its key of its query, and every later call of any
thread for the key gives it again. -/
theorem matcher_cache_safe {V : Type} (build : Nat → QueryCacheKey → V) {s s' : State V}
    (hreach : ReflTransGen (Step build) {} s) {thread q address ptr : Nat}
    {cacheKey : QueryCacheKey} (hfree : s.heap address = none)
    (hcall : s.getMatcherCache thread q cacheKey address (build q cacheKey) = some (s', ptr))
    {later : State V} (hrun : ReflTransGen (Step build) s' later)
    (hlive : later.contexts q ≠ none) :
    later.heap ptr = some (build q cacheKey) ∧
      ∀ thread' address' last ptr', later.heap address' = none →
        later.getMatcherCache thread' q cacheKey address' (build q cacheKey) = some (last, ptr') →
        ptr' = ptr := by
  have h : Inv build s := Inv.initial.run hreach
  obtain ⟨hinv, hnext, ⟨cache, cache', hcache, hcache', -, hmem⟩, -⟩ := h.call hfree hcall
  have hkeeps : Keeps q (cacheKey, ptr) s' := by
    refine ⟨hnext ▸ (h.live hcache).2, fun cache'' hcache'' => ?_⟩
    obtain rfl := Option.some.inj (hcache'.symm.trans hcache'')
    exact hmem
  have hlater := hinv.run hrun
  have hkept := hkeeps.run hinv hrun
  obtain ⟨found, hfound⟩ := Option.ne_none_iff_exists'.mp hlive
  refine ⟨hlater.owned hfound _ (hkept.2 found hfound), ?_⟩
  intro thread' address' last ptr' hfree' hcall'
  obtain ⟨hinv', -, ⟨old, new, hold, hnew, hsubset, hmem'⟩, -⟩ := hlater.call hfree' hcall'
  have hentry := hsubset (hkept.2 old hold)
  exact congrArg Prod.snd (hinv'.unique hnew _ hmem' _ hentry rfl)

theorem matcher_cache_safe_first :
    ∃ s' : State Nat, (State.start {}).getMatcherCache 7 1 ⟨0, 0x40⟩ 0x80 42 = some (s', 0x80) ∧
      s'.heap 0x80 = some 42 :=
  have hcall : (State.start {}).getMatcherCache 7 1 ⟨0, 0x40⟩ 0x80 42 = some (_, 0x80) := rfl
  ⟨_, hcall, (matcher_cache_safe (fun _ _ => 42) (.single (.start {})) rfl hcall .refl
    (by simp)).1⟩

end Dexllm.QueryCaches
