import Dexllm.Lib.Recency
import Dexllm.JavaText
import Mathlib.Logic.Function.Basic

/-!
The text cache of the decompiler: a list of nodes, latest use first, and an
index whose keys are views of the keys in the nodes. A call holds the lock while
it looks its descriptor up and again while it inserts its text; between the two
it recomputes, and any other step may come.
-/

namespace Dexllm

open Recency

namespace Dad

/-- A node of `cache_list_`: its address, and the key and the text in it. -/
structure CacheNode where
  addr : Nat
  key : Text
  text : Text
deriving DecidableEq

/-- The cache of a `Decompiler`. An entry of `index` is the address of the node
whose key it views and that of the node it leads to. -/
structure TextCache where
  list : List CacheNode := []
  index : List (Nat × Nat) := []
  capacity : Nat := 4096

namespace TextCache

section Steps

variable (c : TextCache)

def node (addr : Nat) : Option CacheNode := c.list.find? fun n => n.addr = addr

/-- The key an entry of the index views. -/
def viewed (view : Nat) : Option Text := (c.node view).map CacheNode.key

/-- `cache_index_.find`, down to the node it leads to. -/
def find (key : Text) : Option CacheNode :=
  (c.index.find? fun e => c.viewed e.1 = some key).bind fun e => c.node e.2

/-- `cache_list_.splice` of a node to the front. -/
def splice (n : CacheNode) : TextCache := { c with list := n :: c.list.erase n }

/-- `cache_list_.emplace_front` and `cache_index_.emplace`. -/
def emplace (addr : Nat) (key text : Text) : TextCache :=
  let front : TextCache := { c with list := ⟨addr, key, text⟩ :: c.list }
  match front.index.find? fun e => front.viewed e.1 = some key with
  | some _ => front
  | none => { front with index := (addr, addr) :: front.index }

/-- `cache_index_.erase` of the key of the last node, and `pop_back`. -/
def popLast (n : CacheNode) : TextCache :=
  { c with
    list := c.list.dropLast
    index := c.index.filter fun e => c.viewed e.1 ≠ some n.key }

end Steps

/-- The eviction loop, at most `rounds` nodes of it. -/
def evictFrom : (rounds : Nat) → TextCache → TextCache
  | 0, c => c
  | rounds + 1, c =>
    if c.capacity ≠ 0 ∧ c.capacity < c.list.length then
      match c.list.getLast? with
      | some n => evictFrom rounds (c.popLast n)
      | none => c
    else c

def evict (c : TextCache) : TextCache := evictFrom c.list.length c

/-- The first critical section of `DecompileMethod`. -/
def lookup (c : TextCache) (key : Text) : TextCache × Option Text :=
  match c.find key with
  | some n => (c.splice n, some n.text)
  | none => (c, none)

/-- The second critical section, with the address of the node it allocates. -/
def insert (c : TextCache) (addr : Nat) (key result : Text) : TextCache × Text :=
  match c.find key with
  | some n => (c.splice n, n.text)
  | none => ((c.emplace addr key result).evict, result)

/-- `ClearCache`. -/
def clear (c : TextCache) : TextCache := { c with list := [], index := [] }

/-- `SetCacheCapacity`. -/
def setCapacity (c : TextCache) (cap : Nat) : TextCache := { c with capacity := cap }.evict

/-- The index leads from every key in the list to its own node, and from nothing
else. -/
structure Indexed (c : TextCache) : Prop where
  addrs_nodup : (c.list.map CacheNode.addr).Nodup
  keys_nodup : (c.list.map CacheNode.key).Nodup
  index_nodup : c.index.Nodup
  own_node : ∀ view addr, (view, addr) ∈ c.index ↔
    view = addr ∧ addr ∈ c.list.map CacheNode.addr

end TextCache

/-- Where a call of `DecompileMethod` is: before its first critical section,
between the two, or before the second with its text. -/
inductive Caller where
  | idle
  | missed (descriptor : Text)
  | computed (descriptor result : Text)
deriving DecidableEq

/-- A `Decompiler` in use: its cache, its callers, what they were given, and the
descriptors hit or inserted since the cache was cleared, latest first. -/
structure Decompiler where
  cache : TextCache := {}
  callers : Nat → Caller := fun _ => .idle
  returned : List (Text × Text) := []
  uses : List Text := []

inductive CacheStep where
  | lookup (caller : Nat) (descriptor : Text)
  | compute (caller : Nat)
  | insert (caller addr : Nat)
  | clearCache
  | setCacheCapacity (cap : Nat)

section Run

variable (locateMethod : Text → Option (Nat × Nat)) (runPipeline : Nat → Nat → Text)

/-- What an uncached call returns. -/
def decompiled (descriptor : Text) : Text :=
  match locateMethod descriptor with
  | some (dexId, methodIdx) => runPipeline dexId methodIdx
  | none => []

namespace Decompiler

/-- One step of one caller; `none` when the caller is elsewhere, or the address
is in use. -/
def step (d : Decompiler) : CacheStep → Option Decompiler
  | .lookup caller descriptor =>
    match d.callers caller with
    | .idle =>
      match d.cache.lookup descriptor with
      | (cache, some text) =>
        some { d with
          cache := cache
          returned := (descriptor, text) :: d.returned
          uses := descriptor :: d.uses }
      | (cache, none) =>
        some { d with
          cache := cache
          callers := Function.update d.callers caller (.missed descriptor) }
    | _ => none
  | .compute caller =>
    match d.callers caller with
    | .missed descriptor =>
      match locateMethod descriptor with
      | some (dexId, methodIdx) =>
        some { d with
          callers := Function.update d.callers caller
            (.computed descriptor (runPipeline dexId methodIdx)) }
      | none =>
        some { d with
          callers := Function.update d.callers caller .idle
          returned := (descriptor, []) :: d.returned }
    | _ => none
  | .insert caller addr =>
    match d.callers caller with
    | .computed descriptor result =>
      if addr ∈ d.cache.list.map CacheNode.addr then none
      else
        let (cache, text) := d.cache.insert addr descriptor result
        some { cache
               callers := Function.update d.callers caller .idle
               returned := (descriptor, text) :: d.returned
               uses := descriptor :: d.uses }
    | _ => none
  | .clearCache => some { d with cache := d.cache.clear, uses := [] }
  | .setCacheCapacity cap => some { d with cache := d.cache.setCapacity cap }

def run (d : Decompiler) (steps : List CacheStep) : Option Decompiler :=
  steps.foldlM (step locateMethod runPipeline) d

/-- What holds whenever the lock is free. -/
structure Coherent (d : Decompiler) : Prop where
  indexed : d.cache.Indexed
  mostRecent : MostRecent (d.cache.list.map CacheNode.key) d.uses
  bounded : d.cache.capacity ≠ 0 → d.cache.list.length ≤ d.cache.capacity
  cached : ∀ n ∈ d.cache.list, n.text = decompiled locateMethod runPipeline n.key
  computed : ∀ caller descriptor result, d.callers caller = .computed descriptor result →
    result = decompiled locateMethod runPipeline descriptor
  returned : ∀ r ∈ d.returned, r.2 = decompiled locateMethod runPipeline r.1

end Decompiler

end Run

namespace TextCache

variable {c : TextCache}

theorem mem_of_node {addr : Nat} {n : CacheNode} (h : c.node addr = some n) :
    n ∈ c.list ∧ n.addr = addr :=
  ⟨List.mem_of_find?_eq_some h, by simpa using List.find?_some h⟩

theorem Indexed.node_eq (h : c.Indexed) {n : CacheNode} (hn : n ∈ c.list) :
    c.node n.addr = some n := by
  cases hnode : c.node n.addr with
  | none =>
    have hne := List.find?_eq_none.mp hnode n hn
    simp at hne
  | some m =>
    obtain ⟨hm, haddr⟩ := mem_of_node hnode
    rw [List.inj_on_of_nodup_map h.addrs_nodup hm hn haddr]

theorem Indexed.viewed_eq_iff (h : c.Indexed) {view : Nat} {key : Text} :
    c.viewed view = some key ↔ ∃ n ∈ c.list, n.addr = view ∧ n.key = key := by
  constructor
  · intro hview
    obtain ⟨n, hnode, hkey⟩ := Option.map_eq_some_iff.mp hview
    obtain ⟨hn, haddr⟩ := mem_of_node hnode
    exact ⟨n, hn, haddr, hkey⟩
  · rintro ⟨n, hn, rfl, rfl⟩
    rw [viewed, h.node_eq hn, Option.map_some]

/-- The index finds exactly the nodes of the list, each under its key. -/
theorem Indexed.find_eq_some (h : c.Indexed) {key : Text} {n : CacheNode} :
    c.find key = some n ↔ n ∈ c.list ∧ n.key = key := by
  constructor
  · intro hfind
    obtain ⟨⟨view, addr⟩, hentry, hnode⟩ := Option.bind_eq_some_iff.mp hfind
    obtain ⟨rfl, -⟩ := (h.own_node view addr).mp (List.mem_of_find?_eq_some hentry)
    obtain ⟨hn, haddr⟩ := mem_of_node hnode
    obtain ⟨m, hm, haddr', hkey⟩ := h.viewed_eq_iff.mp (by simpa using List.find?_some hentry)
    obtain rfl := List.inj_on_of_nodup_map h.addrs_nodup hm hn (haddr'.trans haddr.symm)
    exact ⟨hn, hkey⟩
  · rintro ⟨hn, rfl⟩
    have hview := h.viewed_eq_iff.mpr ⟨n, hn, rfl, rfl⟩
    have hmem := (h.own_node n.addr n.addr).mpr ⟨rfl, List.mem_map_of_mem hn⟩
    cases hentry : c.index.find? fun e => c.viewed e.1 = some n.key with
    | none =>
      have hne := List.find?_eq_none.mp hentry _ hmem
      simp [hview] at hne
    | some e =>
      have hkey : c.viewed e.1 = some n.key := by simpa using List.find?_some hentry
      obtain ⟨heq, -⟩ := (h.own_node e.1 e.2).mp (List.mem_of_find?_eq_some hentry)
      obtain ⟨m, hm, haddr, hkey⟩ := h.viewed_eq_iff.mp hkey
      obtain rfl := List.inj_on_of_nodup_map h.keys_nodup hm hn hkey
      rw [find, hentry, Option.bind_some, ← heq, ← haddr, h.node_eq hm]

theorem Indexed.find_eq_none (h : c.Indexed) {key : Text} :
    c.find key = none ↔ key ∉ c.list.map CacheNode.key := by
  rw [Option.eq_none_iff_forall_ne_some]
  constructor
  · intro hnone hkey
    obtain ⟨n, hn, rfl⟩ := List.mem_map.mp hkey
    exact hnone n (h.find_eq_some.mpr ⟨hn, rfl⟩)
  · intro hkey n hfind
    obtain ⟨hn, rfl⟩ := h.find_eq_some.mp hfind
    exact hkey (List.mem_map_of_mem hn)

/-- The order of the nodes does not matter to the index. -/
theorem Indexed.perm (h : c.Indexed) {list : List CacheNode} (hperm : list.Perm c.list) :
    { c with list := list }.Indexed where
  addrs_nodup := (hperm.map _).nodup_iff.mpr h.addrs_nodup
  keys_nodup := (hperm.map _).nodup_iff.mpr h.keys_nodup
  index_nodup := h.index_nodup
  own_node view addr := by rw [(hperm.map _).mem_iff, h.own_node]

theorem Indexed.splice (h : c.Indexed) {n : CacheNode} (hn : n ∈ c.list) : (c.splice n).Indexed :=
  h.perm (List.perm_cons_erase hn).symm

theorem Indexed.emplace (h : c.Indexed) {addr : Nat} {key : Text} (text : Text)
    (haddr : addr ∉ c.list.map CacheNode.addr) (hkey : key ∉ c.list.map CacheNode.key) :
    c.emplace addr key text = { c with
      list := ⟨addr, key, text⟩ :: c.list
      index := (addr, addr) :: c.index } ∧ (c.emplace addr key text).Indexed := by
  have hview {e : Nat × Nat} (he : e ∈ c.index) :
      { c with list := ⟨addr, key, text⟩ :: c.list }.viewed e.1 ≠ some key := by
    obtain ⟨heq, hmem⟩ := (h.own_node e.1 e.2).mp he
    obtain ⟨n, hn, haddr'⟩ := List.mem_map.mp (heq ▸ hmem)
    have hne : addr ≠ e.1 := by
      rintro rfl
      exact haddr (heq ▸ hmem)
    have hnode : { c with list := ⟨addr, key, text⟩ :: c.list }.node e.1 = c.node e.1 := by
      simp [node, hne]
    intro hsome
    rw [viewed, hnode] at hsome
    obtain ⟨m, hm, -, rfl⟩ := h.viewed_eq_iff.mp hsome
    exact hkey (List.mem_map_of_mem hm)
  have heq : c.emplace addr key text = { c with
      list := ⟨addr, key, text⟩ :: c.list
      index := (addr, addr) :: c.index } := by
    have hnone : (c.index.find? fun e => { c with
        list := ⟨addr, key, text⟩ :: c.list }.viewed e.1 = some key) = none :=
      List.find?_eq_none.mpr fun e he => by simpa using hview he
    simp only [TextCache.emplace, hnone]
  refine ⟨heq, heq ▸ ⟨List.nodup_cons.mpr ⟨haddr, h.addrs_nodup⟩,
    List.nodup_cons.mpr ⟨hkey, h.keys_nodup⟩, List.nodup_cons.mpr ⟨?_, h.index_nodup⟩, ?_⟩⟩
  · intro hmem
    exact haddr ((h.own_node addr addr).mp hmem).2
  · intro view addr'
    simp only [List.mem_cons, Prod.mk.injEq, h.own_node, List.map_cons]
    constructor
    · rintro (⟨rfl, rfl⟩ | ⟨rfl, hmem⟩)
      · exact ⟨rfl, .inl rfl⟩
      · exact ⟨rfl, .inr hmem⟩
    · rintro ⟨rfl, rfl | hmem⟩
      · exact .inl ⟨rfl, rfl⟩
      · exact .inr ⟨rfl, hmem⟩

theorem Indexed.popLast (h : c.Indexed) {n : CacheNode} (hlast : c.list.getLast? = some n) :
    (c.popLast n).Indexed := by
  have hn := List.mem_of_getLast? hlast
  have hview (view : Nat) : view ∈ c.list.map CacheNode.addr →
      (c.viewed view = some n.key ↔ view = n.addr) := by
    intro hmem
    rw [h.viewed_eq_iff]
    constructor
    · rintro ⟨m, hm, rfl, hkey⟩
      rw [List.inj_on_of_nodup_map h.keys_nodup hm hn hkey]
    · rintro rfl
      exact ⟨n, hn, rfl, rfl⟩
  have hsub := List.dropLast_sublist c.list
  refine ⟨(hsub.map _).nodup h.addrs_nodup, (hsub.map _).nodup h.keys_nodup,
    h.index_nodup.filter _, fun view addr => ?_⟩
  simp only [TextCache.popLast, List.mem_filter, decide_eq_true_eq, h.own_node,
    mem_map_dropLast h.addrs_nodup hlast]
  constructor
  · rintro ⟨⟨rfl, hmem⟩, hne⟩
    exact ⟨rfl, hmem, fun heq => hne ((hview view hmem).mpr heq)⟩
  · rintro ⟨rfl, hmem, hne⟩
    exact ⟨⟨rfl, hmem⟩, fun heq => hne ((hview view hmem).mp heq)⟩

/-- The loop drops the last nodes until the capacity holds the others. -/
theorem Indexed.evictFrom (rounds : Nat) (h : c.Indexed) (hrounds : c.list.length ≤ rounds) :
    (evictFrom rounds c).Indexed ∧ (evictFrom rounds c).capacity = c.capacity ∧
      (evictFrom rounds c).list = if c.capacity = 0 then c.list else c.list.take c.capacity := by
  induction rounds generalizing c with
  | zero =>
    have hnil : c.list = [] := List.eq_nil_of_length_eq_zero (by omega)
    exact ⟨h, rfl, by simp [TextCache.evictFrom, hnil]⟩
  | succ rounds ih =>
    rw [TextCache.evictFrom]
    by_cases hover : c.capacity ≠ 0 ∧ c.capacity < c.list.length
    · have hne : c.list ≠ [] := List.ne_nil_of_length_pos (by omega)
      have hlast := List.getLast?_eq_getLast_of_ne_nil hne
      have hlength : (c.popLast (c.list.getLast hne)).list.length = c.list.length - 1 :=
        List.length_dropLast
      obtain ⟨hindexed, hcapacity, hlist⟩ := ih (h.popLast hlast) (by omega)
      simp only [if_pos hover, hlast]
      refine ⟨hindexed, hcapacity, hlist.trans ?_⟩
      have hzero : ¬c.capacity = 0 := hover.1
      simp only [TextCache.popLast, hzero, if_false]
      rw [List.dropLast_eq_take, List.take_take, Nat.min_eq_left (by omega)]
    · rw [if_neg hover]
      refine ⟨h, rfl, ?_⟩
      split
      · rfl
      · exact (List.take_of_length_le (by omega)).symm

theorem Indexed.evict (h : c.Indexed) : c.evict.Indexed ∧ c.evict.capacity = c.capacity ∧
    c.evict.list = if c.capacity = 0 then c.list else c.list.take c.capacity :=
  h.evictFrom _ le_rfl

end TextCache

section Run

variable {locateMethod : Text → Option (Nat × Nat)} {runPipeline : Nat → Nat → Text}

namespace Decompiler

variable {d : Decompiler}

/-- The bounds after an eviction. -/
theorem evicted {c : TextCache} {uses : List Text} (h : c.Indexed)
    (hrecent : MostRecent (c.list.map CacheNode.key) uses)
    (hcached : ∀ n ∈ c.list, n.text = decompiled locateMethod runPipeline n.key) :
    c.evict.Indexed ∧ MostRecent (c.evict.list.map CacheNode.key) uses ∧
      (c.evict.capacity ≠ 0 → c.evict.list.length ≤ c.evict.capacity) ∧
      ∀ n ∈ c.evict.list, n.text = decompiled locateMethod runPipeline n.key := by
  obtain ⟨hindexed, hcapacity, hlist⟩ := h.evict
  rw [hcapacity, hlist]
  refine ⟨hindexed, ?_⟩
  split
  · rename_i hzero
    exact ⟨hrecent, fun hne => absurd hzero hne, hcached⟩
  · refine ⟨?_, fun _ => List.length_take_le _ _, fun n hn => hcached n (List.mem_of_mem_take hn)⟩
    rw [List.map_take]
    exact hrecent.take _

theorem coherent_start : Coherent locateMethod runPipeline {} where
  indexed := ⟨.nil, .nil, .nil, by simp⟩
  mostRecent := .nil
  bounded := by simp
  cached := by simp
  computed := by simp
  returned := by simp

/-- A caller that is where `caller` may be. -/
theorem computed_update {callers : Nat → Caller} {i : Nat} {caller : Caller}
    (h : ∀ j descriptor result, callers j = .computed descriptor result →
      result = decompiled locateMethod runPipeline descriptor)
    (hcaller : ∀ descriptor result, caller = .computed descriptor result →
      result = decompiled locateMethod runPipeline descriptor) (j : Nat) (descriptor result : Text)
    (hj : Function.update callers i caller j = .computed descriptor result) :
    result = decompiled locateMethod runPipeline descriptor := by
  by_cases hij : j = i
  · subst hij
    rw [Function.update_self] at hj
    exact hcaller descriptor result hj
  · rw [Function.update_of_ne hij] at hj
    exact h j descriptor result hj

/-- A hit moves the node to the front and returns its text. -/
theorem Coherent.hit (h : Coherent locateMethod runPipeline d) {key : Text} {n : CacheNode}
    (hfind : d.cache.find key = some n) :
    (d.cache.splice n).Indexed ∧
      MostRecent ((d.cache.splice n).list.map CacheNode.key) (key :: d.uses) ∧
      ((d.cache.splice n).capacity ≠ 0 →
        (d.cache.splice n).list.length ≤ (d.cache.splice n).capacity) ∧
      (∀ m ∈ (d.cache.splice n).list, m.text = decompiled locateMethod runPipeline m.key) ∧
      n.text = decompiled locateMethod runPipeline key := by
  obtain ⟨hn, rfl⟩ := h.indexed.find_eq_some.mp hfind
  have hperm := List.perm_cons_erase hn
  refine ⟨h.indexed.splice hn, ?_, fun hzero => ?_, fun m hm => ?_, h.cached n hn⟩
  · rw [TextCache.splice, List.map_cons, map_erase_of_nodup h.indexed.keys_nodup hn]
    exact h.mostRecent.touch (List.mem_map_of_mem hn)
  · rw [TextCache.splice, ← hperm.length_eq]
    exact h.bounded hzero
  · exact h.cached m (hperm.symm.subset hm)

/-- What one step does keeps the cache coherent. -/
theorem Coherent.step (h : Coherent locateMethod runPipeline d) {a : CacheStep} {d' : Decompiler}
    (hstep : d.step locateMethod runPipeline a = some d') :
    Coherent locateMethod runPipeline d' := by
  cases a with
  | lookup caller descriptor =>
    simp only [Decompiler.step, TextCache.lookup] at hstep
    split at hstep
    · cases hfind : d.cache.find descriptor with
      | some n =>
        simp only [hfind, Option.some.injEq] at hstep
        subst hstep
        obtain ⟨hindexed, hrecent, hbounded, hcached, htext⟩ := h.hit hfind
        exact ⟨hindexed, hrecent, hbounded, hcached, h.computed,
          List.forall_mem_cons.mpr ⟨htext, h.returned⟩⟩
      | none =>
        simp only [hfind, Option.some.injEq] at hstep
        subst hstep
        exact ⟨h.indexed, h.mostRecent, h.bounded, h.cached,
          computed_update h.computed (by simp), h.returned⟩
    · simp at hstep
  | compute caller =>
    simp only [Decompiler.step] at hstep
    split at hstep
    · rename_i descriptor _
      cases hlocate : locateMethod descriptor with
      | some location =>
        simp only [hlocate, Option.some.injEq] at hstep
        subst hstep
        refine ⟨h.indexed, h.mostRecent, h.bounded, h.cached,
          computed_update h.computed ?_, h.returned⟩
        rintro _ _ ⟨⟩
        rw [decompiled, hlocate]
      | none =>
        simp only [hlocate, Option.some.injEq] at hstep
        subst hstep
        refine ⟨h.indexed, h.mostRecent, h.bounded, h.cached,
          computed_update h.computed (by simp), List.forall_mem_cons.mpr ⟨?_, h.returned⟩⟩
        simp only [decompiled, hlocate]
    · simp at hstep
  | insert caller addr =>
    simp only [Decompiler.step, TextCache.insert] at hstep
    split at hstep
    · rename_i descriptor result hcaller
      split at hstep
      · simp at hstep
      rename_i haddr
      have hresult := h.computed caller descriptor result hcaller
      cases hfind : d.cache.find descriptor with
      | some n =>
        simp only [hfind, Option.some.injEq] at hstep
        subst hstep
        obtain ⟨hindexed, hrecent, hbounded, hcached, htext⟩ := h.hit hfind
        exact ⟨hindexed, hrecent, hbounded, hcached, computed_update h.computed (by simp),
          List.forall_mem_cons.mpr ⟨htext, h.returned⟩⟩
      | none =>
        simp only [hfind, Option.some.injEq] at hstep
        subst hstep
        have hkey := h.indexed.find_eq_none.mp hfind
        obtain ⟨heq, hemplaced⟩ := h.indexed.emplace result haddr hkey
        have hlist := congrArg TextCache.list heq
        have hrecent : MostRecent ((d.cache.emplace addr descriptor result).list.map CacheNode.key)
            (descriptor :: d.uses) := by
          rw [hlist]
          exact h.mostRecent.insert hkey
        have hcached : ∀ n ∈ (d.cache.emplace addr descriptor result).list,
            n.text = decompiled locateMethod runPipeline n.key := by
          rw [hlist]
          exact List.forall_mem_cons.mpr ⟨hresult, h.cached⟩
        obtain ⟨hindexed, hrecent, hbounded, hcached⟩ := evicted hemplaced hrecent hcached
        exact ⟨hindexed, hrecent, hbounded, hcached, computed_update h.computed (by simp),
          List.forall_mem_cons.mpr ⟨hresult, h.returned⟩⟩
    · simp at hstep
  | clearCache =>
    obtain rfl := Option.some.inj hstep
    exact ⟨⟨.nil, .nil, .nil, by simp [TextCache.clear]⟩, .nil, by simp [TextCache.clear],
      by simp [TextCache.clear], h.computed, h.returned⟩
  | setCacheCapacity cap =>
    obtain rfl := Option.some.inj hstep
    have hindexed : { d.cache with capacity := cap }.Indexed :=
      ⟨h.indexed.addrs_nodup, h.indexed.keys_nodup, h.indexed.index_nodup, h.indexed.own_node⟩
    obtain ⟨hindexed, hrecent, hbounded, hcached⟩ := evicted hindexed h.mostRecent h.cached
    exact ⟨hindexed, hrecent, hbounded, hcached, h.computed, h.returned⟩

/-- Whatever the callers do, in whatever order their steps come, the index and
the list agree, the list is that of the last uses within the capacity, and every
call was given the text of its descriptor. -/
theorem text_cache_coherent (locateMethod : Text → Option (Nat × Nat))
    (runPipeline : Nat → Nat → Text) (steps : List CacheStep) (d : Decompiler)
    (hrun : run locateMethod runPipeline {} steps = some d) :
    Coherent locateMethod runPipeline d ∧
      (∀ key n, d.cache.find key = some n ↔ n ∈ d.cache.list ∧ n.key = key) ∧
      (d.cache.list.map CacheNode.key).Pairwise fun k l => d.uses.idxOf k < d.uses.idxOf l := by
  have hcoherent : ∀ (steps : List CacheStep) (start : Decompiler),
      Coherent locateMethod runPipeline start →
        run locateMethod runPipeline start steps = some d →
          Coherent locateMethod runPipeline d := by
    intro steps
    induction steps with
    | nil =>
      rintro start hstart ⟨⟩
      exact hstart
    | cons a steps ih =>
      intro start hstart hrun
      obtain ⟨next, hstep, hrest⟩ := Option.bind_eq_some_iff.mp hrun
      exact ih next (hstart.step hstep) hrest
  have h := hcoherent steps {} coherent_start hrun
  exact ⟨h, fun key n => h.indexed.find_eq_some, h.mostRecent.pairwise⟩

/-- Two callers miss the same descriptor, and a third one evicts it between
their inserts. -/
def raceSteps : List CacheStep := [
  .setCacheCapacity 1, .lookup 0 [0x61], .lookup 1 [0x61], .compute 1, .compute 0,
  .insert 0 7, .lookup 2 [0x62], .compute 2, .insert 2 8, .insert 1 7, .lookup 0 [0x61]]

theorem text_cache_coherent_race :
    ∃ d, run (fun descriptor => some (0, descriptor.length)) (fun _ m => List.replicate m 0x41)
        {} raceSteps = some d ∧
      d.cache.list = [⟨7, [0x61], [0x41]⟩] ∧
      d.returned = [([0x61], [0x41]), ([0x61], [0x41]), ([0x62], [0x41]), ([0x61], [0x41])] ∧
      ∀ key n, d.cache.find key = some n ↔ n ∈ d.cache.list ∧ n.key = key := by
  have hrun : (run (fun descriptor => some (0, descriptor.length))
      (fun _ m => List.replicate m 0x41) {} raceSteps).map (fun d => (d.cache.list, d.returned)) =
      some ([⟨7, [0x61], [0x41]⟩],
        [([0x61], [0x41]), ([0x61], [0x41]), ([0x62], [0x41]), ([0x61], [0x41])]) := by
    decide
  obtain ⟨d, hd, heq⟩ := Option.map_eq_some_iff.mp hrun
  obtain ⟨hlist, hreturned⟩ := Prod.mk.inj heq
  exact ⟨d, hd, hlist, hreturned, (text_cache_coherent _ _ raceSteps d hd).2.1⟩

end Decompiler

end Run

end Dad

end Dexllm
