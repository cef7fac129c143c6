import Dexllm.Search.InsertSteps

/-!
The transitions that the finished double array has are those of the trie.
-/

namespace Dexllm.AhoCorasick

open LevelQueue SuffixChain

namespace Building

variable (b : Building)

/-- `LosWeight`. -/
def losWeight : Building := b.resize (b.size + 512)

def baseAt (p : Nat) : Option Int := if p < b.allocSize then some (b.base p) else none

/-- `TransitionWithRoot`; the inner `none` is -1. -/
def transitionWithRoot (nodePos : Nat) (c : UInt8) : Option (Option Nat) := do
  let c := lower c
  let base ← b.baseAt nodePos
  let p := base + c.toNat + 1
  if p < 0 then none
  else
    if base ≠ (← b.checkAt p.toNat) then return if nodePos = 0 then some 0 else none
    return some p.toNat

end Building

/-- The double array has the transitions of the trie. -/
structure Finished (keywords : List Text) (b : Building) : Prop where
  root : b.index [] = 0
  lt : ∀ u, Node keywords u → b.index u < b.size + 1
  inj : ∀ u v, Node keywords u → Node keywords v → b.index u = b.index v → u = v
  next : ∀ u c, Node keywords (u ++ [lower c]) →
    b.losWeight.transitionWithRoot (b.index u) c = some (some (b.index (u ++ [lower c])))
  stay : ∀ c, ¬Node keywords [lower c] → b.losWeight.transitionWithRoot 0 c = some (some 0)
  fail : ∀ u c, Node keywords u → u ≠ [] → ¬Node keywords (u ++ [lower c]) →
    b.losWeight.transitionWithRoot (b.index u) c = some none

section Layout

variable {keywords : List Text} {t : Trie} (hbuilt : Built keywords t) {placed : List State}
  {begin : State → Nat} {b : Building}
include hbuilt

theorem Layout.owner_iff (h : Layout keywords t placed begin b) {u : State} (hu : u ∈ placed)
    {c : UInt8} : b.check (begin u + c.toNat + 1) = begin u ↔ Node keywords (u ++ [c]) := by
  have hpositive := h.begin_pos u hu
  constructor
  · intro hcheck
    obtain ⟨v, hv, s, hs, hp, hown⟩ := h.owner (begin u + c.toNat + 1) (by omega)
    obtain rfl := h.injective u hu v hv (hcheck.symm.trans hown)
    have hcode : s.code = c.toNat + 1 := by omega
    cases s with
    | fakeNode emit => cases hcode
    | success d w =>
      obtain rfl : d = c := UInt8.toNat_inj.mp (Nat.succ.inj hcode)
      exact ((success_mem_fetch hbuilt).mp hs).1
  · intro hnode
    exact h.filled u hu _ ((success_mem_fetch hbuilt).mpr ⟨hnode, rfl⟩)

theorem Layout.index_lt_size (h : Layout keywords t placed begin b) {u : State} (hu : u ∈ placed) :
    b.index u < b.size := by
  have := h.below u hu
  rcases List.eq_nil_or_concat u with rfl | ⟨p, c, rfl⟩
  · rw [h.root]
    omega
  · rw [List.concat_eq_append] at hu ⊢
    have hroom := h.room p (h.closed p c hu) _
      ((success_mem_fetch hbuilt).mpr ⟨h.node _ hu, rfl⟩)
    simp only [Sibling.code] at hroom
    rw [h.index p (h.closed p c hu) c (h.node _ hu)]
    omega

theorem Layout.transition (h : Layout keywords t placed begin b) {u : State} (hu : u ∈ placed)
    (c : UInt8) : b.losWeight.transitionWithRoot (b.index u) c =
      some (if b.check (begin u + (lower c).toNat + 1) = begin u
        then some (begin u + (lower c).toNat + 1)
        else if b.index u = 0 then some 0 else none) := by
  have hindex := h.index_lt_size hbuilt hu
  have hbelow := h.below u hu
  have hc := (lower c).toNat_lt
  have hbase : b.losWeight.baseAt (b.index u) = some (begin u : Int) := by
    rw [Building.baseAt, Building.losWeight, if_pos (by simp only [Building.resize]; omega)]
    simp only [Building.resize]
    rw [if_pos (by omega), h.base u hu]
  have hcast : ((begin u : Int) + ((lower c).toNat : Int) + 1) =
      ((begin u + (lower c).toNat + 1 : Nat) : Int) := by push_cast; rfl
  have hcheck : b.losWeight.checkAt (begin u + (lower c).toNat + 1) =
      some (b.check (begin u + (lower c).toNat + 1)) := by
    rw [Building.checkAt, Building.losWeight, if_pos (by simp only [Building.resize]; omega)]
    simp only [Building.resize]
    rw [if_pos (by omega)]
  simp only [Building.transitionWithRoot, hbase, Option.bind_eq_bind, Option.bind_some, hcast,
    Int.toNat_natCast, hcheck]
  rw [if_neg (by omega)]
  by_cases heq : b.check (begin u + (lower c).toNat + 1) = begin u
  · rw [if_neg (by rw [heq]; exact not_not.mpr rfl), if_pos heq]
    rfl
  · rw [if_pos (fun hcast => heq (Int.natCast_inj.mp hcast).symm), if_neg heq]
    rfl

theorem Layout.finished (h : Layout keywords t placed begin b)
    (hall : ∀ u, Node keywords u → u ∈ placed) : Finished keywords b where
  root := h.root
  lt u hu := (h.index_lt_size hbuilt (hall u hu)).trans (Nat.lt_succ_self _)
  inj u v hu hv heq := by
    have hreached {w : State} (hw : Node keywords w) :
        w = [] ∨ ∃ x ∈ placed, ∃ c, Node keywords (x ++ [c]) ∧ w = x ++ [c] := by
      rcases List.eq_nil_or_concat w with rfl | ⟨x, c, rfl⟩
      · exact .inl rfl
      · rw [List.concat_eq_append] at hw ⊢
        exact .inr ⟨x, h.closed x c (hall _ hw), c, hw, rfl⟩
    exact h.index_inj hbuilt (hreached hu) (hreached hv) heq
  next u c hnode := by
    have hu := hall u ((prefixClosed_node keywords).closed u _ hnode)
    rw [h.transition hbuilt hu, if_pos ((h.owner_iff hbuilt hu).mpr hnode),
      h.index u hu _ hnode]
  stay c hmiss := by
    have hroot := hall [] (.inl rfl)
    have htransition := h.transition hbuilt hroot c
    rw [if_neg fun heq => hmiss ((h.owner_iff hbuilt hroot).mp heq), h.root] at htransition
    exact htransition
  fail u c hu hne hmiss := by
    have hplaced := hall u hu
    rw [h.transition hbuilt hplaced, if_neg fun heq => hmiss ((h.owner_iff hbuilt hplaced).mp heq),
      if_neg]
    intro hzero
    rcases List.eq_nil_or_concat u with rfl | ⟨p, c, rfl⟩
    · exact hne rfl
    · rw [List.concat_eq_append] at hu hplaced hzero
      rw [h.index p (h.closed p c hplaced) c hu] at hzero
      omega

omit hbuilt in
theorem layout_start (siz : Nat) : Layout keywords t [] (fun _ => 0)
    { allocSize := 512 * 32, keySize := siz, base := Function.update (fun _ => 0) 0 1 } where
  alloc := Nat.le_refl _
  size_le := Nat.zero_le _
  node := by simp
  closed := by simp
  begin_pos := by simp
  injective := by simp
  used := by simp
  owner := by simp
  filled := by simp
  room := by simp
  below := by simp
  usedAll := by simp
  root := rfl
  index := by simp
  base := by simp

/-- `BuildDoubleArrayTrie` comes to an end, and the double array it leaves has the
transitions of the trie. -/
theorem exists_buildDoubleArrayTrie (g : Growth) (siz : Nat) :
    ∃ b, t.buildDoubleArrayTrie g siz (letters keywords + 1) = some b ∧ Finished keywords b := by
  unfold Trie.buildDoubleArrayTrie
  by_cases hempty : t.fetch [] = []
  · rw [if_pos hempty]
    have honly (u : State) (hu : Node keywords u) : u = [] := by
      induction u with
      | nil => rfl
      | cons c u =>
        have hc : Node keywords [c] := by
          rcases hu with hnil | ⟨k, hk, hpre⟩
          · cases hnil
          · exact .inr ⟨k, hk, (List.prefix_append [c] u).trans hpre⟩
        have hmem := (@success_mem_fetch _ _ hbuilt [] [c] c).mpr ⟨hc, rfl⟩
        rw [hempty] at hmem
        cases hmem
    refine ⟨_, rfl, rfl, fun _ _ => Nat.succ_pos _, fun u v hu hv _ => ?_, fun u c hnode => ?_,
      fun c _ => ?_, fun u c hu hne => absurd (honly u hu) hne⟩
    · rw [honly u hu, honly v hv]
    · exact absurd (honly _ hnode) (by simp)
    · have hc := (lower c).toNat_lt
      have hcast : (1 : Int) + (lower c).toNat + 1 = ((lower c).toNat + 2 : Nat) := by omega
      simp only [Building.transitionWithRoot, Building.baseAt, Building.checkAt,
        Building.losWeight, Building.resize, Nat.zero_add, Nat.reduceLT, if_true,
        Function.update_self, Option.bind_eq_bind, Option.bind_some, hcast, Int.toNat_natCast]
      rw [if_neg (by omega), if_pos (by omega), ite_self]
      rfl
  · rw [if_neg hempty]
    obtain ⟨b, begin, hb, hlayout⟩ := foldlM_insert hbuilt g []
      (order t.children [[]] (letters keywords + 1)) rfl hempty (layout_start siz)
      fun _ => ⟨rfl, rfl, rfl⟩
    have hpushed : t.pushed = t.children := funext fun u => pushed_eq hbuilt
    refine ⟨b, ?_, hlayout.finished hbuilt fun u hu => ?_⟩
    · rw [hpushed]
      exact run_levels hb (level_end hbuilt) (length_order_le hbuilt)
    · exact List.mem_reverse.mpr ((mem_order_iff hbuilt).mpr hu)

end Layout

end Dexllm.AhoCorasick

/-!
The failure of a state is the longest of its shorter suffixes that is a state, and its
output has the keywords that end there.
-/

namespace Dexllm.AhoCorasick

open LevelQueue SuffixChain

/-- `Next`; no state is the null pointer. -/
def Trie.next (t : Trie) (s : State) (ch : UInt8) : Option State :=
  if ch ∈ t.success s then some (s ++ [ch]) else if s = [] then some [] else none

/-- The `failure` and the `emits` of the states, and the vectors `fail` and `output`. -/
structure Failures where
  failure : State → Option State := fun _ => none
  emits : State → List Nat
  fail : Nat → Nat := fun _ => 0
  output : Nat → List Nat := fun _ => []

/-- `AddEmit` of the numbers of a set. -/
def addEmits (emits emitSet : List Nat) : List Nat :=
  emitSet.foldl (fun emits i => if i ∈ emits then emits else emits.orderedInsert (· ≥ ·) i) emits

namespace Failures

variable (t : Trie) (b : Building)

/-- `SetFailure`. -/
def setFailure (fs : Failures) (s failState : State) : Option Failures :=
  if b.index s < b.size + 1 then
    some { fs with
      failure := Function.update fs.failure s (some failState)
      fail := Function.update fs.fail (b.index s) (b.index failState) }
  else none

/-- `ConstructOutput`. -/
def constructOutput (fs : Failures) (targetState : State) : Option Failures :=
  if fs.emits targetState = [] then some fs
  else if b.index targetState < b.size + 1 then
    some { fs with
      output := Function.update fs.output (b.index targetState) (fs.emits targetState) }
  else none

/-- The loop that follows the failures up to a state with a successor, and the
successor. -/
def traceFailure (failure : State → Option State) :
    (fuel : Nat) → Option State → (c : UInt8) → Option State
  | 0, _, _ => none
  | _ + 1, none, _ => none
  | fuel + 1, some traceFailureState, c =>
    match t.next traceFailureState c with
    | some newFailureState => some newFailureState
    | none => traceFailure failure fuel (failure traceFailureState) c

/-- The round of a state of depth 1. -/
def linkDepthOne (fs : Failures) (depthOneState : State) : Option Failures := do
  let fs ← fs.setFailure b depthOneState []
  fs.constructOutput b depthOneState

/-- The round of a successor of the state taken from the queue. -/
def linkTarget (currentState : State) (fs : Failures) (c : UInt8) : Option Failures := do
  let targetState := currentState ++ [c]
  let newFailureState ← traceFailure t fs.failure (currentState.length + 1)
    (fs.failure currentState) c
  let fs ← fs.setFailure b targetState newFailureState
  let fs := { fs with
    emits := Function.update fs.emits targetState
      (addEmits (fs.emits targetState) (fs.emits newFailureState)) }
  fs.constructOutput b targetState

end Failures

/-- `ConstructFailureStates`, with an end to the loop after `fuel` rounds. -/
def Trie.constructFailureStates (t : Trie) (b : Building) (fuel : Nat) : Option Failures := do
  let fs ← (t.children []).foldlM (Failures.linkDepthOne b) { emits := t.emits }
  let visit (fs : Failures) (currentState : State) :=
    (t.success currentState).foldlM (Failures.linkTarget t b currentState) fs
  run visit t.children fuel fs (t.children [])

theorem mem_addEmits {emits emitSet : List Nat} {j : Nat} :
    j ∈ addEmits emits emitSet ↔ j ∈ emits ∨ j ∈ emitSet := by
  rw [addEmits]
  induction emitSet generalizing emits with
  | nil => simp
  | cons i emitSet ih =>
    rw [List.foldl_cons, ih]
    split
    next hmem =>
      rw [List.mem_cons]
      refine ⟨Or.imp_right .inr, fun h => ?_⟩
      rcases h with h | rfl | h
      · exact .inl h
      · exact .inl hmem
      · exact .inr h
    · rw [List.mem_orderedInsert, List.mem_cons, or_assoc, or_left_comm]

/-- What the states that are `done` have. A keyword without letters is in the output
of some states and not of others. -/
structure Linked (keywords : List Text) (t : Trie) (b : Building) (done : State → Prop)
    (fs : Failures) : Prop where
  node : ∀ u, done u → Node keywords u ∧ u ≠ []
  failure : ∀ u, done u → ∃ f, fs.failure u = some f ∧ fs.fail (b.index u) = b.index f ∧
    Longest (Node keywords) u.tail f
  untouched : ∀ u, ¬done u → fs.emits u = t.emits u
  sound : ∀ u, done u → ∀ j ∈ fs.emits u, ∃ k, keywords[j]? = some k ∧ k.map lower <:+ u
  complete : ∀ u, done u → ∀ j k, keywords[j]? = some k → k ≠ [] → k.map lower <:+ u →
    j ∈ fs.emits u
  output : ∀ u, done u → fs.output (b.index u) = fs.emits u
  silent : ∀ u, Node keywords u → ¬done u → fs.output (b.index u) = []

section Linked

variable {keywords : List Text} {t : Trie} (hbuilt : Built keywords t) {b : Building}
  (hb : Finished keywords b) {done done' : State → Prop} {fs : Failures} {u f : State} {c : UInt8}

theorem Linked.congr (h : Linked keywords t b done fs) (hdone : ∀ u, done u ↔ done' u) :
    Linked keywords t b done' fs := by
  obtain rfl : done = done' := funext fun u => propext (hdone u)
  exact h

include hbuilt in
/-- The numbers that reach a state from its failure and its own. -/
theorem Linked.emits_sound (h : Linked keywords t b done fs) {j : Nat} (hj : j ∈ fs.emits u) :
    ∃ k, keywords[j]? = some k ∧ k.map lower <:+ u := by
  by_cases hu : done u
  · exact h.sound u hu j hj
  · rw [h.untouched u hu] at hj
    obtain ⟨k, hk, heq⟩ := (hbuilt.emits u j).mp hj
    exact ⟨k, hk, heq ▸ List.suffix_rfl⟩

include hb in
/-- One more state gets its failure, its numbers and its output. -/
theorem Linked.link (h : Linked keywords t b done fs) (emits : List Nat)
    (hu : Node keywords u) (hne : u ≠ [])
    (hnew : ¬done u) (hf : Longest (Node keywords) u.tail f)
    (hsound : ∀ j ∈ emits, ∃ k, keywords[j]? = some k ∧ k.map lower <:+ u)
    (hcomplete : ∀ j k, keywords[j]? = some k → k ≠ [] → k.map lower <:+ u → j ∈ emits) :
    ∃ fs', (do
      let fs ← fs.setFailure b u f
      let fs := { fs with emits := Function.update fs.emits u emits }
      fs.constructOutput b u) = some fs' ∧
      Linked keywords t b (fun v => done v ∨ v = u) fs' := by
  have hlt := hb.lt u hu
  have hindex {v : State} (hv : Node keywords v) (hvu : v ≠ u) : b.index v ≠ b.index u :=
    fun heq => hvu (hb.inj v u hv hu heq)
  have hother {v : State} (hv : done v) : v ≠ u := fun heq => hnew (heq ▸ hv)
  obtain ⟨output, hrun, hown, hrest⟩ : ∃ output, (do
      let fs ← fs.setFailure b u f
      let fs := { fs with emits := Function.update fs.emits u emits }
      fs.constructOutput b u) = some (⟨Function.update fs.failure u (some f),
        Function.update fs.emits u emits, Function.update fs.fail (b.index u) (b.index f),
        output⟩ : Failures) ∧ output (b.index u) = emits ∧
        ∀ p, p ≠ b.index u → output p = fs.output p := by
    simp only [Failures.setFailure, if_pos hlt, Option.bind_eq_bind, Option.bind_some,
      Failures.constructOutput, Function.update_self]
    split
    next hnil =>
      refine ⟨_, rfl, ?_, fun _ _ => rfl⟩
      rw [h.silent u hu hnew, hnil]
    · exact ⟨_, rfl, Function.update_self _ _ _, fun p hp => Function.update_of_ne hp _ _⟩
  refine ⟨_, hrun, ?_, ?_, ?_, ?_, ?_, ?_, ?_⟩
  · rintro v (hv | rfl)
    · exact h.node v hv
    · exact ⟨hu, hne⟩
  · rintro v (hv | rfl)
    · obtain ⟨f', hfail, htable, hlongest⟩ := h.failure v hv
      refine ⟨f', ?_, ?_, hlongest⟩
      · exact (Function.update_of_ne (hother hv) _ _).trans hfail
      · exact (Function.update_of_ne (hindex (h.node v hv).1 (hother hv)) _ _).trans htable
    · exact ⟨f, Function.update_self _ _ _, Function.update_self _ _ _, hf⟩
  · intro v hv
    rw [not_or] at hv
    exact (Function.update_of_ne hv.2 _ _).trans (h.untouched v hv.1)
  · rintro v (hv | rfl) j hj
    · simp only [Function.update_of_ne (hother hv)] at hj
      exact h.sound v hv j hj
    · simp only [Function.update_self] at hj
      exact hsound j hj
  · rintro v (hv | rfl) j k hk hnil hsuffix
    · simp only [Function.update_of_ne (hother hv)]
      exact h.complete v hv j k hk hnil hsuffix
    · simp only [Function.update_self]
      exact hcomplete j k hk hnil hsuffix
  · rintro v (hv | rfl)
    · simp only [Function.update_of_ne (hother hv)]
      rw [hrest _ (hindex (h.node v hv).1 (hother hv))]
      exact h.output v hv
    · simp only [Function.update_self]
      exact hown
  · intro v hnode hv
    rw [not_or] at hv
    simp only
    rw [hrest _ (hindex hnode hv.2)]
    exact h.silent v hnode hv.1

include hbuilt in
theorem next_of_node (hnode : Node keywords (u ++ [c])) : t.next u c = some (u ++ [c]) := by
  rw [Trie.next, if_pos ((hbuilt.success u c).mpr hnode)]

include hbuilt in
theorem next_of_not_node (hnode : ¬Node keywords (u ++ [c])) :
    t.next u c = if u = [] then some [] else none := by
  rw [Trie.next, if_neg fun hmem => hnode ((hbuilt.success u c).mp hmem)]

include hbuilt in
/-- The way down the failures ends at the longest suffix of the extended word. -/
theorem Linked.traceFailure_spec (h : Linked keywords t b done fs) {w : State} (fuel : Nat)
    (hready : ∀ v, Node keywords v → v ≠ [] → v.length ≤ w.length → done v)
    (hf : Pending (Node keywords) w c f) (hfuel : f.length < fuel) :
    ∃ g, Failures.traceFailure t fs.failure fuel (some f) c = some g ∧
      Longest (Node keywords) (w ++ [c]) g := by
  induction fuel generalizing f with
  | zero => omega
  | succ fuel ih =>
    rw [Failures.traceFailure]
    by_cases hnode : Node keywords (f ++ [c])
    · rw [next_of_node hbuilt hnode]
      exact ⟨f ++ [c], rfl, hf.found hnode⟩
    · rw [next_of_not_node hbuilt hnode]
      cases f with
      | nil => exact ⟨[], rfl, hf.nil hnode (prefixClosed_node keywords)⟩
      | cons a u =>
        obtain ⟨g, hg, -, hlongest⟩ := h.failure (a :: u)
          (hready _ hf.mem (List.cons_ne_nil a u) hf.suffix.length_le)
        have hle := hlongest.suffix.length_le
        rw [if_neg (List.cons_ne_nil a u)]
        simp only
        rw [hg]
        simp only [List.tail_cons, List.length_cons] at hle hfuel
        exact ih (hf.next hnode hlongest (prefixClosed_node keywords)) (by omega)

include hbuilt hb in
/-- The successors of a state get their failures once the states that are not longer
have theirs. -/
theorem Linked.linkTargets (h : Linked keywords t b done fs) {current : State}
    (letters : List UInt8) (hcurrent : done current)
    (hready : ∀ v, Node keywords v → v ≠ [] → v.length ≤ current.length → done v)
    (hnodup : letters.Nodup)
    (hnodes : ∀ c ∈ letters, Node keywords (current ++ [c]) ∧ ¬done (current ++ [c])) :
    ∃ fs', letters.foldlM (Failures.linkTarget t b current) fs = some fs' ∧
      Linked keywords t b (fun v => done v ∨ v ∈ letters.map fun c => current ++ [c]) fs' := by
  induction letters generalizing done fs with
  | nil => exact ⟨fs, rfl, h.congr fun v => by simp⟩
  | cons c letters ih =>
    obtain ⟨a, w, rfl⟩ := List.exists_cons_of_ne_nil (h.node current hcurrent).2
    obtain ⟨hnode, hnew⟩ := hnodes c List.mem_cons_self
    obtain ⟨f, hfail, -, hlongest⟩ := h.failure _ hcurrent
    have hle := hlongest.suffix.length_le
    simp only [List.tail_cons] at hlongest hle
    obtain ⟨g, htrace, hg⟩ := h.traceFailure_spec hbuilt (w := w) ((a :: w).length + 1)
      (fun v hv hne hlen => hready v hv hne (by simp only [List.length_cons]; omega))
      (hlongest.pending (prefixClosed_node keywords)) (by simp only [List.length_cons]; omega)
    have hgLen := hg.suffix.length_le
    rw [List.length_append, List.length_singleton] at hgLen
    obtain ⟨fs₁, hrun, h₁⟩ := h.link hb (f := g)
      (addEmits (fs.emits (a :: w ++ [c])) (fs.emits g)) hnode (by simp) hnew hg
      (by
        intro j hj
        rcases mem_addEmits.mp hj with hj | hj
        · exact h.emits_sound hbuilt hj
        · obtain ⟨k, hk, hsuffix⟩ := h.emits_sound hbuilt hj
          exact ⟨k, hk, (hsuffix.trans hg.suffix).trans (List.suffix_cons a _)⟩)
      (by
        intro j k hk hne hsuffix
        rw [mem_addEmits]
        rcases List.suffix_cons_iff.mp hsuffix with heq | hsuffix
        · left
          rw [h.untouched _ hnew]
          exact (hbuilt.emits _ j).mpr ⟨k, hk, heq.symm⟩
        · right
          have hmem : Node keywords (k.map lower) :=
            .inr ⟨k, List.mem_of_getElem? hk, List.prefix_rfl⟩
          have hgSuffix := hg.suffix_of_mem hsuffix hmem
          have hgNe : g ≠ [] := by
            rintro rfl
            exact hne (List.map_eq_nil_iff.mp (List.suffix_nil.mp hgSuffix))
          exact h.complete g (hready g hg.mem hgNe (by simp only [List.length_cons]; omega))
            j k hk hne hgSuffix)
    have hstep : Failures.linkTarget t b (a :: w) fs c = some fs₁ := by
      rw [← hrun, Failures.linkTarget, hfail, htrace]
      simp only [Failures.setFailure, if_pos (hb.lt _ hnode), Option.bind_eq_bind,
        Option.bind_some]
    obtain ⟨hnotin, hnodup⟩ := List.nodup_cons.mp hnodup
    obtain ⟨fs₂, hrest, h₂⟩ := ih h₁ (.inl hcurrent)
      (fun v hv hne hlen => .inl (hready v hv hne hlen)) hnodup fun d hd => by
        refine ⟨(hnodes d (List.mem_cons_of_mem _ hd)).1, fun hdone => ?_⟩
        rcases hdone with hdone | heq
        · exact (hnodes d (List.mem_cons_of_mem _ hd)).2 hdone
        · obtain rfl := List.singleton_inj.mp (List.append_cancel_left heq)
          exact hnotin hd
    refine ⟨fs₂, by rw [List.foldlM_cons, hstep]; exact hrest, h₂.congr fun v => ?_⟩
    rw [List.map_cons, List.mem_cons, or_assoc]

include hbuilt hb in
theorem Linked.linkDepthOnes (h : Linked keywords t b done fs)
    (states : List State) (hnodup : states.Nodup)
    (hstates : ∀ u ∈ states, (∃ c, u = [c]) ∧ Node keywords u ∧ ¬done u) :
    ∃ fs', states.foldlM (Failures.linkDepthOne b) fs = some fs' ∧
      Linked keywords t b (fun v => done v ∨ v ∈ states) fs' := by
  induction states generalizing done fs with
  | nil => exact ⟨fs, rfl, h.congr fun v => by simp⟩
  | cons u states ih =>
    obtain ⟨⟨c, rfl⟩, hnode, hnew⟩ := hstates u List.mem_cons_self
    obtain ⟨fs₁, hrun, h₁⟩ := h.link hb (f := []) (fs.emits [c]) hnode
      (List.cons_ne_nil c []) hnew (.of_mem (.inl rfl))
      (fun j hj => h.emits_sound hbuilt hj)
      (by
        intro j k hk hne hsuffix
        rw [h.untouched _ hnew]
        rcases List.suffix_cons_iff.mp hsuffix with heq | hsuffix
        · exact (hbuilt.emits _ j).mpr ⟨k, hk, heq.symm⟩
        · exact absurd (List.map_eq_nil_iff.mp (List.suffix_nil.mp hsuffix)) hne)
    have hstep : Failures.linkDepthOne b fs [c] = some fs₁ := by
      rw [← hrun, Failures.linkDepthOne]
      simp only [Failures.setFailure, if_pos (hb.lt _ hnode), Option.bind_eq_bind,
        Option.bind_some, Function.update_eq_self]
    obtain ⟨hnotin, hnodup⟩ := List.nodup_cons.mp hnodup
    obtain ⟨fs₂, hrest, h₂⟩ := ih h₁ hnodup fun v hv => by
      obtain ⟨hone, hv', hold⟩ := hstates v (List.mem_cons_of_mem _ hv)
      refine ⟨hone, hv', fun hdone => ?_⟩
      rcases hdone with hdone | rfl
      · exact hold hdone
      · exact hnotin hv
    refine ⟨fs₂, by rw [List.foldlM_cons, hstep]; exact hrest, h₂.congr fun v => ?_⟩
    rw [List.mem_cons, or_assoc]

/-- The states whose failures the loop has set once it has taken these states from the
queue. -/
def Behind (t : Trie) (taken : List State) (u : State) : Prop :=
  u ∈ ([] :: taken).flatMap t.children

include hbuilt in
theorem behind_iff {taken : List State} :
    Behind t taken u ↔ Node keywords u ∧ ∃ p c, (p = [] ∨ p ∈ taken) ∧ u = p ++ [c] := by
  simp only [Behind, List.mem_flatMap, mem_children hbuilt, List.mem_cons]
  constructor
  · rintro ⟨p, hp, hnode, c, rfl⟩
    exact ⟨hnode, p, c, hp, rfl⟩
  · rintro ⟨hnode, p, c, hp, rfl⟩
    exact ⟨p, hp, hnode, c, rfl⟩

include hbuilt hb in
/-- The states in the order of the queue, each with its successors. -/
theorem Linked.foldlM_visit (taken rest : List State)
    (horder : order t.children (t.children []) (letters keywords) = taken ++ rest)
    (h : Linked keywords t b (Behind t taken) fs) :
    ∃ fs', rest.foldlM (fun fs current =>
        (t.success current).foldlM (Failures.linkTarget t b current) fs) fs = some fs' ∧
      Linked keywords t b (fun u => Node keywords u ∧ u ≠ []) fs' := by
  have hfirst := @order_first _ t.children [[]] (letters keywords)
  rw [List.flatMap_singleton, horder, List.singleton_append] at hfirst
  have hmem := @mem_order_iff _ _ hbuilt
  have hnodup := @nodup_order _ _ hbuilt (letters keywords + 1)
  have hlengths := @pairwise_order _ _ hbuilt (letters keywords + 1)
  rw [hfirst] at hmem hnodup hlengths
  clear hfirst
  induction rest generalizing taken fs with
  | nil =>
    refine ⟨fs, rfl, h.congr fun u => ?_⟩
    rw [behind_iff hbuilt]
    constructor
    · rintro ⟨hnode, p, c, -, rfl⟩
      exact ⟨hnode, by simp⟩
    · rintro ⟨hnode, hne⟩
      obtain ⟨p, c, rfl⟩ := (List.eq_nil_or_concat u).resolve_left hne
      rw [List.concat_eq_append] at hnode ⊢
      have hp := hmem.mpr ((prefixClosed_node keywords).closed p c hnode)
      rw [List.append_nil, List.mem_cons] at hp
      exact ⟨hnode, p, c, hp, rfl⟩
  | cons current rest ih =>
    have hcurrent : Node keywords current := hmem.mp (by simp)
    have hne : current ≠ [] := by
      rintro rfl
      simp at hnodup
    have hready (v : State) (hv : Node keywords v) (hvne : v ≠ [])
        (hlen : v.length ≤ current.length) : Behind t taken v := by
      obtain ⟨p, c, rfl⟩ := (List.eq_nil_or_concat v).resolve_left hvne
      rw [List.concat_eq_append] at hv hlen ⊢
      rw [List.length_append, List.length_singleton] at hlen
      refine (behind_iff hbuilt).mpr ⟨hv, p, c, ?_, rfl⟩
      have hp := hmem.mpr ((prefixClosed_node keywords).closed p c hv)
      rw [← List.cons_append, List.mem_append, List.mem_cons] at hp
      rcases hp with hp | hp
      · exact hp
      · rw [← List.cons_append, List.pairwise_append] at hlengths
        rcases List.mem_cons.mp hp with rfl | hp
        · omega
        · have := List.rel_of_pairwise_cons hlengths.2.1 hp
          omega
    have hnotTaken : current ∉ [] :: taken := by
      rw [← List.cons_append, List.nodup_append] at hnodup
      exact fun hmem => hnodup.2.2 current hmem current List.mem_cons_self rfl
    obtain ⟨fs₁, hstep, h₁⟩ := h.linkTargets hbuilt hb (t.success current)
      (hready current hcurrent hne (Nat.le_refl _)) hready
      ((hbuilt.ascending current).imp fun hlt => UInt8.ne_of_lt hlt) fun c hc => by
        refine ⟨(hbuilt.success current c).mp hc, fun hdone => ?_⟩
        obtain ⟨-, p, d, hp, heq⟩ := (behind_iff hbuilt).mp hdone
        obtain rfl := (List.append_inj' heq rfl).1
        exact hnotTaken (List.mem_cons.mpr hp)
    have hsplit : taken ++ current :: rest = taken ++ [current] ++ rest := by simp
    rw [List.foldlM_cons, hstep]
    refine ih (taken ++ [current]) (horder.trans hsplit) (h₁.congr fun u => ?_)
      (by rw [← hsplit]; exact hmem) (by rw [← hsplit]; exact hnodup)
      (by rw [← hsplit]; exact hlengths)
    simp only [Behind, Trie.children, List.flatMap_cons, List.flatMap_append, List.mem_append,
      List.flatMap_nil, List.append_nil, or_assoc]

include hbuilt hb in
/-- `ConstructFailureStates` comes to an end, and every state has its failure and its
output. -/
theorem exists_constructFailureStates :
    ∃ fs, t.constructFailureStates b (letters keywords + 1) = some fs ∧
      Linked keywords t b (fun u => Node keywords u ∧ u ≠ []) fs := by
  have hempty : Linked keywords t b (fun _ => False) { emits := t.emits } := by
    refine ⟨?_, ?_, fun _ _ => rfl, ?_, ?_, ?_, fun _ _ _ => rfl⟩
    all_goals exact fun _ hdone => hdone.elim
  have hfirst := @order_first _ t.children [[]] (letters keywords)
  rw [List.flatMap_singleton] at hfirst
  obtain ⟨fs₁, hones, h₁⟩ := hempty.linkDepthOnes hbuilt hb (t.children [])
    (nodup_children hbuilt) fun u hu => by
      obtain ⟨hnode, c, rfl⟩ := (mem_children hbuilt).mp hu
      exact ⟨⟨c, rfl⟩, hnode, not_false⟩
  obtain ⟨fs₂, hvisits, h₂⟩ := Linked.foldlM_visit hbuilt hb []
    (order t.children (t.children []) (letters keywords)) rfl
    (h₁.congr fun u => by simp [Behind])
  refine ⟨fs₂, ?_, h₂⟩
  have hend := level_end hbuilt
  rw [← level_next, List.flatMap_singleton] at hend
  have hlength := length_order_le hbuilt
  rw [hfirst, List.length_append] at hlength
  rw [Trie.constructFailureStates, hones]
  exact run_levels hvisits hend (by omega)

end Linked

end Dexllm.AhoCorasick
