import Dexllm.Search.FailureStates

/-!
The search for many keywords at once. Keywords that differ in the case of their letters
are one keyword of the trie, and a hit asks for the exact spelling where the keyword
does not ignore the case.
-/

namespace Dexllm.AhoCorasick

open SuffixChain

/-- The keywords as `Build` groups them. -/
structure Groups where
  indexMap : Text → Option Nat := fun _ => none
  index : Nat := 0
  views : List Text := []
  v : List (List (Text × Bool)) := []

/-- The round of a keyword. -/
def Groups.add (groups : Groups) (keyword : Text × Bool) : Groups :=
  let str := keyword.1.map lower
  match groups.indexMap str with
  | none =>
    { indexMap := Function.update groups.indexMap str (some groups.index)
      index := groups.index + 1
      views := groups.views ++ [keyword.1]
      v := groups.v ++ [[keyword]] }
  | some i => { groups with v := groups.v.modify i (· ++ [keyword]) }

/-- The finished trie; `cells` has `base` and `check`. -/
structure DoubleArrayTrie where
  cells : Building
  fail : Nat → Nat
  output : Nat → List Nat
  v : List (List (Text × Bool))
  l : List Nat
  size : Nat

/-- `Build`. -/
def build (g : Growth) (keywords : List (Text × Bool)) : Option DoubleArrayTrie := do
  let groups := keywords.foldl Groups.add {}
  let fuel := letters groups.views + 1
  let t := Trie.addAllKeyword {} 0 groups.views
  let b ← t.buildDoubleArrayTrie g groups.views.length fuel
  let fs ← t.constructFailureStates b fuel
  return ⟨b.losWeight, fs.fail, fs.output, groups.v, groups.views.map List.length, b.size⟩

structure Hit where
  begin : Int
  endPos : Nat
  value : Text
  deriving DecidableEq

/-- `string_view::substr`, which throws past the end. -/
def substr (text : Text) (pos : Int) (n : Nat) : Option Text :=
  if 0 ≤ pos ∧ pos ≤ text.length then some ((text.drop pos.toNat).take n) else none

namespace DoubleArrayTrie

variable (trie : DoubleArrayTrie)

def failAt (state : Nat) : Option Nat :=
  if state < trie.size + 1 then some (trie.fail state) else none

def outputAt (state : Nat) : Option (List Nat) :=
  if state < trie.size + 1 then some (trie.output state) else none

/-- `GetState`, with an end to the loop after `fuel` failures. -/
def getState : (fuel currentState : Nat) → (ch : UInt8) → Option Nat
  | 0, _, _ => none
  | fuel + 1, currentState, ch => do
    match ← trie.cells.transitionWithRoot currentState ch with
    | some newCurrentState => some newCurrentState
    | none => getState fuel (← trie.failAt currentState) ch

/-- The round of an item of the group of a hit. -/
def storeItem (text : Text) (position l : Nat) (ignoreCase : Bool) (collectedEmits : List Hit)
    (item : Text × Bool) : Option (List Hit) := do
  let begin := (position : Int) - l
  if item.2 || ignoreCase then return collectedEmits ++ [⟨begin, position, item.1⟩]
  if item.1 == (← substr text begin l) then return collectedEmits ++ [⟨begin, position, item.1⟩]
  return collectedEmits

/-- `StoreEmits`. -/
def storeEmits (text : Text) (position currentState : Nat) (ignoreCase : Bool)
    (collectedEmits : List Hit) : Option (List Hit) := do
  (← trie.outputAt currentState).foldlM (fun collectedEmits hit => do
    let vec ← trie.v[hit]?
    let l ← trie.l[hit]?
    vec.foldlM (storeItem text position l ignoreCase) collectedEmits) collectedEmits

/-- The loop of `ParseText` at the byte before `position`. -/
def parseFrom (text : Text) (ignoreCase : Bool) :
    Text → (position currentState : Nat) → List Hit → Option (List Hit)
  | [], _, _, collectedEmits => some collectedEmits
  | ch :: p, position, currentState, collectedEmits => do
    let currentState ← trie.getState position currentState ch
    let collectedEmits ← trie.storeEmits text position currentState ignoreCase collectedEmits
    parseFrom text ignoreCase p (position + 1) currentState collectedEmits

/-- `ParseText`. -/
def parseText (text : Text) (ignoreCase : Bool) : Option (List Hit) :=
  trie.parseFrom text ignoreCase text 1 0 []

end DoubleArrayTrie

/-- The groups have these keywords. -/
structure Grouped (keywords : List (Text × Bool)) (groups : Groups) : Prop where
  index : groups.views.length = groups.index
  size : groups.v.length = groups.index
  indexMap : ∀ s i, groups.indexMap s = some i ↔
    ∃ view, groups.views[i]? = some view ∧ view.map lower = s
  known : ∀ k ∈ keywords, ∃ i, groups.indexMap (k.1.map lower) = some i
  mem : ∀ (i : Nat) view group, groups.views[i]? = some view → groups.v[i]? = some group →
    ∀ k, k ∈ group ↔ k ∈ keywords ∧ k.1.map lower = view.map lower

theorem grouped_nil : Grouped [] {} where
  index := rfl
  size := rfl
  indexMap := by simp
  known := by simp
  mem := by simp

theorem Grouped.add {keywords : List (Text × Bool)} {groups : Groups}
    (h : Grouped keywords groups) (keyword : Text × Bool) :
    Grouped (keywords ++ [keyword]) (groups.add keyword) := by
  have hlength := h.index
  have hlength' := h.size
  cases hfind : groups.indexMap (keyword.1.map lower) with
  | none =>
    simp only [Groups.add, hfind]
    have hnone := hfind
    have hviews (i : Nat) (view : Text) : (groups.views ++ [keyword.1])[i]? = some view ↔
        groups.views[i]? = some view ∨ i = groups.index ∧ view = keyword.1 := by
      rw [List.getElem?_append]
      split
      next hlt => exact ⟨.inl, fun h => h.resolve_right (by omega)⟩
      next hge =>
        rw [List.getElem?_eq_none (by omega : groups.views.length ≤ i), List.getElem?_singleton]
        split
        next heq =>
          simp only [Option.some.injEq, reduceCtorEq, false_or]
          exact ⟨fun h => ⟨by omega, h.symm⟩, fun h => h.2.symm⟩
        next hne => exact ⟨fun h => (by cases h), fun h => absurd h (by simp; omega)⟩
    have hfresh (i : Nat) (view : Text) (hview : groups.views[i]? = some view) :
        view.map lower ≠ keyword.1.map lower := by
      intro heq
      rw [(h.indexMap _ i).mpr ⟨view, hview, heq⟩] at hnone
      cases hnone
    refine ⟨by simp [hlength], by simp [hlength'], fun s i => ?_, fun k hk => ?_, ?_⟩
    · by_cases hs : s = keyword.1.map lower
      · subst hs
        simp only [Function.update_self, Option.some.injEq, hviews]
        constructor
        · rintro rfl
          exact ⟨keyword.1, .inr ⟨rfl, rfl⟩, rfl⟩
        · rintro ⟨view, hview | ⟨rfl, rfl⟩, heq⟩
          · exact absurd heq (hfresh i view hview)
          · rfl
      · simp only [Function.update_of_ne hs, h.indexMap, hviews]
        refine exists_congr fun view => ⟨fun h => ⟨.inl h.1, h.2⟩, ?_⟩
        rintro ⟨hview | ⟨-, rfl⟩, heq⟩
        · exact ⟨hview, heq⟩
        · exact absurd heq.symm hs
    · rcases List.mem_append.mp hk with hk | hk
      · obtain ⟨i, hi⟩ := h.known k hk
        refine ⟨i, ?_⟩
        simp only
        rw [Function.update_of_ne, hi]
        intro heq
        rw [heq, hnone] at hi
        cases hi
      · rw [List.mem_singleton.mp hk]
        exact ⟨groups.index, Function.update_self _ _ _⟩
    · intro i view group hview hgroup k
      rw [hviews] at hview
      rw [List.mem_append, List.mem_singleton]
      rcases hview with hview | ⟨rfl, rfl⟩
      · have hi := (List.getElem?_eq_some_iff.mp hview).1
        rw [List.getElem?_append_left (by omega)] at hgroup
        rw [h.mem i view group hview hgroup]
        constructor
        · rintro ⟨hk, heq⟩
          exact ⟨.inl hk, heq⟩
        · rintro ⟨hk | rfl, heq⟩
          · exact ⟨hk, heq⟩
          · exact absurd heq.symm (hfresh i view hview)
      · rw [List.getElem?_append_right (by omega), hlength', Nat.sub_self] at hgroup
        obtain rfl := Option.some.inj hgroup
        rw [List.mem_singleton]
        constructor
        · rintro rfl
          exact ⟨.inr rfl, rfl⟩
        · rintro ⟨hk | rfl, heq⟩
          · obtain ⟨j, hj⟩ := h.known k hk
            rw [heq, hnone] at hj
            cases hj
          · rfl
  | some i =>
    simp only [Groups.add, hfind]
    have hsome := hfind
    obtain ⟨found, hfound, hsame⟩ := (h.indexMap _ i).mp hsome
    refine ⟨hlength, by simp [hlength'], h.indexMap, fun k hk => ?_, ?_⟩
    · rcases List.mem_append.mp hk with hk | hk
      · exact h.known k hk
      · rw [List.mem_singleton.mp hk]
        exact ⟨i, hsome⟩
    · intro j view group hview hgroup k
      rw [List.getElem?_modify] at hgroup
      rw [List.mem_append, List.mem_singleton]
      split at hgroup
      next heq =>
        subst heq
        obtain rfl := Option.some.inj (hfound.symm.trans hview)
        obtain ⟨old, hold, rfl⟩ := Option.map_eq_some_iff.mp hgroup
        rw [List.mem_append, List.mem_singleton, h.mem i found old hview hold]
        constructor
        · rintro (⟨hk, heq⟩ | rfl)
          · exact ⟨.inl hk, heq⟩
          · exact ⟨.inr rfl, hsame.symm⟩
        · rintro ⟨hk | rfl, heq⟩
          · exact .inl ⟨hk, heq⟩
          · exact .inr rfl
      next hne =>
        rw [id_map'] at hgroup
        rw [h.mem j view group hview hgroup]
        constructor
        · rintro ⟨hk, heq⟩
          exact ⟨.inl hk, heq⟩
        · rintro ⟨hk | rfl, heq⟩
          · exact ⟨hk, heq⟩
          · have hj := (h.indexMap _ j).mpr ⟨view, hview, heq.symm⟩
            exact absurd (Option.some.inj (hsome.symm.trans hj)) hne

theorem grouped_foldl (keywords : List (Text × Bool)) :
    Grouped keywords (keywords.foldl Groups.add {}) := by
  induction keywords using List.reverseRecOn with
  | nil => exact grouped_nil
  | append_singleton keywords keyword ih =>
    rw [List.foldl_append]
    exact ih.add keyword

/-- The spelling of the keyword, or that of its lower case where the case is ignored,
ends the text at the hit. -/
def Occurs (keywords : List (Text × Bool)) (text : Text) (ignoreCase : Bool) (hit : Hit) : Prop :=
  ∃ flag, (hit.value, flag) ∈ keywords ∧ hit.endPos ≤ text.length ∧
    hit.begin + hit.value.length = hit.endPos ∧
    hit.value.map lower <:+ (text.take hit.endPos).map lower ∧
    (flag = true ∨ ignoreCase = true ∨ hit.value <:+ text.take hit.endPos)

theorem suffix_iff_substr {text item : Text} {position : Nat} (hposition : position ≤ text.length)
    (hlength : item.length ≤ position) :
    item = (text.drop (position - item.length)).take item.length ↔ item <:+ text.take position := by
  rw [List.suffix_iff_eq_drop, List.length_take, Nat.min_eq_left hposition, List.drop_take]
  have hsub : position - (position - item.length) = item.length := by omega
  rw [hsub]

section Items

variable {text : Text} {position l : Nat} {ignoreCase : Bool} {collected : List Hit}

/-- The rounds of the items of a group. -/
theorem storeItems_spec (hposition : position ≤ text.length) (hl : l ≤ position)
    {items : List (Text × Bool)} (hitems : ∀ item ∈ items, item.1.length = l) :
    ∃ hits, items.foldlM (DoubleArrayTrie.storeItem text position l ignoreCase) collected =
        some (collected ++ hits) ∧
      ∀ hit, hit ∈ hits ↔ ∃ flag, (hit.value, flag) ∈ items ∧
        (flag = true ∨ ignoreCase = true ∨ hit.value <:+ text.take position) ∧
        hit.begin = (position : Int) - l ∧ hit.endPos = position := by
  induction items generalizing collected with
  | nil => exact ⟨[], by simp, by simp⟩
  | cons item items ih =>
    have hlength := hitems item List.mem_cons_self
    have hsubstr : substr text ((position : Int) - l) l =
        some ((text.drop (position - item.1.length)).take item.1.length) := by
      have hcast : ((position : Int) - l).toNat = position - item.1.length := by omega
      rw [substr, if_pos (by omega), hcast, hlength]
    obtain ⟨found, hstep, hfound⟩ : ∃ found,
        DoubleArrayTrie.storeItem text position l ignoreCase collected item =
          some (collected ++ found) ∧
        ∀ hit, hit ∈ found ↔ hit.value = item.1 ∧
          (item.2 = true ∨ ignoreCase = true ∨ hit.value <:+ text.take position) ∧
          hit.begin = (position : Int) - l ∧ hit.endPos = position := by
      have hhit (hit : Hit) : hit ∈ [(⟨(position : Int) - l, position, item.1⟩ : Hit)] ↔
          hit.value = item.1 ∧ hit.begin = (position : Int) - l ∧ hit.endPos = position := by
        rw [List.mem_singleton]
        constructor
        · rintro rfl
          exact ⟨rfl, rfl, rfl⟩
        · obtain ⟨begin, endPos, value⟩ := hit
          rintro ⟨rfl, rfl, hend⟩
          exact congrArg (Hit.mk _ · _) hend
      rw [DoubleArrayTrie.storeItem, hsubstr]
      by_cases hcase : item.2 = true ∨ ignoreCase = true
      · refine ⟨_, if_pos (by simpa using hcase), fun hit => ?_⟩
        rw [hhit]
        constructor
        · rintro ⟨hvalue, hplace⟩
          exact ⟨hvalue, hcase.imp_right .inl, hplace⟩
        · rintro ⟨hvalue, -, hplace⟩
          exact ⟨hvalue, hplace⟩
      · rw [if_neg (by simpa using hcase)]
        have hsuffix := @suffix_iff_substr text item.1 position hposition (by omega)
        simp only [Option.bind_eq_bind, Option.bind_some, beq_iff_eq]
        by_cases heq : item.1 = (text.drop (position - item.1.length)).take item.1.length
        · refine ⟨_, if_pos heq, fun hit => ?_⟩
          rw [hhit]
          constructor
          · rintro ⟨hvalue, hplace⟩
            exact ⟨hvalue, .inr (.inr (hvalue ▸ hsuffix.mp heq)), hplace⟩
          · rintro ⟨hvalue, -, hplace⟩
            exact ⟨hvalue, hplace⟩
        · refine ⟨[], by rw [if_neg heq, List.append_nil]; rfl, fun hit => ?_⟩
          refine ⟨fun h => absurd h List.not_mem_nil, ?_⟩
          rintro ⟨hvalue, hflag | hcase' | hsuffix', -⟩
          · exact absurd (.inl hflag) hcase
          · exact absurd (.inr hcase') hcase
          · exact absurd (hsuffix.mpr (hvalue ▸ hsuffix')) heq
    obtain ⟨hits, hrest, hmem⟩ := @ih (collected ++ found)
      fun item hi => hitems item (List.mem_cons_of_mem _ hi)
    refine ⟨found ++ hits, ?_, fun hit => ?_⟩
    · rw [List.foldlM_cons, hstep]
      exact hrest.trans (by rw [List.append_assoc])
    · rw [List.mem_append, hfound, hmem]
      constructor
      · rintro (⟨hvalue, hcase, hplace⟩ | ⟨flag, hi, hrest⟩)
        · exact ⟨item.2, List.mem_cons.mpr (.inl (Prod.ext hvalue rfl)), hcase, hplace⟩
        · exact ⟨flag, List.mem_cons_of_mem _ hi, hrest⟩
      · rintro ⟨flag, hi, hcase, hplace⟩
        rcases List.mem_cons.mp hi with heq | hi
        · obtain rfl := heq
          exact .inl ⟨rfl, hcase, hplace⟩
        · exact .inr ⟨flag, hi, hcase, hplace⟩

end Items

section Parse

variable {keywords : List (Text × Bool)} {groups : Groups} (hgroups : Grouped keywords groups)
  {t : Trie} (hbuilt : Built groups.views t) {b : Building} (hb : Finished groups.views b)
  {fs : Failures} (hfs : Linked groups.views t b (fun u => Node groups.views u ∧ u ≠ []) fs)
  {trie : DoubleArrayTrie}
  (htrie : trie = ⟨b.losWeight, fs.fail, fs.output, groups.v, groups.views.map List.length, b.size⟩)
  {text : Text} (ignoreCase : Bool) {w u f : Text}

include hb hfs htrie in
/-- `GetState` goes to the longest suffix of the text that is a state. -/
theorem getState_spec (ch : UInt8) (fuel : Nat) (hf : Pending (Node groups.views) w (lower ch) f)
    (hfuel : f.length < fuel) :
    ∃ g, trie.getState fuel (b.index f) ch = some (b.index g) ∧
      Longest (Node groups.views) (w ++ [lower ch]) g := by
  induction fuel generalizing f with
  | zero => omega
  | succ fuel ih =>
    rw [DoubleArrayTrie.getState, htrie]
    by_cases hnode : Node groups.views (f ++ [lower ch])
    · rw [hb.next f ch hnode]
      exact ⟨_, rfl, hf.found hnode⟩
    · cases f with
      | nil =>
        rw [hb.root, hb.stay ch hnode]
        exact ⟨[], by rw [hb.root]; rfl, hf.nil hnode (prefixClosed_node _)⟩
      | cons a v =>
        obtain ⟨g, -, htable, hlongest⟩ := hfs.failure (a :: v) ⟨hf.mem, List.cons_ne_nil a v⟩
        have hle := hlongest.suffix.length_le
        simp only [List.tail_cons, List.length_cons] at hle hfuel
        obtain ⟨g', hg', hlongest'⟩ := ih (hf.next hnode hlongest (prefixClosed_node _)) (by omega)
        have hfail : trie.failAt (b.index (a :: v)) = some (b.index g) := by
          rw [DoubleArrayTrie.failAt, if_pos (by rw [htrie]; exact hb.lt _ hf.mem), ← htable, htrie]
        refine ⟨g', ?_, hlongest'⟩
        rw [hb.fail (a :: v) ch hf.mem (List.cons_ne_nil a v) hnode, ← htrie]
        simp only [Option.bind_eq_bind, Option.bind_some]
        rw [hfail]
        exact hg'

include hgroups hb hfs htrie in
/-- `StoreEmits` at the state of the text before `position`. -/
theorem storeEmits_spec (collected : List Hit) {position : Nat} (hposition : position ≤ text.length)
    (hu : Longest (Node groups.views) ((text.take position).map lower) u) :
    ∃ hits, trie.storeEmits text position (b.index u) ignoreCase collected =
        some (collected ++ hits) ∧
      (∀ hit ∈ hits, Occurs keywords text ignoreCase hit ∧ hit.endPos = position) ∧
      ∀ hit, hit.value ≠ [] → Occurs keywords text ignoreCase hit → hit.endPos = position →
        hit ∈ hits := by
  have houtput : trie.outputAt (b.index u) = some (fs.output (b.index u)) := by
    rw [DoubleArrayTrie.outputAt, if_pos (by rw [htrie]; exact hb.lt _ hu.mem), htrie]
  have hemits (j : Nat) (hj : j ∈ fs.output (b.index u)) :
      ∃ k, groups.views[j]? = some k ∧ k.map lower <:+ u := by
    by_cases hnil : u = []
    · subst hnil
      rw [hfs.silent [] (.inl rfl) fun h => h.2 rfl] at hj
      cases hj
    · rw [hfs.output u ⟨hu.mem, hnil⟩] at hj
      exact hfs.sound u ⟨hu.mem, hnil⟩ j hj
  have hlength : u.length ≤ position := by
    have := hu.suffix.length_le
    rw [List.length_map, List.length_take] at this
    omega
  -- the rounds of the numbers in the output
  have hrounds (numbers : List Nat) (hnumbers : ∀ j ∈ numbers,
      ∃ k, groups.views[j]? = some k ∧ k.map lower <:+ u) (collected : List Hit) :
      ∃ hits, numbers.foldlM (fun collected j => do
          let vec ← trie.v[j]?
          let l ← trie.l[j]?
          vec.foldlM (DoubleArrayTrie.storeItem text position l ignoreCase) collected) collected =
          some (collected ++ hits) ∧
        ∀ hit, hit ∈ hits ↔ ∃ j ∈ numbers, ∃ k, groups.views[j]? = some k ∧ ∃ flag,
          (hit.value, flag) ∈ keywords ∧ hit.value.map lower = k.map lower ∧
          (flag = true ∨ ignoreCase = true ∨ hit.value <:+ text.take position) ∧
          hit.begin = (position : Int) - k.length ∧ hit.endPos = position := by
    induction numbers generalizing collected with
    | nil => exact ⟨[], by simp, by simp⟩
    | cons j numbers ih =>
      obtain ⟨k, hk, hsuffix⟩ := hnumbers j List.mem_cons_self
      have hj := (List.getElem?_eq_some_iff.mp hk).1
      obtain ⟨group, hgroup⟩ : ∃ group, groups.v[j]? = some group :=
        ⟨_, List.getElem?_eq_getElem (by rw [hgroups.size, ← hgroups.index]; exact hj)⟩
      have hmem := hgroups.mem j k group hk hgroup
      have hkLength := hsuffix.length_le
      rw [List.length_map] at hkLength
      obtain ⟨found, hstep, hfound⟩ := @storeItems_spec text position k.length ignoreCase collected
        hposition (by omega) group fun item hi => by
          have := congrArg List.length ((hmem item).mp hi).2
          simpa only [List.length_map] using this
      obtain ⟨hits, hrest, hhits⟩ := ih (fun i hi => hnumbers i (List.mem_cons_of_mem _ hi))
        (collected ++ found)
      refine ⟨found ++ hits, ?_, fun hit => ?_⟩
      · have hl : (groups.views.map List.length)[j]? = some k.length := by
          rw [List.getElem?_map, hk]
          rfl
        have hv : trie.v[j]? = some group := by rw [htrie]; exact hgroup
        have hl' : trie.l[j]? = some k.length := by rw [htrie]; exact hl
        rw [List.foldlM_cons, hv, hl']
        simp only [Option.bind_eq_bind, Option.bind_some]
        rw [hstep, Option.bind_some]
        exact hrest.trans (by rw [List.append_assoc])
      · rw [List.mem_append, hfound, hhits]
        constructor
        · rintro (⟨flag, hi, hcase, hbegin, hend⟩ | ⟨i, hi, hrest⟩)
          · obtain ⟨hkey, hlower⟩ := (hmem _).mp hi
            exact ⟨j, List.mem_cons_self, k, hk, flag, hkey, hlower, hcase, hbegin, hend⟩
          · exact ⟨i, List.mem_cons_of_mem _ hi, hrest⟩
        · rintro ⟨i, hi, k', hk', flag, hkey, hlower, hcase, hbegin, hend⟩
          rcases List.mem_cons.mp hi with rfl | hi
          · obtain rfl := Option.some.inj (hk.symm.trans hk')
            exact .inl ⟨flag, (hmem _).mpr ⟨hkey, hlower⟩, hcase, hbegin, hend⟩
          · exact .inr ⟨i, hi, k', hk', flag, hkey, hlower, hcase, hbegin, hend⟩
  obtain ⟨hits, hrun, hmem⟩ := hrounds (fs.output (b.index u)) hemits collected
  refine ⟨hits, by rw [DoubleArrayTrie.storeEmits, houtput]; exact hrun, fun hit hhit => ?_,
    fun hit hvalue hoccurs hend => (hmem hit).mpr ?_⟩
  · obtain ⟨j, hj, k, hk, flag, hkey, hlower, hcase, hbegin, hend⟩ := (hmem hit).mp hhit
    obtain ⟨k', hk', hsuffix⟩ := hemits j hj
    obtain rfl := Option.some.inj (hk.symm.trans hk')
    have hsame := congrArg List.length hlower
    rw [List.length_map, List.length_map] at hsame
    exact ⟨⟨flag, hkey, by omega, by omega, by rw [hlower, hend]; exact hsuffix.trans hu.suffix,
      by rw [hend]; exact hcase⟩, hend⟩
  · obtain ⟨flag, hkey, -, hbegin, hsuffix, hcase⟩ := hoccurs
    subst hend
    obtain ⟨j, hj⟩ := hgroups.known _ hkey
    obtain ⟨k, hk, hlower⟩ := (hgroups.indexMap _ j).mp hj
    have hkNe : k ≠ [] := by
      rintro rfl
      exact hvalue (List.map_eq_nil_iff.mp hlower.symm)
    have hnode : Node groups.views (k.map lower) :=
      .inr ⟨k, List.mem_of_getElem? hk, List.prefix_rfl⟩
    have hinside := hu.suffix_of_mem (hlower ▸ hsuffix) hnode
    have hne : u ≠ [] := by
      rintro rfl
      exact hkNe (List.map_eq_nil_iff.mp (List.suffix_nil.mp hinside))
    have hsame : k.length = hit.value.length := by simpa using congrArg List.length hlower
    refine ⟨j, ?_, k, hk, flag, hkey, hlower.symm, hcase, by omega, rfl⟩
    rw [hfs.output u ⟨hu.mem, hne⟩]
    exact hfs.complete u ⟨hu.mem, hne⟩ j k hk hkNe hinside

include hgroups hb hfs htrie in
theorem parseFrom_spec {rest : Text} (htext : text = w ++ rest)
    (hu : Longest (Node groups.views) (w.map lower) u) (collected : List Hit) :
    ∃ hits, trie.parseFrom text ignoreCase rest (w.length + 1) (b.index u) collected =
        some (collected ++ hits) ∧
      (∀ hit ∈ hits, Occurs keywords text ignoreCase hit ∧ w.length < hit.endPos) ∧
      ∀ hit, hit.value ≠ [] → Occurs keywords text ignoreCase hit → w.length < hit.endPos →
        hit ∈ hits := by
  induction rest generalizing w u collected with
  | nil =>
    refine ⟨[], by rw [List.append_nil]; rfl, by simp, fun hit _ hoccurs hlt => ?_⟩
    rw [List.append_nil] at htext
    obtain ⟨flag, -, hend, -⟩ := hoccurs
    rw [htext] at hend
    omega
  | cons ch rest ih =>
    have hulen := hu.suffix.length_le
    rw [List.length_map] at hulen
    obtain ⟨g, hstate, hg⟩ := getState_spec hb hfs htrie ch (w.length + 1)
      (hu.pending (prefixClosed_node _)) (by omega)
    have htake : text.take (w.length + 1) = w ++ [ch] := by
      rw [htext, List.take_append]
      simp
    have hg' : Longest (Node groups.views) ((text.take (w.length + 1)).map lower) g := by
      rw [htake, List.map_append]
      exact hg
    obtain ⟨found, hemits, hfound, hall⟩ := storeEmits_spec hgroups hb hfs htrie
      ignoreCase collected (by rw [htext]; simp) hg'
    rw [htake] at hg'
    obtain ⟨hits, hrest, hhits, hall'⟩ := ih (w := w ++ [ch]) (by rw [htext]; simp) hg'
      (collected ++ found)
    refine ⟨found ++ hits, ?_, fun hit hhit => ?_, fun hit hvalue hoccurs hlt => ?_⟩
    · rw [DoubleArrayTrie.parseFrom, hstate]
      simp only [Option.bind_eq_bind, Option.bind_some]
      rw [hemits, Option.bind_some, ← List.append_assoc, ← hrest, List.length_append]
      rfl
    · rcases List.mem_append.mp hhit with hhit | hhit
      · obtain ⟨hoccurs, hend⟩ := hfound hit hhit
        exact ⟨hoccurs, by omega⟩
      · obtain ⟨hoccurs, hlt⟩ := hhits hit hhit
        rw [List.length_append] at hlt
        exact ⟨hoccurs, by omega⟩
    · rcases Nat.eq_or_lt_of_le hlt with heq | hlt
      · exact List.mem_append_left _ (hall hit hvalue hoccurs heq.symm)
      · exact List.mem_append_right _ (hall' hit hvalue hoccurs (by
          rw [List.length_append]
          exact hlt))

end Parse

/-- The trie is built, and it finds the occurrences in every text. -/
theorem exists_build (g : Growth) (keywords : List (Text × Bool)) :
    ∃ trie, build g keywords = some trie ∧ ∀ text ignoreCase, ∃ hits,
      trie.parseText text ignoreCase = some hits ∧
      (∀ hit ∈ hits, Occurs keywords text ignoreCase hit ∧ 0 < hit.endPos) ∧
      ∀ hit, hit.value ≠ [] → Occurs keywords text ignoreCase hit → hit ∈ hits := by
  have hgroups := grouped_foldl keywords
  have hbuilt := built_addAllKeyword (keywords.foldl Groups.add {}).views
  obtain ⟨b, hrun, hb⟩ := exists_buildDoubleArrayTrie hbuilt g
    (keywords.foldl Groups.add {}).views.length
  obtain ⟨fs, hrun', hfs⟩ := exists_constructFailureStates hbuilt hb
  obtain ⟨trie, htrie⟩ : ∃ trie : DoubleArrayTrie, trie = ⟨b.losWeight, fs.fail, fs.output,
      (keywords.foldl Groups.add {}).v, (keywords.foldl Groups.add {}).views.map List.length,
      b.size⟩ := ⟨_, rfl⟩
  refine ⟨trie, ?_, fun text ignoreCase => ?_⟩
  · rw [build, hrun]
    simp only [Option.bind_eq_bind, Option.bind_some]
    rw [hrun', htrie]
    rfl
  · obtain ⟨hits, hparse, hsound, hcomplete⟩ := parseFrom_spec hgroups hb hfs htrie ignoreCase
      (List.nil_append text).symm (.of_mem (.inl rfl)) []
    rw [List.map_nil, hb.root] at hparse
    refine ⟨hits, hparse, hsound, fun hit hvalue hoccurs => hcomplete hit hvalue hoccurs ?_⟩
    obtain ⟨flag, -, -, -, hsuffix, -⟩ := hoccurs
    apply Nat.pos_of_ne_zero
    intro hzero
    rw [hzero] at hsuffix
    exact hvalue (List.map_eq_nil_iff.mp (List.suffix_nil.mp hsuffix))

/-- The trie of any keywords is built, and the search in any text ends, without a read
outside of a vector. The hits are occurrences of the keywords, and all of them, those of
a keyword without letters aside. -/
theorem parse_text_occurs (g : Growth) (keywords : List (Text × Bool)) :
    ∃ trie, build g keywords = some trie ∧ ∀ text ignoreCase, ∃ hits,
      trie.parseText text ignoreCase = some hits ∧
      (∀ hit ∈ hits, Occurs keywords text ignoreCase hit) ∧
      ∀ hit, hit.value ≠ [] → Occurs keywords text ignoreCase hit → hit ∈ hits := by
  obtain ⟨trie, hbuild, hparse⟩ := exists_build g keywords
  refine ⟨trie, hbuild, fun text ignoreCase => ?_⟩
  obtain ⟨hits, hrun, hsound, hcomplete⟩ := hparse text ignoreCase
  exact ⟨hits, hrun, fun hit hhit => (hsound hit hhit).1, hcomplete⟩

end Dexllm.AhoCorasick
