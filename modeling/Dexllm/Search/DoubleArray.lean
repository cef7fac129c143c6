import Dexllm.Search.KeywordTrie

/-!
The double array of the trie. Each state with successors gets a number `begin` of its
own, and its successor by the letter `c` the cell `begin + c + 1`, in which `check`
has `begin`.
-/

namespace Dexllm.AhoCorasick

open LevelQueue

/-- A pair of `siblings`: the fake node that ends a keyword, or a successor. -/
inductive Sibling where
  | fakeNode (emit : Int)
  | success (c : UInt8) (s : State)
  deriving DecidableEq

def Sibling.code : Sibling → Nat
  | fakeNode _ => 0
  | success c _ => c.toNat + 1

/-- `Fetch`. -/
def Trie.fetch (t : Trie) (parent : State) : List Sibling :=
  (if t.isAcceptable parent then [.fakeNode (t.largestValueId parent)] else []) ++
    (t.success parent).map fun c => .success c (parent ++ [c])

/-- The `Builder` and the vectors it fills; the vectors are of one size. -/
structure Building where
  check : Nat → Nat := fun _ => 0
  base : Nat → Int := fun _ => 0
  used : Nat → Bool := fun _ => false
  allocSize : Nat
  keySize : Nat
  progress : Nat := 0
  nextCheckPos : Nat := 0
  size : Nat := 0
  index : State → Nat := fun _ => 0

/-- `(int) (allocSize * ll)`, a product of doubles: it is more than 1.05 times the
size. -/
structure Growth where
  grow : (allocSize keySize progress : Nat) → Nat
  room : ∀ allocSize keySize progress, 512 * 32 ≤ allocSize →
    allocSize + 257 ≤ grow allocSize keySize progress

/-- The product of the fractions. -/
def Growth.exact : Growth where
  grow allocSize keySize progress :=
    max (allocSize * 21 / 20) (allocSize * (3 * keySize) / (2 * (progress + 1)))
  room allocSize keySize progress h := le_max_of_le_left (by omega)

namespace Building

variable (b : Building)

/-- `Resize`. -/
def resize (newSize : Nat) : Building :=
  { b with
    check := fun p => if p < newSize then b.check p else 0
    base := fun p => if p < newSize then b.base p else 0
    used := fun p => if p < newSize then b.used p else false
    allocSize := newSize }

def checkAt (p : Nat) : Option Nat := if p < b.allocSize then some (b.check p) else none

def usedAt (p : Nat) : Option Bool := if p < b.allocSize then some (b.used p) else none

def setCheck (p x : Nat) : Option Building :=
  if p < b.allocSize then some { b with check := Function.update b.check p x } else none

def setBase (p : Nat) (x : Int) : Option Building :=
  if p < b.allocSize then some { b with base := Function.update b.base p x } else none

def setUsed (p : Nat) : Option Building :=
  if p < b.allocSize then some { b with used := Function.update b.used p true } else none

/-- The cells of these siblings are free. -/
def allFree (begin : Nat) : List Sibling → Option Bool
  | [] => some true
  | s :: siblings => do
    if (← b.checkAt (begin + s.code)) ≠ 0 then return false
    allFree begin siblings

/-- What the search for the cells of the siblings ends with. -/
structure Place where
  building : Building
  begin : Nat
  pos : Nat
  nonzeroNum : Nat

/-- The rounds of the loop `outer` from behind `pos`. -/
def seek (g : Growth) (first : Sibling) (rest : List Sibling) :
    (fuel : Nat) → Building → (pos nonzeroNum : Nat) → (seenFirst : Bool) → Option Place
  | 0, _, _, _, _ => none
  | fuel + 1, b, pos, nonzeroNum, seenFirst => do
    let pos := pos + 1
    let b := if b.allocSize ≤ pos then b.resize (pos + 1) else b
    if (← b.checkAt pos) ≠ 0 then seek g first rest fuel b pos (nonzeroNum + 1) seenFirst
    else
      let b := if seenFirst then b else { b with nextCheckPos := pos }
      let begin := pos - first.code
      let last := (first :: rest).getLast (List.cons_ne_nil first rest)
      let b := if b.allocSize ≤ begin + last.code then
          b.resize (g.grow b.allocSize b.keySize b.progress)
        else b
      if ← b.usedAt begin then seek g first rest fuel b pos nonzeroNum true
      else if ← b.allFree begin rest then some ⟨b, begin, pos, nonzeroNum⟩
      else seek g first rest fuel b pos nonzeroNum true

/-- The round of a sibling in the loop that fills the queue. -/
def settle (t : Trie) (begin : Nat) (b : Building) : Sibling → Option Building
  -- a fake node has no successors, and no one asks for its index
  | .fakeNode emit => do
    let b ← b.setBase begin (-emit - 1)
    return { b with progress := b.progress + 1 }
  | .success c s => do
    let b ← if t.fetch s = [] then do
        let b ← b.setBase (begin + (c.toNat + 1)) (-t.largestValueId s - 1)
        pure { b with progress := b.progress + 1 }
      else pure b
    return { b with index := Function.update b.index s (begin + (c.toNat + 1)) }

/-- `Insert` of the siblings behind the state `parent`, taken from the queue. The queue
of the source has the index of the state beside its siblings, and -1 for the root. -/
def insert (g : Growth) (t : Trie) (b : Building) (parent : State) : Option Building :=
  match t.fetch parent with
  | [] => none
  | first :: rest => do
    let pos := max (first.code + 1) b.nextCheckPos - 1
    let b := if b.allocSize ≤ pos then b.resize (pos + 1) else b
    let place ← seek g first rest (b.size + 1) b pos 0 false
    let b := place.building
    let b := if 19 * (place.pos - b.nextCheckPos + 1) ≤ 20 * place.nonzeroNum then
        { b with nextCheckPos := place.pos }
      else b
    let b ← b.setUsed place.begin
    let last := (first :: rest).getLast (List.cons_ne_nil first rest)
    let b := { b with size := max b.size (place.begin + last.code + 1) }
    let b ← (first :: rest).foldlM (fun b s => b.setCheck (place.begin + s.code) place.begin) b
    let b ← (first :: rest).foldlM (settle t place.begin) b
    if parent = [] then some b else b.setBase (b.index parent) place.begin

end Building

/-- The states that `Insert` puts into the queue. -/
def Trie.pushed (t : Trie) (parent : State) : List State :=
  (t.children parent).filter fun s => t.fetch s ≠ []

/-- `BuildDoubleArrayTrie`, with an end to the loop after `fuel` rounds. -/
def Trie.buildDoubleArrayTrie (t : Trie) (g : Growth) (siz fuel : Nat) : Option Building :=
  let b : Building :=
    { allocSize := 512 * 32, keySize := siz, base := Function.update (fun _ => 0) 0 1 }
  if t.fetch [] = [] then some b
  else run (Building.insert g t) t.pushed fuel b [[]]

section Siblings

variable {keywords : List Text} {t : Trie} (h : Built keywords t) {u v : State} {s : Sibling}
include h

theorem mem_fetch : s ∈ t.fetch u ↔ (t.isAcceptable u ∧ s = .fakeNode (t.largestValueId u)) ∨
    ∃ c, Node keywords (u ++ [c]) ∧ s = .success c (u ++ [c]) := by
  simp only [Trie.fetch, List.mem_append, List.mem_map, h.success]
  refine or_congr ?_ (exists_congr fun c => and_congr_right fun _ => eq_comm)
  split
  next hacceptable => simp [hacceptable]
  next hacceptable => simp [hacceptable]

theorem success_mem_fetch {c : UInt8} :
    .success c v ∈ t.fetch u ↔ Node keywords (u ++ [c]) ∧ v = u ++ [c] := by
  rw [mem_fetch h]
  constructor
  · rintro (⟨-, hfake⟩ | ⟨d, hd, heq⟩)
    · cases hfake
    · obtain ⟨rfl, rfl⟩ := Sibling.success.inj heq
      exact ⟨hd, rfl⟩
  · rintro ⟨hc, rfl⟩
    exact .inr ⟨c, hc, rfl⟩

theorem code_ascending : (t.fetch u).Pairwise fun r s => r.code < s.code := by
  rw [Trie.fetch, List.pairwise_append]
  refine ⟨?_, ?_, ?_⟩
  · split
    · exact List.pairwise_singleton _ _
    · exact List.Pairwise.nil
  · exact List.pairwise_map.mpr ((h.ascending u).imp fun hlt => Nat.succ_lt_succ hlt)
  · intro r hr s hs
    split at hr
    · obtain rfl := List.mem_singleton.mp hr
      obtain ⟨c, -, rfl⟩ := List.mem_map.mp hs
      exact Nat.succ_pos _
    · cases hr

omit h in
theorem code_le : s.code ≤ 256 := by
  cases s with
  | fakeNode emit => exact Nat.zero_le _
  | success c s =>
    have := c.toNat_lt
    simp only [Sibling.code]
    omega

/-- A state but the root ends a keyword or has a successor. -/
theorem fetch_ne_nil (hu : Node keywords u) (hne : u ≠ []) : t.fetch u ≠ [] := by
  rcases hu with rfl | ⟨k, hk, p, hp⟩
  · exact absurd rfl hne
  · apply List.ne_nil_of_mem (a := p.head?.elim (.fakeNode (t.largestValueId u))
      fun c => .success c (u ++ [c]))
    rw [mem_fetch h]
    cases p with
    | nil =>
      left
      obtain ⟨j, hj⟩ := List.mem_iff_getElem?.mp hk
      have hemit : j ∈ t.emits u := (h.emits u j).mpr ⟨k, hj, by rw [← hp, List.append_nil]⟩
      refine ⟨?_, rfl⟩
      simp only [Trie.isAcceptable, Bool.and_eq_true, decide_eq_true_eq]
      exact ⟨hne, List.ne_nil_of_mem hemit⟩
    | cons c p =>
      right
      exact ⟨c, .inr ⟨k, hk, p, by rw [List.append_assoc]; exact hp⟩, rfl⟩

theorem pushed_eq : t.pushed u = t.children u := by
  rw [Trie.pushed, List.filter_eq_self]
  intro v hv
  obtain ⟨hnode, c, rfl⟩ := (mem_children h).mp hv
  exact decide_eq_true (fetch_ne_nil h hnode (List.append_ne_nil_of_right_ne_nil _ (by simp)))

end Siblings

end Dexllm.AhoCorasick

/-!
What every step of the construction keeps of the double array.
-/

namespace Dexllm.AhoCorasick

/-- The states `placed` have their successors in the cells from `begin` on. -/
structure Layout (keywords : List Text) (t : Trie) (placed : List State) (begin : State → Nat)
    (b : Building) : Prop where
  alloc : 512 * 32 ≤ b.allocSize
  size_le : b.size ≤ b.allocSize
  node : ∀ u ∈ placed, Node keywords u
  closed : ∀ u c, u ++ [c] ∈ placed → u ∈ placed
  begin_pos : ∀ u ∈ placed, 1 ≤ begin u
  injective : ∀ u ∈ placed, ∀ v ∈ placed, begin u = begin v → u = v
  used : ∀ k, b.used k = true → ∃ u ∈ placed, begin u = k
  owner : ∀ p, b.check p ≠ 0 → ∃ u ∈ placed, ∃ s ∈ t.fetch u,
    p = begin u + s.code ∧ b.check p = begin u
  filled : ∀ u ∈ placed, ∀ s ∈ t.fetch u, b.check (begin u + s.code) = begin u
  room : ∀ u ∈ placed, ∀ s ∈ t.fetch u, begin u + s.code < b.size
  below : ∀ u ∈ placed, begin u < b.size
  usedAll : ∀ u ∈ placed, b.used (begin u) = true
  root : b.index [] = 0
  index : ∀ u ∈ placed, ∀ c, Node keywords (u ++ [c]) → b.index (u ++ [c]) = begin u + c.toNat + 1
  base : ∀ u ∈ placed, b.base (b.index u) = begin u

/-- The vectors of `b'` are those of `b` with more cells. -/
structure Building.Grown (b b' : Building) : Prop where
  alloc : b.allocSize ≤ b'.allocSize
  check : ∀ p, b'.check p = b.check p ∨ b.allocSize ≤ p ∧ b'.check p = 0
  base : ∀ p, b'.base p = b.base p ∨ b.allocSize ≤ p ∧ b'.base p = 0
  used : ∀ k, b'.used k = b.used k ∨ b.allocSize ≤ k ∧ b'.used k = false
  size : b'.size = b.size
  index : b'.index = b.index

namespace Layout

variable {keywords : List Text} {t : Trie} {placed : List State} {begin : State → Nat}
  {b b' : Building}

theorem index_lt (h : Layout keywords t placed begin b) (hbuilt : Built keywords t) {u : State}
    (hu : u ∈ placed) : b.index u < b.allocSize := by
  have := h.alloc
  have := h.size_le
  rcases List.eq_nil_or_concat u with rfl | ⟨p, c, rfl⟩
  · rw [h.root]
    omega
  · rw [List.concat_eq_append] at hu ⊢
    have hp := h.closed p c hu
    have hroom := h.room p hp _ ((success_mem_fetch hbuilt).mpr ⟨h.node _ hu, rfl⟩)
    simp only [Sibling.code] at hroom
    rw [h.index p hp c (h.node _ hu)]
    omega

theorem check_eq_zero (h : Layout keywords t placed begin b) {p : Nat} (hp : b.size ≤ p) :
    b.check p = 0 := by
  by_contra hne
  obtain ⟨u, hu, s, hs, rfl, -⟩ := h.owner p hne
  have := h.room u hu s hs
  omega

theorem used_eq_false (h : Layout keywords t placed begin b) {k : Nat} (hk : b.size ≤ k) :
    b.used k = false := by
  rw [Bool.eq_false_iff]
  intro hused
  obtain ⟨u, hu, rfl⟩ := h.used k hused
  have := h.below u hu
  omega

/-- More cells keep what is in the others. -/
theorem grown (h : Layout keywords t placed begin b) (hbuilt : Built keywords t)
    (hg : b.Grown b') : Layout keywords t placed begin b' where
  alloc := h.alloc.trans hg.alloc
  size_le := hg.size ▸ h.size_le.trans hg.alloc
  node := h.node
  closed := h.closed
  begin_pos := h.begin_pos
  injective := h.injective
  used k hk := by
    rcases hg.used k with heq | ⟨-, heq⟩
    · exact h.used k (heq ▸ hk)
    · rw [heq] at hk
      cases hk
  owner p hp := by
    rcases hg.check p with heq | ⟨-, heq⟩
    · rw [heq] at hp ⊢
      exact h.owner p hp
    · exact absurd heq hp
  filled u hu s hs := by
    have := h.room u hu s hs
    have := h.size_le
    rw [(hg.check _).resolve_right (by omega)]
    exact h.filled u hu s hs
  room u hu s hs := hg.size ▸ h.room u hu s hs
  below u hu := hg.size ▸ h.below u hu
  usedAll u hu := by
    have := h.below u hu
    have := h.size_le
    rw [(hg.used _).resolve_right (by omega)]
    exact h.usedAll u hu
  root := hg.index ▸ h.root
  index := hg.index ▸ h.index
  base u hu := by
    have := h.index_lt hbuilt hu
    rw [hg.index, (hg.base _).resolve_right (by omega)]
    exact h.base u hu

end Layout

namespace Building

variable {keywords : List Text} {t : Trie} {placed : List State} {begin : State → Nat}
  {b : Building}

theorem checkAt_of_lt {p : Nat} (hp : p < b.allocSize) : b.checkAt p = some (b.check p) := if_pos hp

theorem usedAt_of_lt {p : Nat} (hp : p < b.allocSize) : b.usedAt p = some (b.used p) := if_pos hp

theorem allFree_spec {siblings : List Sibling} {beg : Nat}
    (hroom : ∀ s ∈ siblings, beg + s.code < b.allocSize) :
    ∃ free, b.allFree beg siblings = some free ∧
      (free = true ↔ ∀ s ∈ siblings, b.check (beg + s.code) = 0) := by
  induction siblings with
  | nil => exact ⟨true, rfl, by simp⟩
  | cons s siblings ih =>
    obtain ⟨free, hfree, hiff⟩ := ih fun s hs => hroom s (List.mem_cons_of_mem _ hs)
    rw [allFree, checkAt_of_lt (hroom s List.mem_cons_self)]
    simp only [Option.bind_eq_bind, Option.bind_some, List.forall_mem_cons]
    split
    next hne => exact ⟨false, rfl, by simp [hne]⟩
    next heq => exact ⟨free, hfree, by rw [hiff]; simp [not_not.mp heq]⟩

theorem Grown.refl (b : Building) : b.Grown b where
  alloc := Nat.le_refl _
  check _ := .inl rfl
  base _ := .inl rfl
  used _ := .inl rfl
  size := rfl
  index := rfl

theorem Grown.trans {b' b'' : Building} (h : b.Grown b') (h' : b'.Grown b'') : b.Grown b'' where
  alloc := h.alloc.trans h'.alloc
  check p := by
    have := h.alloc
    rcases h'.check p with heq | ⟨hle, heq⟩
    · rw [heq]
      exact h.check p
    · exact .inr ⟨by omega, heq⟩
  base p := by
    have := h.alloc
    rcases h'.base p with heq | ⟨hle, heq⟩
    · rw [heq]
      exact h.base p
    · exact .inr ⟨by omega, heq⟩
  used k := by
    have := h.alloc
    rcases h'.used k with heq | ⟨hle, heq⟩
    · rw [heq]
      exact h.used k
    · exact .inr ⟨by omega, heq⟩
  size := h'.size.trans h.size
  index := h'.index.trans h.index

theorem grown_resize {n : Nat} (hn : b.allocSize ≤ n) : b.Grown (b.resize n) where
  alloc := hn
  check p := by
    simp only [resize]
    split
    · exact .inl rfl
    · exact .inr ⟨by omega, rfl⟩
  base p := by
    simp only [resize]
    split
    · exact .inl rfl
    · exact .inr ⟨by omega, rfl⟩
  used k := by
    simp only [resize]
    split
    · exact .inl rfl
    · exact .inr ⟨by omega, rfl⟩
  size := rfl
  index := rfl

theorem grown_nextCheckPos (pos : Nat) : b.Grown { b with nextCheckPos := pos } :=
  { Grown.refl b with }

/-- `Resize` where the vectors end at `pos`. -/
theorem grown_reach (pos : Nat) :
    b.Grown (if b.allocSize ≤ pos then b.resize (pos + 1) else b) ∧
      pos < (if b.allocSize ≤ pos then b.resize (pos + 1) else b).allocSize := by
  split
  · exact ⟨grown_resize (by omega), Nat.lt_succ_self pos⟩
  · exact ⟨Grown.refl b, by omega⟩

/-- `Resize` where the cells of the siblings are past the end. -/
theorem grown_room (g : Growth) (begin last : Nat) (halloc : 512 * 32 ≤ b.allocSize)
    (hbegin : begin < b.allocSize) (hlast : last ≤ 256) :
    b.Grown (if b.allocSize ≤ begin + last then
        b.resize (g.grow b.allocSize b.keySize b.progress) else b) ∧
      begin + last < (if b.allocSize ≤ begin + last then
        b.resize (g.grow b.allocSize b.keySize b.progress) else b).allocSize := by
  have := g.room b.allocSize b.keySize b.progress halloc
  split
  · refine ⟨grown_resize (by omega), ?_⟩
    simp only [resize]
    omega
  · exact ⟨Grown.refl b, by omega⟩

/-- The cells that the search finds. -/
structure Found (b : Building) (first : Sibling) (rest : List Sibling) (place : Place) :
    Prop where
  grown : b.Grown place.building
  pos : place.pos = place.begin + first.code
  begin_pos : 1 ≤ place.begin
  unused : place.building.used place.begin = false
  free : ∀ s ∈ first :: rest, place.building.check (place.begin + s.code) = 0
  room : ∀ s ∈ first :: rest, place.begin + s.code < place.building.allocSize

/-- No sibling is past the last one. -/
theorem code_le_last {siblings : List Sibling} (hne : siblings ≠ [])
    (h : siblings.Pairwise fun r s => r.code < s.code) {s : Sibling} (hs : s ∈ siblings) :
    s.code ≤ (siblings.getLast hne).code := by
  rcases List.eq_nil_or_concat siblings with rfl | ⟨init, last, rfl⟩
  · cases hs
  · simp only [List.concat_eq_append, List.getLast_append_singleton, List.pairwise_append,
      List.mem_append] at hs h ⊢
    rcases hs with hs | hs
    · exact Nat.le_of_lt (h.2.2 s hs last (List.mem_singleton_self last))
    · rw [List.mem_singleton.mp hs]

/-- The search comes to the cells behind all others at last, and to the first ones if
no cell is taken. -/
theorem seek_spec (g : Growth) (hbuilt : Built keywords t) {first : Sibling}
    {rest : List Sibling} (hsorted : (first :: rest).Pairwise fun r s => r.code < s.code)
    {fuel pos nonzeroNum : Nat} {seenFirst : Bool} (h : Layout keywords t placed begin b)
    (hfuel : b.size + first.code ≤ pos + fuel) (hpositive : 0 < fuel) (hpos : first.code ≤ pos) :
    ∃ place, seek g first rest fuel b pos nonzeroNum seenFirst = some place ∧
      Found b first rest place ∧
      (b.size = 0 → place.begin = pos + 1 - first.code) := by
  induction fuel generalizing b pos nonzeroNum seenFirst with
  | zero => omega
  | succ fuel ih =>
    -- a round that fails leaves the fuel for the next
    have again {b' : Building} (hg : b.Grown b') (hfail : pos + 1 < b.size + first.code)
        (nonzeroNum : Nat) (seenFirst : Bool) :
        ∃ place, seek g first rest fuel b' (pos + 1) nonzeroNum seenFirst = some place ∧
          Found b first rest place ∧ (b.size = 0 → place.begin = pos + 1 - first.code) := by
      have hsize := hg.size
      obtain ⟨place, hplace, hfound, -⟩ := @ih b' (pos + 1) nonzeroNum seenFirst
        (h.grown hbuilt hg) (by omega) (by omega) (by omega)
      exact ⟨place, hplace, { hfound with grown := hg.trans hfound.grown }, by omega⟩
    rw [seek]
    obtain ⟨hg₁, hlt₁⟩ := b.grown_reach (pos + 1)
    generalize (if b.allocSize ≤ pos + 1 then b.resize (pos + 1 + 1) else b) = b₁ at hg₁ hlt₁ ⊢
    simp only [checkAt_of_lt hlt₁, Option.bind_eq_bind, Option.bind_some]
    have h₁ := h.grown hbuilt hg₁
    split
    next hne =>
      refine again hg₁ (Nat.lt_of_not_le fun hle => hne (h₁.check_eq_zero ?_)) _ _
      have := hg₁.size
      omega
    next hzero =>
      rw [not_not] at hzero
      have hg₂ : b₁.Grown (if seenFirst then b₁ else { b₁ with nextCheckPos := pos + 1 }) := by
        split
        · exact Grown.refl b₁
        · exact grown_nextCheckPos _
      generalize (if seenFirst then b₁ else { b₁ with nextCheckPos := pos + 1 }) = b₂ at hg₂ ⊢
      have h₂ := h₁.grown hbuilt hg₂
      have hlt₂ := hlt₁.trans_le hg₂.alloc
      obtain ⟨hg₃, hlt₃⟩ := b₂.grown_room g (pos + 1 - first.code)
        ((first :: rest).getLast (List.cons_ne_nil first rest)).code h₂.alloc (by omega) code_le
      generalize (if b₂.allocSize ≤ pos + 1 - first.code +
        ((first :: rest).getLast (List.cons_ne_nil first rest)).code then _ else b₂) = b₃
        at hg₃ hlt₃ ⊢
      have h₃ := h₂.grown hbuilt hg₃
      have hg := (hg₁.trans hg₂).trans hg₃
      have hsize := hg.size
      have hroom : ∀ s ∈ first :: rest, pos + 1 - first.code + s.code < b₃.allocSize := by
        intro s hs
        have := code_le_last (List.cons_ne_nil first rest) hsorted hs
        omega
      obtain ⟨free, hfree, hiff⟩ := @allFree_spec b₃ rest (pos + 1 - first.code)
        fun s hs => hroom s (List.mem_cons_of_mem _ hs)
      rw [usedAt_of_lt (by omega), Option.bind_some, hfree]
      split
      next hused =>
        refine again hg (Nat.lt_of_not_le fun hle => ?_) _ _
        rw [h₃.used_eq_false (by omega)] at hused
        cases hused
      next hunused =>
        rw [Option.bind_some]
        split
        next hall =>
          refine ⟨_, rfl, ⟨hg, by simp only; omega, by simp only; omega,
            Bool.eq_false_iff.mpr hunused, ?_, hroom⟩, fun _ => rfl⟩
          rw [List.forall_mem_cons]
          refine ⟨?_, hiff.mp hall⟩
          have hpos' : pos + 1 - first.code + first.code = pos + 1 := by omega
          simp only [hpos']
          have hzero₂ : b₂.check (pos + 1) = 0 := by
            rcases hg₂.check (pos + 1) with heq | ⟨-, heq⟩
            · exact heq.trans hzero
            · exact heq
          rcases hg₃.check (pos + 1) with heq | ⟨-, heq⟩
          · exact heq.trans hzero₂
          · exact heq
        next hall =>
          refine again hg (Nat.lt_of_not_le fun hle => hall (hiff.mpr fun s hs => ?_)) _ _
          exact h₃.check_eq_zero (by omega)

end Building

end Dexllm.AhoCorasick
