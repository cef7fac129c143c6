import Dexllm.Search.DoubleArray

/-!
The construction of the double array places every state that has successors.
-/

namespace Dexllm.AhoCorasick

open LevelQueue

/-- The cells of the siblings. -/
def cells (beg : Nat) (siblings : List Sibling) : List Nat := siblings.map (beg + ·.code)

namespace Building

variable {t : Trie} {u : State} {beg : Nat} {b b' b'' : Building} {siblings : List Sibling}

theorem foldlM_setCheck (hroom : ∀ s ∈ siblings, beg + s.code < b.allocSize) :
    siblings.foldlM (fun b s => b.setCheck (beg + s.code) beg) b =
      some { b with check := fun p => if p ∈ cells beg siblings then beg else b.check p } := by
  induction siblings generalizing b with
  | nil => simp [cells]
  | cons s siblings ih =>
    have hrest := @ih { b with check := Function.update b.check (beg + s.code) beg }
      fun r hr => hroom r (List.mem_cons_of_mem _ hr)
    rw [List.foldlM_cons, setCheck, if_pos (hroom s List.mem_cons_self), Option.bind_eq_bind,
      Option.bind_some]
    refine hrest.trans ?_
    congr 2
    funext p
    by_cases hp : p = beg + s.code
    · simp [cells, hp]
    · simp [cells, hp]

/-- What the loop that fills the queue leaves. -/
structure Settled (u : State) (beg : Nat) (siblings : List Sibling) (b b' : Building) : Prop where
  check : b'.check = b.check
  used : b'.used = b.used
  allocSize : b'.allocSize = b.allocSize
  size : b'.size = b.size
  base : ∀ p, p ∉ cells beg siblings → b'.base p = b.base p
  index : ∀ c, .success c (u ++ [c]) ∈ siblings → b'.index (u ++ [c]) = beg + c.toNat + 1
  indexOther : ∀ v, (∀ c, .success c v ∉ siblings) → b'.index v = b.index v

theorem settle_spec {s : Sibling} (hroom : beg + s.code < b.allocSize)
    (hform : ∀ c v, s = .success c v → v = u ++ [c]) :
    ∃ b', settle t beg b s = some b' ∧ Settled u beg [s] b b' := by
  cases s with
  | fakeNode emit =>
    rw [Sibling.code, Nat.add_zero] at hroom
    refine ⟨{ b with
        base := Function.update b.base beg (-emit - 1), progress := b.progress + 1 },
      by simp [settle, setBase, hroom], rfl, rfl, rfl, rfl, fun p hp => ?_, fun c hc => ?_,
      fun _ _ => rfl⟩
    · simp only [cells, List.map_cons, List.map_nil, List.mem_singleton, Sibling.code] at hp
      exact Function.update_of_ne (by omega) _ _
    · cases List.mem_singleton.mp hc
  | success c v =>
    obtain rfl := hform c v rfl
    rw [Sibling.code] at hroom
    have hindex (index : State → Nat) (w : State)
        (hw : ∀ d, Sibling.success d w ∉ [Sibling.success c (u ++ [c])]) :
        Function.update index (u ++ [c]) (beg + (c.toNat + 1)) w = index w := by
      refine Function.update_of_ne (fun heq => hw c ?_) _ _
      rw [heq]
      exact List.mem_singleton_self _
    have hown (index : State → Nat) (d : UInt8)
        (hd : Sibling.success d (u ++ [d]) ∈ [Sibling.success c (u ++ [c])]) :
        Function.update index (u ++ [c]) (beg + (c.toNat + 1)) (u ++ [d]) = beg + d.toNat + 1 := by
      obtain ⟨rfl, -⟩ := Sibling.success.inj (List.mem_singleton.mp hd)
      rw [Function.update_self, Nat.add_assoc]
    let index := Function.update b.index (u ++ [c]) (beg + (c.toNat + 1))
    by_cases hleaf : t.fetch (u ++ [c]) = []
    · refine ⟨{ b with
          base := Function.update b.base (beg + (c.toNat + 1)) (-t.largestValueId (u ++ [c]) - 1)
          progress := b.progress + 1, index := index },
        by simp [settle, setBase, hroom, hleaf, index], rfl, rfl, rfl, rfl, fun p hp => ?_,
        fun d hd => hown _ d hd, fun w hw => hindex _ w hw⟩
      simp only [cells, List.map_cons, List.map_nil, List.mem_singleton, Sibling.code] at hp
      exact Function.update_of_ne hp _ _
    · exact ⟨{ b with index := index }, by simp [settle, hleaf, index], rfl, rfl, rfl, rfl,
        fun _ _ => rfl, fun d hd => hown _ d hd, fun w hw => hindex _ w hw⟩

theorem foldlM_settle (hroom : ∀ s ∈ siblings, beg + s.code < b.allocSize)
    (hform : ∀ c v, .success c v ∈ siblings → v = u ++ [c]) :
    ∃ b', siblings.foldlM (settle t beg) b = some b' ∧ Settled u beg siblings b b' := by
  induction siblings generalizing b with
  | nil => exact ⟨b, rfl, rfl, rfl, rfl, rfl, fun _ _ => rfl, by simp, fun _ _ => rfl⟩
  | cons s siblings ih =>
    obtain ⟨b₁, hstep, h₁⟩ := @settle_spec t u beg b s (hroom s List.mem_cons_self)
      fun c v hs => hform c v (hs ▸ List.mem_cons_self)
    obtain ⟨b₂, hrest, h₂⟩ := @ih b₁
      (fun r hr => h₁.allocSize ▸ hroom r (List.mem_cons_of_mem _ hr))
      fun c v hs => hform c v (List.mem_cons_of_mem _ hs)
    rw [List.foldlM_cons, hstep]
    refine ⟨b₂, hrest, h₂.check.trans h₁.check, h₂.used.trans h₁.used,
      h₂.allocSize.trans h₁.allocSize, h₂.size.trans h₁.size, fun p hp => ?_, fun c hc => ?_,
      fun v hv => ?_⟩
    · simp only [cells, List.map_cons, List.mem_cons, not_or] at hp
      rw [h₂.base p hp.2, h₁.base p (by simpa [cells] using hp.1)]
    · by_cases hmem : .success c (u ++ [c]) ∈ siblings
      · exact h₂.index c hmem
      · have hs : .success c (u ++ [c]) ∈ [s] := by
          rcases List.mem_cons.mp hc with rfl | hc
          · exact List.mem_singleton_self _
          · exact absurd hc hmem
        rw [h₂.indexOther, h₁.index c hs]
        intro d hd
        obtain rfl := List.singleton_inj.mp
          (List.append_cancel_left (hform d _ (List.mem_cons_of_mem _ hd)))
        exact hmem hd
    · rw [h₂.indexOther v fun c hc => hv c (List.mem_cons_of_mem _ hc), h₁.indexOther v]
      intro c hc
      exact hv c (List.mem_singleton.mp hc ▸ List.mem_cons_self)

end Building

/-- What `Insert` does to the vectors. -/
structure Inserted (keywords : List Text) (t : Trie) (u : State) (beg : Nat) (b b' : Building) :
    Prop where
  allocSize : b'.allocSize = b.allocSize
  size_le : b.size ≤ b'.size
  size_alloc : b'.size ≤ b'.allocSize
  below : beg < b'.size
  room : ∀ s ∈ t.fetch u, beg + s.code < b'.size
  check : ∀ p, b'.check p = if p ∈ cells beg (t.fetch u) then beg else b.check p
  used : ∀ k, b'.used k = true ↔ k = beg ∨ b.used k = true
  index : ∀ c, Node keywords (u ++ [c]) → b'.index (u ++ [c]) = beg + c.toNat + 1
  indexOther : ∀ v, (∀ c, v ≠ u ++ [c]) → b'.index v = b.index v
  base : ∀ p, p ∉ cells beg (t.fetch u) → p ≠ b.index u → b'.base p = b.base p
  own : b'.base (b.index u) = beg

namespace Layout

variable {keywords : List Text} {t : Trie} {placed : List State} {begin : State → Nat}
  {b b' : Building} {u v w : State} {c d : UInt8} {beg : Nat}

theorem check_index (h : Layout keywords t placed begin b) (hbuilt : Built keywords t)
    (hw : w ∈ placed) (hnode : Node keywords (w ++ [c])) :
    b.check (b.index (w ++ [c])) = begin w := by
  have hfilled := h.filled w hw _ ((success_mem_fetch hbuilt).mpr ⟨hnode, rfl⟩)
  rw [h.index w hw c hnode]
  exact hfilled

theorem index_inj (h : Layout keywords t placed begin b) (hbuilt : Built keywords t)
    (hu : u = [] ∨ ∃ w ∈ placed, ∃ c, Node keywords (w ++ [c]) ∧ u = w ++ [c])
    (hv : v = [] ∨ ∃ w ∈ placed, ∃ c, Node keywords (w ++ [c]) ∧ v = w ++ [c])
    (heq : b.index u = b.index v) : u = v := by
  rcases hu with rfl | ⟨w, hw, c, hc, rfl⟩
  · rcases hv with rfl | ⟨w, hw, c, hc, rfl⟩
    · rfl
    · rw [h.root, h.index w hw c hc] at heq
      omega
  · rcases hv with rfl | ⟨x, hx, d, hd, rfl⟩
    · rw [h.root, h.index w hw c hc] at heq
      omega
    · have hbegin : begin w = begin x := by
        rw [← h.check_index hbuilt hw hc, heq, h.check_index hbuilt hx hd]
      obtain rfl := h.injective w hw x hx hbegin
      rw [h.index w hw c hc, h.index w hw d hd] at heq
      obtain rfl : c = d := UInt8.toNat_inj.mp (by omega)
      rfl

/-- A state is placed behind its parent. -/
theorem insert (h : Layout keywords t placed begin b) (hbuilt : Built keywords t)
    (hi : Inserted keywords t u beg b b') (hu : Node keywords u) (hnew : u ∉ placed)
    (hparent : ∀ p c, u = p ++ [c] → p ∈ placed) (hpositive : 1 ≤ beg)
    (hunused : b.used beg = false) (hfree : ∀ s ∈ t.fetch u, b.check (beg + s.code) = 0) :
    Layout keywords t (u :: placed) (Function.update begin u beg) b' := by
  have hother {v : State} (hv : v ∈ placed) : v ≠ u := fun heq => hnew (heq ▸ hv)
  have hold {v : State} (hv : v ∈ placed) : Function.update begin u beg v = begin v :=
    Function.update_of_ne (hother hv) _ _
  have hown : Function.update begin u beg u = beg := Function.update_self _ _ _
  have hchild {v : State} (hv : v ∈ placed) (c : UInt8) : v ≠ u ++ [c] :=
    fun heq => hnew (h.closed u c (by rw [← heq]; exact hv))
  have hfresh {v : State} (hv : v ∈ placed) : begin v ≠ beg := by
    intro heq
    have := h.usedAll v hv
    rw [heq, hunused] at this
    cases this
  have hcheck {p : Nat} (hp : b.check p ≠ 0) : b'.check p = b.check p := by
    rw [hi.check, if_neg]
    intro hmem
    obtain ⟨s, hs, rfl⟩ := List.mem_map.mp hmem
    exact hp (hfree s hs)
  have hreached {v : State} (hv : v ∈ u :: placed) :
      v = [] ∨ ∃ w ∈ placed, ∃ c, Node keywords (w ++ [c]) ∧ v = w ++ [c] := by
    rcases List.eq_nil_or_concat v with rfl | ⟨w, c, rfl⟩
    · exact .inl rfl
    · rw [List.concat_eq_append] at hv ⊢
      right
      rcases List.mem_cons.mp hv with heq | hv
      · exact ⟨w, hparent w c heq.symm, c, heq ▸ hu, rfl⟩
      · exact ⟨w, h.closed w c hv, c, h.node _ hv, rfl⟩
  refine ⟨hi.allocSize ▸ h.alloc, hi.size_alloc, ?_, ?_, ?_, ?_, ?_, ?_, ?_, ?_, ?_, ?_, ?_, ?_, ?_⟩
  · exact List.forall_mem_cons.mpr ⟨hu, h.node⟩
  · intro v c hv
    rcases List.mem_cons.mp hv with heq | hv
    · exact List.mem_cons_of_mem _ (hparent v c heq.symm)
    · exact List.mem_cons_of_mem _ (h.closed v c hv)
  · refine List.forall_mem_cons.mpr ⟨hown.symm ▸ hpositive, fun v hv => ?_⟩
    rw [hold hv]
    exact h.begin_pos v hv
  · intro v hv w hw heq
    rcases List.mem_cons.mp hv with hvu | hv
    · rcases List.mem_cons.mp hw with hwu | hw
      · rw [hvu, hwu]
      · rw [hvu, hown, hold hw] at heq
        exact absurd heq.symm (hfresh hw)
    · rcases List.mem_cons.mp hw with hwu | hw
      · rw [hwu, hown, hold hv] at heq
        exact absurd heq (hfresh hv)
      · rw [hold hv, hold hw] at heq
        exact h.injective v hv w hw heq
  · intro k hk
    rcases (hi.used k).mp hk with rfl | hk
    · exact ⟨u, List.mem_cons_self, hown⟩
    · obtain ⟨v, hv, rfl⟩ := h.used k hk
      exact ⟨v, List.mem_cons_of_mem _ hv, hold hv⟩
  · intro p hp
    rw [hi.check] at hp ⊢
    split at hp
    next hmem =>
      obtain ⟨s, hs, rfl⟩ := List.mem_map.mp hmem
      exact ⟨u, List.mem_cons_self, s, hs, by rw [hown], by rw [if_pos hmem, hown]⟩
    next hmem =>
      obtain ⟨v, hv, s, hs, rfl, hp⟩ := h.owner p hp
      exact ⟨v, List.mem_cons_of_mem _ hv, s, hs, by rw [hold hv],
        by rw [if_neg hmem, hp, hold hv]⟩
  · intro v hv s hs
    rcases List.mem_cons.mp hv with rfl | hv
    · rw [hown, hi.check, if_pos (by exact List.mem_map_of_mem hs)]
    · have hfilled := h.filled v hv s hs
      have := h.begin_pos v hv
      rw [hold hv, hcheck (by omega), hfilled]
  · intro v hv s hs
    rcases List.mem_cons.mp hv with rfl | hv
    · rw [hown]
      exact hi.room s hs
    · rw [hold hv]
      exact (h.room v hv s hs).trans_le hi.size_le
  · refine List.forall_mem_cons.mpr ⟨hown.symm ▸ hi.below, fun v hv => ?_⟩
    rw [hold hv]
    exact (h.below v hv).trans_le hi.size_le
  · refine List.forall_mem_cons.mpr ⟨?_, fun v hv => ?_⟩
    · rw [hown]
      exact (hi.used beg).mpr (.inl rfl)
    · rw [hold hv]
      exact (hi.used _).mpr (.inr (h.usedAll v hv))
  · rw [hi.indexOther [] fun c => List.ne_nil_of_length_pos (by simp) ∘ Eq.symm]
    exact h.root
  · intro v hv c hc
    rcases List.mem_cons.mp hv with rfl | hv
    · rw [hown]
      exact hi.index c hc
    · rw [hold hv, hi.indexOther]
      · exact h.index v hv c hc
      · intro d heq
        exact hnew ((List.append_inj' heq rfl).1 ▸ hv)
  · intro v hv
    have hindex : b'.index v = b.index v := by
      refine hi.indexOther v fun c heq => ?_
      rcases List.mem_cons.mp hv with rfl | hv
      · exact absurd (congrArg List.length heq) (by simp)
      · exact hchild hv c heq
    rw [hindex]
    rcases List.mem_cons.mp hv with rfl | hv'
    · rw [hown]
      exact hi.own
    · rw [hold hv', hi.base, h.base v hv']
      · intro hmem
        obtain ⟨s, hs, heq⟩ := List.mem_map.mp hmem
        have hzero := hfree s hs
        rcases hreached hv with rfl | ⟨w, hw, c, hc, rfl⟩
        · rw [h.root] at heq
          omega
        · have := h.begin_pos w hw
          rw [heq, h.check_index hbuilt hw hc] at hzero
          omega
      · intro heq
        exact hnew (h.index_inj hbuilt (hreached hv) (hreached List.mem_cons_self) heq ▸ hv')

end Layout

section Insert

variable {keywords : List Text} {t : Trie} (hbuilt : Built keywords t) {placed : List State}
  {begin : State → Nat} {b : Building} {u : State}
include hbuilt

/-- `Insert` finds cells for the siblings behind a state. The ones behind the root come
first, where `base` of the root says they are. -/
theorem insert_spec (g : Growth) (h : Layout keywords t placed begin b) (hu : Node keywords u)
    (hnew : u ∉ placed) (hparent : ∀ p c, u = p ++ [c] → p ∈ placed) (hne : t.fetch u ≠ [])
    (hroot : u = [] → b.size = 0 ∧ b.nextCheckPos = 0 ∧ b.base 0 = 1) :
    ∃ b' beg, b.insert g t u = some b' ∧
      Layout keywords t (u :: placed) (Function.update begin u beg) b' := by
  obtain ⟨first, rest, hfetch⟩ := List.exists_cons_of_ne_nil hne
  have hsorted := hfetch ▸ @code_ascending _ _ hbuilt u
  simp only [Building.insert, hfetch]
  obtain ⟨hg₁, -⟩ := b.grown_reach (max (first.code + 1) b.nextCheckPos - 1)
  generalize (if b.allocSize ≤ max (first.code + 1) b.nextCheckPos - 1 then _ else b) = b₁
    at hg₁ ⊢
  obtain ⟨place, hplace, hfound, hfirst⟩ := @Building.seek_spec keywords t placed begin b₁ g hbuilt
    first rest hsorted (b₁.size + 1) (max (first.code + 1) b.nextCheckPos - 1) 0 false
    (h.grown hbuilt hg₁) (by omega) (Nat.succ_pos _) (by omega)
  obtain ⟨beg, hbeg⟩ : ∃ beg, place.begin = beg := ⟨_, rfl⟩
  have hg := hg₁.trans hfound.grown
  have h' := h.grown hbuilt hg
  have hroom := hfound.room
  have hfirstRoom := hroom first List.mem_cons_self
  simp only [hplace, Option.bind_eq_bind, Option.bind_some]
  have hfree := hfound.free
  have hpositive := hfound.begin_pos
  have hunused := hfound.unused
  simp only [hbeg] at hfirst hroom hfirstRoom hfree hpositive hunused ⊢
  obtain ⟨b₂, hb₂, hcheck₂, hbase₂, hused₂, halloc₂, hsize₂, hindex₂⟩ :
      ∃ b₂, (if 19 * (place.pos - place.building.nextCheckPos + 1) ≤ 20 * place.nonzeroNum then
        { place.building with nextCheckPos := place.pos } else place.building) = b₂ ∧
        b₂.check = place.building.check ∧ b₂.base = place.building.base ∧
        b₂.used = place.building.used ∧ b₂.allocSize = place.building.allocSize ∧
        b₂.size = place.building.size ∧ b₂.index = place.building.index := by
    split
    · exact ⟨_, rfl, rfl, rfl, rfl, rfl, rfl, rfl⟩
    · exact ⟨_, rfl, rfl, rfl, rfl, rfl, rfl, rfl⟩
  rw [hb₂, Building.setUsed, if_pos (by omega), Option.bind_some]
  obtain ⟨last, hlast⟩ : ∃ last, (first :: rest).getLast (List.cons_ne_nil first rest) = last :=
    ⟨_, rfl⟩
  have hlastMem : last ∈ first :: rest := hlast ▸ List.getLast_mem _
  have hlastRoom := hroom last hlastMem
  have hlastLe {s : Sibling} (hs : s ∈ first :: rest) : s.code ≤ last.code :=
    hlast ▸ Building.code_le_last (List.cons_ne_nil first rest) hsorted hs
  rw [hlast]
  have hchecks := @Building.foldlM_setCheck beg { b₂ with
    used := Function.update b₂.used beg true, size := max b₂.size (beg + last.code + 1) }
    (first :: rest) fun s hs => halloc₂ ▸ hroom s hs
  have hform (c : UInt8) (v : State) (hv : Sibling.success c v ∈ first :: rest) : v = u ++ [c] :=
    ((success_mem_fetch hbuilt).mp (hfetch ▸ hv)).2
  obtain ⟨b₃, hb₃, hs⟩ := @Building.foldlM_settle t u beg { b₂ with
    check := fun p => if p ∈ cells beg (first :: rest) then beg else b₂.check p
    used := Function.update b₂.used beg true
    size := max b₂.size (beg + last.code + 1) } (first :: rest)
    (fun s hs => halloc₂ ▸ hroom s hs) hform
  have hown : b₃.index u = b.index u := by
    rw [hs.indexOther u, hindex₂, hg.index]
    intro c hc
    exact absurd (congrArg List.length (hform c u hc)) (by simp)
  have hsize₀ := hg.size
  have hsizeLe := h'.size_le
  -- all but the write to `base` of the state itself
  have hinserted {b₄ : Building} (hcheck : b₄.check = b₃.check) (hused : b₄.used = b₃.used)
      (halloc : b₄.allocSize = b₃.allocSize) (hsize : b₄.size = b₃.size)
      (hindex : b₄.index = b₃.index)
      (hbase : ∀ p, p ≠ b.index u → b₄.base p = b₃.base p) (hat : b₄.base (b.index u) = beg) :
      Layout keywords t (u :: placed) (Function.update begin u beg) b₄ := by
    have hsize₃ : b₄.size = max b₂.size (beg + last.code + 1) := hsize.trans hs.size
    have halloc₃ : b₄.allocSize = place.building.allocSize :=
      halloc.trans (hs.allocSize.trans halloc₂)
    refine h'.insert hbuilt ⟨halloc₃, by omega, by omega, by omega, ?_, ?_, ?_, ?_, ?_, ?_, ?_⟩ hu
      hnew hparent hpositive hunused (hfetch ▸ hfree)
    · intro s hmem
      have := hlastLe (hfetch ▸ hmem)
      omega
    · intro p
      rw [hcheck, hs.check, hfetch, hcheck₂]
    · intro k
      rw [hused, hs.used, hused₂]
      by_cases hk : k = beg
      · simp [hk]
      · simp [hk]
    · intro c hc
      rw [hindex]
      exact hs.index c (hfetch ▸ (success_mem_fetch hbuilt).mpr ⟨hc, rfl⟩)
    · intro v hv
      rw [hindex, hs.indexOther v fun c hc => hv c (hform c v hc), hindex₂]
    · intro p hp hne
      rw [hg.index] at hne
      rw [hbase p hne, hs.base p (hfetch ▸ hp), hbase₂]
    · rw [hg.index]
      exact hat
  simp only [hchecks, Option.bind_some, hb₃]
  by_cases hnil : u = []
  · rw [if_pos hnil]
    obtain ⟨hzero, hnext, hone⟩ := hroot hnil
    have hbeg : beg = 1 := by
      rw [hfirst (hg₁.size.trans hzero), hnext]
      omega
    refine ⟨b₃, beg, rfl, hinserted rfl rfl rfl rfl rfl (fun _ _ => rfl) ?_⟩
    rw [hnil, h.root, hs.base 0, hbase₂, (hg.base 0).resolve_right, hone, hbeg]
    · rfl
    · have := h.alloc
      omega
    · intro hmem
      obtain ⟨s, -, heq⟩ := List.mem_map.mp hmem
      omega
  · rw [if_neg hnil]
    have hlt : b₃.index u < b₃.allocSize := by
      have halloc₃ : b₃.allocSize = place.building.allocSize := hs.allocSize.trans halloc₂
      rcases List.eq_nil_or_concat u with rfl | ⟨p, c, rfl⟩
      · exact absurd rfl hnil
      · rw [List.concat_eq_append] at hown hu hparent ⊢
        have hp := hparent p c rfl
        have hcell := h'.room p hp _ ((success_mem_fetch hbuilt).mpr ⟨hu, rfl⟩)
        simp only [Sibling.code] at hcell
        rw [hown, h.index p hp c hu]
        omega
    rw [Building.setBase, if_pos hlt]
    refine ⟨_, beg, rfl, hinserted rfl rfl rfl rfl rfl (fun p hp => ?_) ?_⟩
    · exact Function.update_of_ne (hown ▸ hp) _ _
    · rw [← hown]
      exact Function.update_self _ _ _

/-- The states in the order of the queue are placed one after the other. -/
theorem foldlM_insert (g : Growth) (placed rest : List State)
    (horder : order t.children [[]] (letters keywords + 1) = placed ++ rest)
    (hfetch : t.fetch [] ≠ []) (h : Layout keywords t placed.reverse begin b)
    (hroot : placed = [] → b.size = 0 ∧ b.nextCheckPos = 0 ∧ b.base 0 = 1) :
    ∃ b' begin', rest.foldlM (Building.insert g t) b = some b' ∧
      Layout keywords t (order t.children [[]] (letters keywords + 1)).reverse begin' b' := by
  induction rest generalizing placed begin b with
  | nil => exact ⟨b, begin, rfl, by rw [horder, List.append_nil]; exact h⟩
  | cons u rest ih =>
    have hnodup := horder ▸ @nodup_order _ _ hbuilt (letters keywords + 1)
    have hlengths := horder ▸ @pairwise_order _ _ hbuilt (letters keywords + 1)
    rw [List.nodup_append] at hnodup
    rw [List.pairwise_append] at hlengths
    have hu : Node keywords u := (mem_order_iff hbuilt).mp
      (horder ▸ List.mem_append_right _ List.mem_cons_self)
    have hnew : u ∉ placed := fun hmem => hnodup.2.2 u hmem u List.mem_cons_self rfl
    have hparent (p : State) (c : UInt8) (heq : u = p ++ [c]) : p ∈ placed.reverse := by
      have hp : p ∈ placed ++ u :: rest := horder ▸ (mem_order_iff hbuilt).mpr
        ((prefixClosed_node keywords).closed p c (heq ▸ hu))
      have hlength := congrArg List.length heq
      rw [List.length_append, List.length_singleton] at hlength
      rcases List.mem_append.mp hp with hp | hp
      · exact List.mem_reverse.mpr hp
      · rcases List.mem_cons.mp hp with rfl | hp
        · omega
        · have := List.rel_of_pairwise_cons hlengths.2.1 hp
          omega
    obtain ⟨b₁, beg, hstep, h₁⟩ := @insert_spec keywords t hbuilt placed.reverse begin b u g h hu
      (fun hmem => hnew (List.mem_reverse.mp hmem)) hparent
      (by
        by_cases hnil : u = []
        · rw [hnil]
          exact hfetch
        · exact fetch_ne_nil hbuilt hu hnil)
      fun hnil => hroot (List.eq_nil_iff_forall_not_mem.mpr fun v hv => by
        have hle := hlengths.2.2 v hv u List.mem_cons_self
        rw [hnil, List.length_nil, Nat.le_zero, List.length_eq_zero_iff] at hle
        exact hnew (hnil.trans hle.symm ▸ hv))
    rw [List.foldlM_cons, hstep]
    have hreverse : u :: placed.reverse = (placed ++ [u]).reverse := by simp
    exact ih (placed ++ [u]) (by rw [horder, List.append_assoc, List.singleton_append])
      (hreverse ▸ h₁) fun hnil => absurd hnil (by simp)

end Insert

end Dexllm.AhoCorasick
