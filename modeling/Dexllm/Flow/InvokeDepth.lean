import Dexllm.Flow.Origins

/-!
The argument analysis under a larger depth. A deeper window holds the blocks of
a shallower one after the blocks it adds, so each block starts from what it
started from or more.
-/

namespace Dexllm

namespace Cfg

variable {g : Cfg} {d : Nat} {frontier : List Nat} {dist : List (Nat × Nat)}

theorem mem_levelAbove {p : Nat × Nat} (h : p ∈ g.levelAbove d frontier dist) :
    p.2 = d + 1 ∧ dist.lookup p.1 = none := by
  unfold levelAbove at h
  obtain ⟨b, hb, rfl⟩ := List.mem_map.mp h
  rw [List.mem_reverse, List.mem_dedup, List.mem_reverse, List.mem_filter] at hb
  exact ⟨rfl, Option.isNone_iff_eq_none.mp hb.2⟩

theorem lookup_eq_none_of_append {more : List (Nat × Nat)} {b : Nat}
    (h : (dist ++ more).lookup b = none) : dist.lookup b = none := by
  rw [List.lookup_append, Option.or_eq_none_iff] at h
  exact h.1

/-- What further rounds of the walk add: blocks that are new and farther. -/
theorem windowFrom_extends (g : Cfg) (rounds d : Nat) (frontier : List Nat)
    (dist : List (Nat × Nat)) : ∃ more, g.windowFrom rounds d frontier dist = dist ++ more ∧
      ∀ p ∈ more, d < p.2 ∧ p.2 ≤ d + rounds ∧ dist.lookup p.1 = none := by
  induction rounds generalizing d frontier dist with
  | zero => exact ⟨[], (List.append_nil dist).symm, fun p hp => nomatch hp⟩
  | succ rounds ih =>
    unfold windowFrom
    dsimp only
    split
    · exact ⟨[], (List.append_nil dist).symm, fun p hp => nomatch hp⟩
    · obtain ⟨more, heq, hmore⟩ := ih (d + 1) ((g.levelAbove d frontier dist).map (·.1))
        (dist ++ g.levelAbove d frontier dist)
      refine ⟨g.levelAbove d frontier dist ++ more, by rw [heq, List.append_assoc], ?_⟩
      intro p hp
      obtain hlevel | hdeep := List.mem_append.mp hp
      · obtain ⟨hdist, hnew⟩ := mem_levelAbove hlevel
        exact ⟨by omega, by omega, hnew⟩
      · obtain ⟨hlow, hhigh, hnew⟩ := hmore p hdeep
        exact ⟨by omega, by omega, lookup_eq_none_of_append hnew⟩

theorem windowFrom_add (g : Cfg) (rounds extra d : Nat) (frontier : List Nat)
    (dist : List (Nat × Nat)) :
    ∃ more, g.windowFrom (rounds + extra) d frontier dist =
        g.windowFrom rounds d frontier dist ++ more ∧
      ∀ p ∈ more, d + rounds < p.2 ∧ dist.lookup p.1 = none := by
  induction rounds generalizing d frontier dist with
  | zero =>
    obtain ⟨more, heq, hmore⟩ := windowFrom_extends g extra d frontier dist
    refine ⟨more, by rw [Nat.zero_add, heq]; rfl, ?_⟩
    exact fun p hp => ⟨(hmore p hp).1, (hmore p hp).2.2⟩
  | succ rounds ih =>
    rw [Nat.add_right_comm]
    unfold windowFrom
    dsimp only
    split
    · exact ⟨[], (List.append_nil dist).symm, fun p hp => nomatch hp⟩
    · obtain ⟨more, heq, hmore⟩ := ih (d + 1) ((g.levelAbove d frontier dist).map (·.1))
        (dist ++ g.levelAbove d frontier dist)
      refine ⟨more, heq, fun p hp => ?_⟩
      obtain ⟨hlow, hnew⟩ := hmore p hp
      exact ⟨by omega, lookup_eq_none_of_append hnew⟩

/-- The order of a window: the farthest blocks first, the blocks of one distance
by their number. -/
def Farther (x y : Nat × Nat) : Prop := if x.2 ≠ y.2 then y.2 < x.2 else x.1 ≤ y.1

instance : DecidableRel Farther := fun x y =>
  inferInstanceAs (Decidable (if x.2 ≠ y.2 then y.2 < x.2 else x.1 ≤ y.1))

instance : Std.Total Farther where
  total x y := by
    unfold Farther
    split <;> split <;> omega

instance : IsTrans (Nat × Nat) Farther where
  trans x y z hxy hyz := by
    unfold Farther at *
    split at hxy <;> split at hyz <;> split <;> omega

instance : Std.Antisymm Farther where
  antisymm x y hxy hyx := by
    unfold Farther at *
    apply Prod.ext <;> split at hxy <;> split at hyx <;> omega

/-- What is farther than a whole window stands before it. -/
theorem insertionSort_append {xs ys : List (Nat × Nat)} (h : ∀ y ∈ ys, ∀ x ∈ xs, x.2 < y.2) :
    (xs ++ ys).insertionSort Farther = ys.insertionSort Farther ++ xs.insertionSort Farther := by
  apply List.Perm.eq_of_pairwise' (r := Farther)
  · exact List.pairwise_insertionSort Farther _
  · rw [List.pairwise_append]
    refine ⟨List.pairwise_insertionSort Farther _, List.pairwise_insertionSort Farther _, ?_⟩
    intro y hy x hx
    have hlt := h y ((List.mem_insertionSort _).mp hy) x ((List.mem_insertionSort _).mp hx)
    unfold Farther
    rw [if_pos (by omega)]
    exact hlt
  · exact (List.perm_insertionSort _ _).trans (List.perm_append_comm.trans
      ((List.perm_insertionSort _ _).symm.append (List.perm_insertionSort _ _).symm))

/-- A deeper window puts blocks before a shallower one, and not the block itself. -/
theorem window_add (g : Cfg) (depth extra b : Nat) :
    ∃ more, g.window (depth + extra) b = more ++ g.window depth b ∧ b ∉ more := by
  obtain ⟨near, hnear, hnearMore⟩ := windowFrom_extends g depth 0 [b] [(b, 0)]
  obtain ⟨more, hmore, hfar⟩ := windowFrom_add g depth extra 0 [b] [(b, 0)]
  refine ⟨(more.insertionSort Farther).map (·.1), ?_, ?_⟩
  · have hbefore : ∀ y ∈ more, ∀ x ∈ g.windowFrom depth 0 [b] [(b, 0)], x.2 < y.2 := by
      intro y hy x hx
      have hlow := (hfar y hy).1
      rw [hnear] at hx
      obtain hself | hx := List.mem_append.mp hx
      · obtain rfl := List.mem_singleton.mp hself
        change 0 < y.2
        omega
      · have hhigh := (hnearMore x hx).2.1
        omega
    have hmap := congrArg (List.map (·.1)) (insertionSort_append hbefore)
    unfold window
    rw [hmore]
    rw [List.map_append] at hmap
    exact hmap
  · intro hb
    obtain ⟨p, hp, rfl⟩ := List.mem_map.mp hb
    have hnew := (hfar p ((List.mem_insertionSort _).mp hp)).2
    rw [List.lookup_cons_self] at hnew
    cases hnew

end Cfg

namespace CodeItem

variable (c : CodeItem)

/-- Whether the loop over the window of block `b` runs out of a budget. -/
def resolveExhausts (g : Cfg) (b : Nat) : (window : List Nat) → (work stored : Nat) →
    List (Nat × RegFile) → Bool
  | [], _, _, _ => false
  | w :: window, work, stored, outs =>
    let st := c.incoming g w outs
    if w = b then false
    else if kMaxWork < work ∨ kMaxWindowEntries < stored + st.length then true
    else
      let run := c.runBlock g w st
      resolveExhausts g b window (work + run.simulated) (stored + run.regs.length)
        ((w, run.regs) :: outs)

/-- Whether the block loop runs out of a budget at some block. -/
def blocksExhaust (g : Cfg) (depth : Nat) : (blocks : List Nat) → (work : Nat) → Bool
  | [], _ => false
  | b :: blocks, work =>
    g.hasInvoke.getD b false && (decide (kMaxWork < work) ||
        c.resolveExhausts g b (g.window depth b) work 0 []) ||
      blocksExhaust g depth blocks (c.analyzeBlock g depth b work).2

/-- Whether `AnalyzeInvokes` runs out of a budget. -/
def exhausts (depth : Nat) : Bool :=
  c.blocksExhaust c.buildCfg depth (List.range c.buildCfg.starts.length) 0

variable {c} {g : Cfg} {b : Nat}

/-- Over one window two runs keep the order of the states they start from. -/
theorem resolve_within (window : List Nat) {work work' stored stored' : Nat}
    {outs outs' : List (Nat × RegFile)} (h : OutsWithin outs outs')
    (hfits : c.resolveExhausts g b window work stored outs = false)
    (hfits' : c.resolveExhausts g b window work' stored' outs' = false) :
    (c.resolve g b window work stored outs).1.Within
      (c.resolve g b window work' stored' outs').1 := by
  induction window generalizing work work' stored stored' outs outs' with
  | nil => exact RegFile.Within.refl []
  | cons w window ih =>
    have hst := incoming_within (c := c) (g := g) (w := w) h
    unfold resolveExhausts at hfits hfits'
    unfold resolve
    dsimp only at hfits hfits' ⊢
    by_cases hw : w = b
    · rw [if_pos hw, if_pos hw]
      exact hst
    · rw [if_neg hw] at hfits hfits' ⊢
      rw [if_neg hw]
      split at hfits
      · cases hfits
      split at hfits'
      · cases hfits'
      rename_i hroom hroom'
      rw [if_neg hroom, if_neg hroom']
      refine ih ?_ hfits hfits'
      intro p
      rw [List.lookup_cons, List.lookup_cons]
      split
      · exact (runBlock_within hst).1
      · exact h p

/-- Blocks put before a window are resolved first. -/
theorem resolve_append (more window : List Nat) (hb : b ∉ more) {work stored : Nat}
    {outs : List (Nat × RegFile)}
    (hfits : c.resolveExhausts g b (more ++ window) work stored outs = false) :
    ∃ work' stored' outs',
      c.resolveExhausts g b window work' stored' outs' = false ∧
      c.resolve g b (more ++ window) work stored outs =
        c.resolve g b window work' stored' outs' := by
  induction more generalizing work stored outs with
  | nil => exact ⟨work, stored, outs, hfits, rfl⟩
  | cons w more ih =>
    have hw : w ≠ b := fun heq => hb (heq ▸ List.mem_cons_self)
    rw [List.cons_append] at hfits ⊢
    unfold resolveExhausts at hfits
    dsimp only at hfits
    rw [if_neg hw] at hfits
    split at hfits
    · cases hfits
    rename_i hroom
    obtain ⟨work', stored', outs', hrest, heq⟩ :=
      ih (fun hmem => hb (List.mem_cons_of_mem _ hmem)) hfits
    exact ⟨work', stored', outs', hrest, by rw [← heq, resolve, if_neg hw, if_neg hroom]⟩

/-- A deeper window resolves a block to a state that knows more. -/
theorem resolve_window {depth extra work work' : Nat}
    (hfits : c.resolveExhausts g b (g.window depth b) work 0 [] = false)
    (hfits' : c.resolveExhausts g b (g.window (depth + extra) b) work' 0 [] = false) :
    (c.resolve g b (g.window depth b) work 0 []).1.Within
      (c.resolve g b (g.window (depth + extra) b) work' 0 []).1 := by
  obtain ⟨more, hwindow, hb⟩ := g.window_add depth extra b
  rw [hwindow] at hfits' ⊢
  obtain ⟨work₁, stored₁, outs₁, hrest, heq⟩ := resolve_append more _ hb hfits'
  rw [heq]
  exact resolve_within _ (fun p => RegFile.nil_within _) hfits hrest

theorem analyzeBlock_within {depth extra work work' : Nat}
    (hfits : (g.hasInvoke.getD b false && (decide (kMaxWork < work) ||
      c.resolveExhausts g b (g.window depth b) work 0 [])) = false)
    (hfits' : (g.hasInvoke.getD b false && (decide (kMaxWork < work') ||
      c.resolveExhausts g b (g.window (depth + extra) b) work' 0 [])) = false) :
    List.Forall₂ InvokeSiteWithArgs.Within (c.analyzeBlock g depth b work).1
      (c.analyzeBlock g (depth + extra) b work').1 := by
  unfold analyzeBlock
  cases hcall : g.hasInvoke.getD b false with
  | false => exact .nil
  | true =>
    rw [hcall, Bool.true_and, Bool.or_eq_false_iff, decide_eq_false_iff_not, not_lt]
      at hfits hfits'
    rw [if_pos rfl, if_pos rfl, if_pos hfits.1, if_pos hfits'.1]
    exact (runBlock_within (resolve_window hfits.2 hfits'.2)).2

theorem analyzeBlocks_within {depth extra : Nat} (blocks : List Nat) {work work' : Nat}
    (hfits : c.blocksExhaust g depth blocks work = false)
    (hfits' : c.blocksExhaust g (depth + extra) blocks work' = false) :
    List.Forall₂ InvokeSiteWithArgs.Within (c.analyzeBlocks g depth blocks work)
      (c.analyzeBlocks g (depth + extra) blocks work') := by
  induction blocks generalizing work work' with
  | nil => exact .nil
  | cons b blocks ih =>
    unfold blocksExhaust at hfits hfits'
    rw [Bool.or_eq_false_iff] at hfits hfits'
    unfold analyzeBlocks
    exact List.rel_append (analyzeBlock_within hfits.1 hfits'.1) (ih hfits.2 hfits'.2)

/-- A larger depth lists the same call sites in the same order and keeps every
argument a smaller depth knows, if neither run exhausts a budget. -/
theorem analyzeInvokes_depth_mono (c : CodeItem) {d d' : Nat} (hdepth : d ≤ d')
    (hfits : c.exhausts d = false) (hfits' : c.exhausts d' = false) :
    List.Forall₂ InvokeSiteWithArgs.Within (c.analyzeInvokes d) (c.analyzeInvokes d') := by
  obtain ⟨extra, rfl⟩ := Nat.exists_eq_add_of_le hdepth
  exact analyzeBlocks_within _ hfits hfits'

/-- The code item of `const/4 v0, #1; goto +1; invoke-static {v0}; return-void`. -/
def jumpedCall : CodeItem :=
  ⟨[1, 0, 0, 0, 1, 0, 0, 0, 0, 0, 0, 0, 6, 0, 0, 0,
    0x12, 0x10, 0x28, 1, 0x71, 0x10, 0, 0, 0, 0, 0x0E, 0], 16, 6, 0⟩

set_option maxRecDepth 20000 in
/-- The runs on the code item. -/
theorem jumpedCall_runs :
    jumpedCall.exhausts 0 = false ∧ jumpedCall.exhausts 1 = false ∧
    ((jumpedCall.analyzeInvokes 0).map fun s => s.args.map (·.kind)) = [[.unknown]] ∧
    ((jumpedCall.analyzeInvokes 1).map fun s => s.args.map (·.kind)) = [[.constInt]] := by
  decide

/-- With one level of blocks before it the call passes a constant, without them
nothing known. -/
theorem analyzeInvokes_depth_mono_jumpedCall :
    List.Forall₂ InvokeSiteWithArgs.Within (jumpedCall.analyzeInvokes 0)
      (jumpedCall.analyzeInvokes 1) ∧
    ((jumpedCall.analyzeInvokes 0).map fun s => s.args.map (·.kind)) = [[.unknown]] ∧
    ((jumpedCall.analyzeInvokes 1).map fun s => s.args.map (·.kind)) = [[.constInt]] := by
  obtain ⟨hfits, hfits', hkinds, hkinds'⟩ := jumpedCall_runs
  exact ⟨analyzeInvokes_depth_mono jumpedCall (by decide) hfits hfits', hkinds, hkinds'⟩

end CodeItem

end Dexllm
