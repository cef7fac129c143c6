import Dexllm.Lib.Association
import Mathlib.Data.List.Perm.Subperm

/-!
Search by levels from a set of roots, with one parent pointer for each vertex it
meets. The trail of parents of a vertex is a shortest walk to a root.
-/

namespace LevelSearch

variable {α : Type} [DecidableEq α] (succ : α → List α) (roots : List α)

/-- The parent of each vertex met so far, the latest first. -/
abbrev Parents (α : Type) := List (α × α)

/-- Meet `e.2` from `e.1`. -/
def discover (s : Parents α × List α) (e : α × α) : Parents α × List α :=
  if e.2 ∈ roots ∨ (s.1.lookup e.2).isSome = true then s
  else ((e.2, e.1) :: s.1, s.2 ++ [e.2])

/-- The edges out of a frontier, in order. -/
def edgesFrom (frontier : List α) : List (α × α) :=
  frontier.flatMap fun p => (succ p).map fun x => (p, x)

/-- One level: the parents after it, and the vertices it met. -/
def expand (parents : Parents α) (frontier : List α) : Parents α × List α :=
  (edgesFrom succ frontier).foldl (discover roots) (parents, [])

/-- The search from a frontier on; `none` if the rounds run out. -/
def search : (rounds : Nat) → Parents α → List α → Option (Parents α)
  | _, parents, [] => some parents
  | 0, _, _ :: _ => none
  | rounds + 1, parents, x :: xs =>
    let next := expand succ roots parents (x :: xs)
    search rounds next.1 next.2

/-- The parents from `x` up to a vertex without one; `none` if the rounds run
out. -/
def chase (parents : Parents α) (rounds : Nat) (x : α) : Option (List α) :=
  match parents.lookup x, rounds with
  | none, _ => some []
  | some _, 0 => none
  | some p, rounds + 1 => (chase parents rounds p).map (p :: ·)

/-- A walk from `x` that ends in a root: its vertices after `x`. -/
inductive Walk : α → List α → Prop where
  | last {x r : α} (h : x ∈ succ r) (hr : r ∈ roots) : Walk x [r]
  | step {x y : α} {path : List α} (h : x ∈ succ y) (hrest : Walk y path) : Walk x (y :: path)

/-- Every vertex is met once, no root is, and each from a root or a vertex met
before it. -/
inductive Grown : Parents α → Prop where
  | nil : Grown []
  | cons {x p : α} {rest : Parents α} (hrest : Grown rest) (hroot : x ∉ roots)
      (hnew : rest.lookup x = none) (hedge : x ∈ succ p)
      (hparent : p ∈ roots ∨ (rest.lookup p).isSome = true) : Grown ((x, p) :: rest)

/-- The trail of parents, along the list. -/
def trail : Parents α → α → List α
  | [], _ => []
  | (x, p) :: rest, y => if y = x then p :: trail rest p else trail rest y

def depth (parents : Parents α) (x : α) : Nat := (trail parents x).length

variable {succ roots} {parents : Parents α} {x y p : α}

theorem lookup_cons_ne (h : y ≠ x) : List.lookup y ((x, p) :: parents) = parents.lookup y := by
  rw [List.lookup_cons, beq_eq_false_iff_ne.mpr h]

theorem trail_cons_self : trail ((x, p) :: parents) x = p :: trail parents p := by
  rw [trail, if_pos rfl]

theorem trail_cons_ne (h : y ≠ x) : trail ((x, p) :: parents) y = trail parents y := by
  rw [trail, if_neg h]

theorem trail_eq_nil (h : parents.lookup x = none) : trail parents x = [] := by
  induction parents with
  | nil => rfl
  | cons e parents ih =>
    obtain ⟨z, q⟩ := e
    have hne : x ≠ z := by
      rintro rfl
      rw [List.lookup_cons_self] at h
      cases h
    rw [lookup_cons_ne hne] at h
    rw [trail_cons_ne hne]
    exact ih h

namespace Grown

variable (h : Grown succ roots parents)
include h

/-- What a pointer of the list says. -/
theorem pointer (hlookup : parents.lookup x = some p) :
    x ∉ roots ∧ x ∈ succ p ∧ (p ∈ roots ∨ (parents.lookup p).isSome = true) := by
  induction h with
  | nil => cases hlookup
  | @cons z q rest hrest hroot hnew hedge hparent ih =>
    have hkeep (y : α) (hy : (rest.lookup y).isSome = true) :
        (List.lookup y ((z, q) :: rest)).isSome = true := by
      have hne : y ≠ z := by
        rintro rfl
        rw [hnew] at hy
        cases hy
      rwa [lookup_cons_ne hne]
    by_cases hx : x = z
    · subst hx
      rw [List.lookup_cons_self] at hlookup
      obtain rfl := Option.some.inj hlookup
      exact ⟨hroot, hedge, hparent.imp_right (hkeep q)⟩
    · rw [lookup_cons_ne hx] at hlookup
      obtain ⟨hxroot, hxedge, hxparent⟩ := ih hlookup
      exact ⟨hxroot, hxedge, hxparent.imp_right (hkeep p)⟩

theorem lookup_root (hroot : x ∈ roots) : parents.lookup x = none := by
  cases hlookup : parents.lookup x with
  | none => rfl
  | some p => exact absurd hroot (h.pointer hlookup).1

theorem trail_root (hroot : x ∈ roots) : trail parents x = [] :=
  trail_eq_nil (h.lookup_root hroot)

/-- The trail of a vertex goes on with the one of its parent. -/
theorem trail_of_lookup (hlookup : parents.lookup x = some p) :
    trail parents x = p :: trail parents p := by
  induction h with
  | nil => cases hlookup
  | @cons z q rest hrest hroot hnew hedge hparent ih =>
    have hne (y : α) (hy : y ∈ roots ∨ (rest.lookup y).isSome = true) : y ≠ z := by
      rintro rfl
      obtain hy | hy := hy
      · exact hroot hy
      · rw [hnew] at hy
        cases hy
    by_cases hx : x = z
    · subst hx
      rw [List.lookup_cons_self] at hlookup
      obtain rfl := Option.some.inj hlookup
      rw [trail_cons_self, trail_cons_ne (hne q hparent)]
    · rw [lookup_cons_ne hx] at hlookup
      rw [trail_cons_ne hx, trail_cons_ne (hne p (hrest.pointer hlookup).2.2), ih hlookup]

theorem keys_nodup : (parents.map Prod.fst).Nodup := by
  induction h with
  | nil => exact List.nodup_nil
  | cons hrest hroot hnew hedge hparent ih =>
    refine List.nodup_cons.mpr ⟨fun hmem => ?_, ih⟩
    obtain ⟨e, he, heq⟩ := List.mem_map.mp hmem
    exact Association.lookup_eq_none_iff.mp hnew e he heq

theorem depth_le_length (x : α) : depth parents x ≤ parents.length := by
  unfold depth
  induction h generalizing x with
  | nil => exact Nat.le_refl 0
  | @cons z q rest _ _ _ _ _ ih =>
    by_cases hx : x = z
    · subst hx
      rw [trail_cons_self]
      exact Nat.succ_le_succ (ih q)
    · rw [trail_cons_ne hx]
      exact Nat.le_succ_of_le (ih x)

/-- The chase collects the trail. -/
theorem chase_eq {rounds : Nat} (hrounds : depth parents x ≤ rounds) :
    chase parents rounds x = some (trail parents x) := by
  induction rounds generalizing x with
  | zero =>
    unfold chase
    cases hlookup : parents.lookup x with
    | none => rw [trail_eq_nil hlookup]
    | some p =>
      rw [depth, h.trail_of_lookup hlookup] at hrounds
      exact absurd hrounds (Nat.not_succ_le_zero _)
  | succ rounds ih =>
    unfold chase
    cases hlookup : parents.lookup x with
    | none => rw [trail_eq_nil hlookup]
    | some p =>
      rw [depth, h.trail_of_lookup hlookup] at hrounds
      dsimp only
      rw [ih (Nat.le_of_succ_le_succ hrounds), h.trail_of_lookup hlookup]
      rfl

/-- The trail of a vertex that is met is a walk to a root, through no other. -/
theorem walk_trail (hlookup : (parents.lookup x).isSome = true) :
    Walk succ roots x (trail parents x) ∧ ∀ y ∈ (trail parents x).dropLast, y ∉ roots := by
  obtain ⟨n, hn⟩ : ∃ n, depth parents x = n := ⟨_, rfl⟩
  induction n generalizing x with
  | zero =>
    obtain ⟨p, hp⟩ := Option.isSome_iff_exists.mp hlookup
    rw [depth, h.trail_of_lookup hp] at hn
    cases hn
  | succ n ih =>
    obtain ⟨p, hp⟩ := Option.isSome_iff_exists.mp hlookup
    obtain ⟨-, hedge, hparent⟩ := h.pointer hp
    have htrail := h.trail_of_lookup hp
    obtain hroot | hmet := hparent
    · rw [htrail, h.trail_root hroot]
      exact ⟨.last hedge hroot, by simp⟩
    · rw [depth, htrail, List.length_cons] at hn
      obtain ⟨hwalk, hinner⟩ := ih hmet (Nat.succ.inj hn)
      have hnotRoot : p ∉ roots := by
        obtain ⟨q, hq⟩ := Option.isSome_iff_exists.mp hmet
        exact (h.pointer hq).1
      rw [htrail]
      refine ⟨.step hedge hwalk, fun y hy => ?_⟩
      have hne : trail parents p ≠ [] := by
        intro hnil
        rw [hnil] at hwalk
        cases hwalk
      rw [List.dropLast_cons_of_ne_nil hne] at hy
      obtain rfl | hy := List.mem_cons.mp hy
      · exact hnotRoot
      · exact hinner y hy

end Grown

/-- After `n` levels: the vertices met are those up to depth `n`, the frontier
those at depth `n`, and every edge from a vertex above the frontier is used. -/
structure Levelled (succ : α → List α) (roots : List α) (n : Nat) (parents : Parents α)
    (frontier : List α) : Prop where
  grown : Grown succ roots parents
  shallow : ∀ x, (parents.lookup x).isSome = true → depth parents x ≤ n
  atFrontier : ∀ x ∈ frontier, (x ∈ roots ∨ (parents.lookup x).isSome = true) ∧
    depth parents x = n
  complete : ∀ x, x ∈ roots ∨ (parents.lookup x).isSome = true → depth parents x = n →
    succ x ≠ [] → x ∈ frontier
  covered : ∀ p, p ∈ roots ∨ (parents.lookup p).isSome = true → depth parents p < n →
    ∀ x ∈ succ p, x ∉ roots →
      (parents.lookup x).isSome = true ∧ depth parents x ≤ depth parents p + 1

/-- The state inside a level, after the edges `done`, against the parents it
started from. -/
structure Extends (succ : α → List α) (roots : List α) (n : Nat) (parents : Parents α)
    (done : List (α × α)) (s : Parents α × List α) : Prop where
  grown : Grown succ roots s.1
  kept : ∀ x, (parents.lookup x).isSome = true → (s.1.lookup x).isSome = true ∧
    trail s.1 x = trail parents x
  fresh : ∀ x, (s.1.lookup x).isSome = true → (parents.lookup x).isSome = true ∨ x ∈ s.2
  met : ∀ x ∈ s.2, (s.1.lookup x).isSome = true ∧ depth s.1 x = n + 1
  used : ∀ e ∈ done, e.2 ∈ roots ∨ (s.1.lookup e.2).isSome = true
  more : parents.length + s.2.length = s.1.length

theorem Extends.discover {n : Nat} {done : List (α × α)} {s : Parents α × List α} {e : α × α}
    (h : Extends succ roots n parents done s) (hedge : e.2 ∈ succ e.1)
    (hsource : e.1 ∈ roots ∨ (parents.lookup e.1).isSome = true)
    (hdepth : depth parents e.1 = n) :
    Extends succ roots n parents (done ++ [e]) (discover roots s e) := by
  unfold LevelSearch.discover
  split
  · rename_i hold
    refine ⟨h.grown, h.kept, h.fresh, h.met, fun e' he' => ?_, h.more⟩
    obtain he' | he' := List.mem_append.mp he'
    · exact h.used e' he'
    · obtain rfl := List.mem_singleton.mp he'
      exact hold
  · rename_i hnew
    obtain ⟨hroot, hunmet⟩ := not_or.mp hnew
    rw [Option.not_isSome_iff_eq_none] at hunmet
    have hsource' : e.1 ∈ roots ∨ (s.1.lookup e.1).isSome = true :=
      hsource.imp_right fun hmet => (h.kept e.1 hmet).1
    have hother (x : α) (hx : (s.1.lookup x).isSome = true) : x ≠ e.2 := by
      rintro rfl
      rw [hunmet] at hx
      cases hx
    have hlast : depth s.1 e.1 = n := by
      obtain hr | hmet := hsource
      · rw [← hdepth, depth, depth, h.grown.trail_root hr, eq_comm]
        by_cases hmet : (parents.lookup e.1).isSome = true
        · rw [← (h.kept e.1 hmet).2, h.grown.trail_root hr]
        · rw [trail_eq_nil (Option.not_isSome_iff_eq_none.mp hmet)]
      · rw [depth, (h.kept e.1 hmet).2]
        exact hdepth
    refine ⟨.cons h.grown hroot hunmet hedge hsource', fun x hx => ?_, fun x hx => ?_,
      fun x hx => ?_, fun e' he' => ?_, ?_⟩
    · obtain ⟨hmet, htrail⟩ := h.kept x hx
      rw [lookup_cons_ne (hother x hmet), trail_cons_ne (hother x hmet)]
      exact ⟨hmet, htrail⟩
    · by_cases heq : x = e.2
      · exact Or.inr (List.mem_append_right _ (List.mem_singleton.mpr heq))
      · rw [lookup_cons_ne heq] at hx
        exact (h.fresh x hx).imp_right (List.mem_append_left _)
    · obtain hx | hx := List.mem_append.mp hx
      · obtain ⟨hmet, hd⟩ := h.met x hx
        rw [lookup_cons_ne (hother x hmet), depth, trail_cons_ne (hother x hmet)]
        exact ⟨hmet, hd⟩
      · obtain rfl := List.mem_singleton.mp hx
        rw [List.lookup_cons_self, depth, trail_cons_self, List.length_cons]
        exact ⟨rfl, congrArg (· + 1) hlast⟩
    · obtain he' | he' := List.mem_append.mp he'
      · refine (h.used e' he').imp_right fun hmet => ?_
        rwa [lookup_cons_ne (hother _ hmet)]
      · obtain rfl := List.mem_singleton.mp he'
        exact Or.inr (by rw [List.lookup_cons_self]; rfl)
    · have hmore := h.more
      rw [List.length_append, List.length_singleton]
      dsimp only
      rw [List.length_cons]
      omega

omit [DecidableEq α] in
theorem mem_edgesFrom {frontier : List α} {e : α × α} :
    e ∈ edgesFrom succ frontier ↔ e.1 ∈ frontier ∧ e.2 ∈ succ e.1 := by
  unfold edgesFrom
  rw [List.mem_flatMap]
  constructor
  · rintro ⟨p, hp, he⟩
    obtain ⟨x, hx, rfl⟩ := List.mem_map.mp he
    exact ⟨hp, hx⟩
  · rintro ⟨hp, hx⟩
    exact ⟨e.1, hp, List.mem_map.mpr ⟨e.2, hx, rfl⟩⟩

namespace Levelled

variable {n : Nat} {frontier : List α} (h : Levelled succ roots n parents frontier)
include h

/-- A level uses every edge out of the frontier. -/
theorem extends_expand : Extends succ roots n parents (edgesFrom succ frontier)
    (expand succ roots parents frontier) := by
  have hstart : Extends succ roots n parents [] (parents, []) :=
    ⟨h.grown, fun x hx => ⟨hx, rfl⟩, fun x hx => Or.inl hx, (fun x hx => nomatch hx),
      (fun e he => nomatch he), rfl⟩
  have hrun (todo done : List (α × α)) (s : Parents α × List α)
      (hedges : ∀ e ∈ todo, e ∈ edgesFrom succ frontier)
      (hs : Extends succ roots n parents done s) :
      Extends succ roots n parents (done ++ todo) (todo.foldl (discover roots) s) := by
    induction todo generalizing done s with
    | nil => rwa [List.append_nil]
    | cons e todo ih =>
      obtain ⟨hin, hedge⟩ := mem_edgesFrom.mp (hedges e List.mem_cons_self)
      obtain ⟨hsource, hdepth⟩ := h.atFrontier e.1 hin
      have hnext := ih (done ++ [e]) _ (fun e' he' => hedges e' (List.mem_cons_of_mem _ he'))
        (hs.discover hedge hsource hdepth)
      rwa [List.append_assoc] at hnext
  exact hrun _ [] _ (fun e he => he) hstart

/-- One level further. -/
theorem expand : Levelled succ roots (n + 1) (LevelSearch.expand succ roots parents frontier).1
    (LevelSearch.expand succ roots parents frontier).2 := by
  have hext := h.extends_expand
  generalize LevelSearch.expand succ roots parents frontier = s at hext ⊢
  have hdepth (x : α) (hx : (parents.lookup x).isSome = true) : depth s.1 x = depth parents x := by
    rw [depth, (hext.kept x hx).2, depth]
  have hroot (x : α) (hx : x ∈ roots) : depth s.1 x = 0 := by
    rw [depth, hext.grown.trail_root hx]
    rfl
  have hroot' (x : α) (hx : x ∈ roots) : depth parents x = 0 := by
    rw [depth, h.grown.trail_root hx]
    rfl
  refine ⟨hext.grown, fun x hx => ?_, fun x hx => ?_, fun x hx hn _ => ?_,
    fun p hp hlt x hx hxroot => ?_⟩
  · obtain hold | hnew := hext.fresh x hx
    · rw [hdepth x hold]
      exact Nat.le_succ_of_le (h.shallow x hold)
    · exact Nat.le_of_eq (hext.met x hnew).2
  · obtain ⟨hmet, hd⟩ := hext.met x hx
    exact ⟨Or.inr hmet, hd⟩
  · obtain hx | hx := hx
    · rw [hroot x hx] at hn
      cases hn
    · obtain hold | hnew := hext.fresh x hx
      · have hle := h.shallow x hold
        rw [hdepth x hold] at hn
        omega
      · exact hnew
  · -- the vertex was above the frontier, or it is in it
    have hbefore : (p ∈ roots ∨ (parents.lookup p).isSome = true) ∧
        depth s.1 p = depth parents p := by
      obtain hp | hp := hp
      · exact ⟨Or.inl hp, by rw [hroot p hp, hroot' p hp]⟩
      · obtain hold | hnew := hext.fresh p hp
        · exact ⟨Or.inr hold, hdepth p hold⟩
        · have hd := (hext.met p hnew).2
          omega
    obtain ⟨hp, hsame⟩ := hbefore
    rw [hsame] at hlt ⊢
    obtain habove | hat := Nat.lt_or_eq_of_le (Nat.le_of_lt_succ hlt)
    · obtain ⟨hmet, hle⟩ := h.covered p hp habove x hx hxroot
      rw [hdepth x hmet]
      exact ⟨(hext.kept x hmet).1, hle⟩
    · have hin := h.complete p hp hat (List.ne_nil_of_mem hx)
      have hmet := (hext.used (p, x) (mem_edgesFrom.mpr ⟨hin, hx⟩)).resolve_left hxroot
      refine ⟨hmet, ?_⟩
      obtain hold | hnew := hext.fresh x hmet
      · rw [hdepth x hold, hat]
        exact Nat.le_succ_of_le (h.shallow x hold)
      · exact Nat.le_of_eq (by rw [(hext.met x hnew).2, hat])

/-- The search ends, with no vertex left at the frontier. -/
theorem search_ends {space : List α} (hspace : ∀ p, ∀ x ∈ succ p, x ∈ space)
    {rounds : Nat} (hrounds : space.length + 1 ≤ parents.length + rounds) :
    ∃ last n, search succ roots rounds parents frontier = some last ∧
      Levelled succ roots n last [] := by
  induction rounds generalizing n parents frontier with
  | zero =>
    have hsub : parents.map Prod.fst ⊆ space := by
      intro x hx
      obtain ⟨e, he, rfl⟩ := List.mem_map.mp hx
      have hlookup := Association.lookup_of_mem h.grown.keys_nodup he
      exact hspace _ _ (h.grown.pointer hlookup).2.1
    have hle := (List.subperm_of_subset h.grown.keys_nodup hsub).length_le
    rw [List.length_map] at hle
    omega
  | succ rounds ih =>
    cases frontier with
    | nil => exact ⟨parents, n, rfl, h⟩
    | cons f rest =>
      have hnext := h.expand
      have hmore := h.extends_expand.more
      change ∃ last n, search succ roots rounds _ _ = some last ∧ _
      cases hfront : (LevelSearch.expand succ roots parents (f :: rest)).2 with
      | nil =>
        rw [hfront] at hnext
        refine ⟨_, _, ?_, hnext⟩
        cases rounds <;> rfl
      | cons g more =>
        rw [hfront] at hnext hmore
        refine ih hnext ?_
        rw [List.length_cons] at hmore
        omega

end Levelled

/-- At the end every vertex with a walk to a root is met, at the length of its
shortest walk. -/
theorem Levelled.shortest {n : Nat} (h : Levelled succ roots n parents []) {path : List α}
    (hwalk : Walk succ roots x path) (hx : x ∉ roots) :
    (parents.lookup x).isSome = true ∧ depth parents x ≤ path.length := by
  have habove (p : α) (hp : p ∈ roots ∨ (parents.lookup p).isSome = true) (hne : succ p ≠ []) :
      depth parents p < n := by
    have hle : depth parents p ≤ n := by
      obtain hp | hp := hp
      · rw [depth, h.grown.trail_root hp]
        exact Nat.zero_le n
      · exact h.shallow p hp
    obtain hlt | heq := Nat.lt_or_eq_of_le hle
    · exact hlt
    · exact nomatch h.complete p hp heq hne
  induction hwalk with
  | @last x r hedge hr =>
    have hlt := habove r (Or.inl hr) (List.ne_nil_of_mem hedge)
    have hcovered := h.covered r (Or.inl hr) hlt x hedge hx
    rwa [depth.eq_def parents r, h.grown.trail_root hr] at hcovered
  | @step x y path hedge hrest ih =>
    by_cases hy : y ∈ roots
    · have hlt := habove y (Or.inl hy) (List.ne_nil_of_mem hedge)
      obtain ⟨hmet, hle⟩ := h.covered y (Or.inl hy) hlt x hedge hx
      rw [depth.eq_def parents y, h.grown.trail_root hy] at hle
      exact ⟨hmet, Nat.le_trans hle (Nat.succ_le_succ (Nat.zero_le _))⟩
    · obtain ⟨hymet, hyle⟩ := ih hy
      have hlt := habove y (Or.inr hymet) (List.ne_nil_of_mem hedge)
      obtain ⟨hmet, hle⟩ := h.covered y (Or.inr hymet) hlt x hedge hx
      exact ⟨hmet, Nat.le_trans hle (Nat.succ_le_succ hyle)⟩

/-! The search under an injective renaming of the vertices. -/

section Renaming

variable {β : Type} [DecidableEq β] {ρ : α → β} (hρ : Function.Injective ρ) {succ' : β → List β}
include hρ

theorem discover_rename (s : Parents α × List α) (e : α × α) :
    discover (roots.map ρ) (Prod.map (List.map (Prod.map ρ ρ)) (List.map ρ) s)
        (Prod.map ρ ρ e) =
      Prod.map (List.map (Prod.map ρ ρ)) (List.map ρ) (discover roots s e) := by
  obtain ⟨parents, met⟩ := s
  obtain ⟨p, x⟩ := e
  unfold discover
  simp only [Prod.map_apply, Association.lookup_map_key hρ, List.mem_map_of_injective hρ,
    Option.isSome_map]
  split
  · rfl
  · simp

theorem expand_rename (hsucc : ∀ p, succ' (ρ p) = (succ p).map ρ) (parents : Parents α)
    (frontier : List α) :
    LevelSearch.expand succ' (roots.map ρ) (parents.map (Prod.map ρ ρ)) (frontier.map ρ) =
      Prod.map (List.map (Prod.map ρ ρ)) (List.map ρ)
        (LevelSearch.expand succ roots parents frontier) := by
  have hedges : edgesFrom succ' (frontier.map ρ) =
      (edgesFrom succ frontier).map (Prod.map ρ ρ) := by
    unfold edgesFrom
    rw [List.flatMap_map, List.map_flatMap]
    refine congrArg (frontier.flatMap ·) (funext fun p => ?_)
    rw [hsucc, List.map_map, List.map_map]
    rfl
  have hfold (edges : List (α × α)) (s : Parents α × List α) :
      (edges.map (Prod.map ρ ρ)).foldl (discover (roots.map ρ))
          (Prod.map (List.map (Prod.map ρ ρ)) (List.map ρ) s) =
        Prod.map (List.map (Prod.map ρ ρ)) (List.map ρ) (edges.foldl (discover roots) s) := by
    induction edges generalizing s with
    | nil => rfl
    | cons e edges ih =>
      rw [List.map_cons, List.foldl_cons, discover_rename hρ, ih, List.foldl_cons]
  unfold LevelSearch.expand
  rw [hedges]
  exact hfold _ (parents, [])

/-- The search of the renamed vertices is the renamed search. -/
theorem search_rename (hsucc : ∀ p, succ' (ρ p) = (succ p).map ρ) (rounds : Nat)
    (parents : Parents α) (frontier : List α) :
    search succ' (roots.map ρ) rounds (parents.map (Prod.map ρ ρ)) (frontier.map ρ) =
      (search succ roots rounds parents frontier).map (List.map (Prod.map ρ ρ)) := by
  induction rounds generalizing parents frontier with
  | zero =>
    cases frontier with
    | nil => rfl
    | cons x xs => rfl
  | succ rounds ih =>
    cases frontier with
    | nil => rfl
    | cons x xs =>
      rw [search, ← ih, ← Prod.map_fst (List.map (Prod.map ρ ρ)) (List.map ρ),
        ← Prod.map_snd (List.map (Prod.map ρ ρ)) (List.map ρ), ← expand_rename hρ hsucc]
      rfl

theorem chase_rename (parents : Parents α) (rounds : Nat) (x : α) :
    chase (parents.map (Prod.map ρ ρ)) rounds (ρ x) =
      (chase parents rounds x).map (List.map ρ) := by
  induction rounds generalizing x with
  | zero =>
    unfold chase
    rw [Association.lookup_map_key hρ]
    cases parents.lookup x <;> rfl
  | succ rounds ih =>
    unfold chase
    rw [Association.lookup_map_key hρ]
    cases parents.lookup x with
    | none => rfl
    | some p =>
      change (chase (parents.map (Prod.map ρ ρ)) rounds (ρ p)).map (ρ p :: ·) =
        ((chase parents rounds p).map (p :: ·)).map (List.map ρ)
      rw [ih, Option.map_map, Option.map_map]
      rfl

end Renaming

end LevelSearch
