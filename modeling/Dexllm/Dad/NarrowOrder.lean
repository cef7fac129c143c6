import Dexllm.Dad.NarrowForward
import Mathlib.Algebra.Group.Action.Defs
import Mathlib.Algebra.Order.BigOperators.Group.Finset

/-!
`forward` in any order. A round takes any version of the queue and puts its users
back in any order; every run ends, and what it ends with is the same: the least
fixpoint of the transfer. Only the type of a version that becomes bad, which is
never read, depends on the order.
-/

namespace Dexllm

namespace Dad

namespace NarrowPass

/-- A round of `forward` for any queued version. -/
inductive Round (p : NarrowPass) (lifts : Lifts) : NarrowState → NarrowState → Prop where
  | visit {σ : NarrowState} {vid : Vid} {users sources : List Vid} (hvid : vid ∈ σ.work)
      (husers : users.Perm (p.users vid)) (hsources : sources.Perm (lifts.of vid)) :
      Round p lifts σ (p.visit users sources { σ with work := σ.work.erase vid } vid)

/-- A run of `n` rounds. -/
inductive Rounds (p : NarrowPass) (lifts : Lifts) : Nat → NarrowState → NarrowState → Prop where
  | refl (σ : NarrowState) : Rounds p lifts 0 σ σ
  | snoc {n : Nat} {σ σ' σ'' : NarrowState} (h : Rounds p lifts n σ σ')
      (hround : Round p lifts σ' σ'') : Rounds p lifts (n + 1) σ σ''

/-- A run from `σ` ends in `σ'`, with an empty queue. -/
def Ends (p : NarrowPass) (lifts : Lifts) (σ σ' : NarrowState) : Prop :=
  (∃ n, Rounds p lifts n σ σ') ∧ σ'.work = []

section Step

variable {p : NarrowPass} {lifts : Lifts} {σ σ' : NarrowState} {vid w : Vid}

theorem mem_pushAll {vids work : List Vid} : w ∈ pushAll vids work ↔ w ∈ work ∨ w ∈ vids := by
  induction vids generalizing work with
  | nil => simp [pushAll]
  | cons v vids ih =>
    rw [pushAll, List.foldl_cons, ← pushAll, ih, List.mem_cons]
    split
    · rename_i hv
      constructor
      · exact Or.imp_right .inr
      · rintro (hw | rfl | hw)
        · exact .inl hw
        · exact .inl hv
        · exact .inr hw
    · rw [List.mem_append, List.mem_singleton, or_assoc]

theorem nodup_pushAll {vids work : List Vid} (h : work.Nodup) : (pushAll vids work).Nodup := by
  induction vids generalizing work with
  | nil => exact h
  | cons v vids ih =>
    rw [pushAll, List.foldl_cons, ← pushAll]
    apply ih
    split
    · exact h
    · rename_i hv
      exact List.nodup_append.mpr ⟨h, List.nodup_singleton v, by
        rintro a ha _ hb rfl
        exact hv (List.mem_singleton.mp hb ▸ ha)⟩

/-- The sources `σ` queues for the rise to `j` are those below it, whose floors rise. -/
structure LiftedTo (j : Narrow) (sources : List Vid) (σ σ' : NarrowState) : Prop where
  ty : σ'.ty = σ.ty
  bad : σ'.bad = σ.bad
  floor : ∀ s, σ'.floorTy s = σ.floorTy s ∨
    s ∈ sources ∧ ¬j ≤ σ.ty s ∧ σ'.floorTy s = σ.floorTy s ⊔ j
  raised : ∀ s ∈ sources, ¬j ≤ σ.ty s → j ≤ σ'.floorTy s
  work : ∀ w, w ∈ σ'.work ↔ w ∈ σ.work ∨ (w ∈ sources ∧ ¬j ≤ σ.ty w)
  nodup : σ.work.Nodup → σ'.work.Nodup

theorem liftedTo_foldl (j : Narrow) (sources : List Vid) (σ : NarrowState) :
    LiftedTo j sources σ (sources.foldl (NarrowState.lift j) σ) := by
  induction sources generalizing σ with
  | nil => exact ⟨rfl, rfl, by simp, by simp, by simp, id⟩
  | cons s sources ih =>
    obtain ⟨hty, hbad, hfloor, hraised, hwork, hnodup⟩ := ih (σ.lift j s)
    rw [List.foldl_cons]
    by_cases hle : j ≤ σ.ty s
    · have hskip : σ.lift j s = σ := if_pos (sup_eq_left.mpr hle)
      rw [hskip] at hty hbad hfloor hraised hwork hnodup ⊢
      refine ⟨hty, hbad, fun r => ?_, fun r hr hnot => ?_, fun w => ?_, hnodup⟩
      · exact (hfloor r).imp_right fun h => ⟨List.mem_cons_of_mem s h.1, h.2⟩
      · obtain rfl | hr := List.mem_cons.mp hr
        · exact absurd hle hnot
        · exact hraised r hr hnot
      · rw [hwork, List.mem_cons]
        constructor
        · exact Or.imp_right fun h => ⟨.inr h.1, h.2⟩
        · rintro (hw | ⟨rfl | hw, hnot⟩)
          · exact .inl hw
          · exact absurd hle hnot
          · exact .inr ⟨hw, hnot⟩
    · have hlift : σ.lift j s = { σ with
          floorTy := Function.update σ.floorTy s (σ.floorTy s ⊔ j),
          work := pushAll [s] σ.work } := if_neg fun heq => hle (sup_eq_left.mp heq)
      have hself : (σ.lift j s).floorTy s = σ.floorTy s ⊔ j := by
        rw [hlift]
        exact Function.update_self _ _ _
      have hother : ∀ r, r ≠ s → (σ.lift j s).floorTy r = σ.floorTy r := by
        intro r hr
        rw [hlift]
        exact Function.update_of_ne hr _ _
      have hty' : (σ.lift j s).ty = σ.ty := by rw [hlift]
      have hbad' : (σ.lift j s).bad = σ.bad := by rw [hlift]
      have hwork' : ∀ w, w ∈ (σ.lift j s).work ↔ w ∈ σ.work ∨ w = s := by
        intro w
        rw [hlift, mem_pushAll, List.mem_singleton]
      rw [hty'] at hty hfloor hraised hwork
      refine ⟨hty, hbad.trans hbad', fun r => ?_, fun r hr hnot => ?_, fun w => ?_, fun h => ?_⟩
      · by_cases hr : r = s
        · subst hr
          refine .inr ⟨List.mem_cons_self, hle, ?_⟩
          obtain heq | ⟨-, -, heq⟩ := hfloor r
          · rw [heq, hself]
          · rw [heq, hself, sup_assoc, sup_idem]
        · obtain heq | ⟨hmem, hnot, heq⟩ := hfloor r
          · exact .inl (heq.trans (hother r hr))
          · exact .inr ⟨List.mem_cons_of_mem s hmem, hnot, heq.trans (by rw [hother r hr])⟩
      · by_cases hrs : r = s
        · subst hrs
          obtain heq | ⟨-, -, heq⟩ := hfloor r
          · rw [heq, hself]
            exact le_sup_right
          · rw [heq]
            exact le_sup_right
        · exact hraised r ((List.mem_cons.mp hr).resolve_left hrs) hnot
      · rw [hwork, hwork', List.mem_cons]
        constructor
        · rintro ((hw | rfl) | ⟨hw, hnot⟩)
          · exact .inl hw
          · exact .inr ⟨.inl rfl, hle⟩
          · exact .inr ⟨.inr hw, hnot⟩
        · rintro (hw | ⟨rfl | hw, hnot⟩)
          · exact .inl (.inl hw)
          · exact .inl (.inr rfl)
          · exact .inr ⟨hw, hnot⟩
      · refine hnodup ?_
        rw [hlift]
        exact nodup_pushAll h

/-- What a round can do with the version it takes: nothing, taint it, or raise it. -/
inductive Visited (p : NarrowPass) (lifts : Lifts) (σ : NarrowState) (vid : Vid) :
    NarrowState → Prop where
  | skip (hvid : σ.bad vid = true ∨ (∀ s ∈ p.reads vid, σ.bad s = false) ∧
      p.closeUp vid (p.base vid σ.ty ⊔ σ.floorTy vid) ≤ σ.ty vid) :
      Visited p lifts σ vid { σ with work := σ.work.erase vid }
  | taint {users : List Vid} (hvid : σ.bad vid = false)
      (hread : ∃ s ∈ p.reads vid, σ.bad s = true) (husers : users.Perm (p.users vid)) :
      Visited p lifts σ vid { σ with
        bad := Function.update σ.bad vid true, work := pushAll users (σ.work.erase vid) }
  | raise {users sources : List Vid} {j : Narrow} {σ' : NarrowState} (hvid : σ.bad vid = false)
      (hread : ∀ s ∈ p.reads vid, σ.bad s = false) (husers : users.Perm (p.users vid))
      (hsources : sources.Perm (lifts.of vid))
      (hj : j = σ.ty vid ⊔ p.closeUp vid (p.base vid σ.ty ⊔ σ.floorTy vid)) (hne : j ≠ σ.ty vid)
      (hlift : LiftedTo j sources { σ with
        ty := Function.update σ.ty vid j, work := pushAll users (σ.work.erase vid) } σ') :
      Visited p lifts σ vid σ'

theorem Round.visited (h : Round p lifts σ σ') : ∃ vid ∈ σ.work, Visited p lifts σ vid σ' := by
  obtain ⟨hvid, husers, hsources⟩ := h
  rename_i vid users sources
  refine ⟨vid, hvid, ?_⟩
  unfold NarrowPass.visit
  by_cases hbad : σ.bad vid = true
  · simp only [hbad, if_true]
    exact .skip (.inl hbad)
  have hok : σ.bad vid = false := Bool.eq_false_iff.mpr hbad
  simp only [hok, Bool.false_eq_true, if_false]
  by_cases hread : ∃ s ∈ p.reads vid, σ.bad s = true
  · have htaint : p.transfer { σ with work := σ.work.erase vid } vid = none :=
      transfer_of_bad hread
    rw [htaint]
    exact .taint hok hread husers
  · have hclean : ∀ s ∈ p.reads vid, σ.bad s = false := fun s hs =>
      Bool.eq_false_iff.mpr fun hbad => hread ⟨s, hs, hbad⟩
    have htransfer : p.transfer { σ with work := σ.work.erase vid } vid =
        some (p.closeUp vid (p.base vid σ.ty ⊔ σ.floorTy vid)) := transfer_of_clean hclean
    rw [htransfer]
    dsimp only
    split
    · rename_i heq
      exact .skip (.inr ⟨hclean, sup_eq_left.mp heq⟩)
    · rename_i hne
      exact .raise hok hclean husers hsources rfl hne (liftedTo_foldl _ sources _)

theorem mem_users_iff : w ∈ p.users vid ↔
    ∃ nd, (w, nd) ∈ p.nodes ∧ ∃ d ∈ nd.ins, ∃ s ∈ d.srcs, s.vid = vid := by
  simp only [users, List.mem_flatMap, List.mem_map, List.mem_filter, decide_eq_true_eq, Prod.exists]
  constructor
  · rintro ⟨w, nd, hnode, d, hd, s, ⟨hs, hvid⟩, rfl⟩
    exact ⟨nd, hnode, d, hd, s, hs, hvid⟩
  · rintro ⟨nd, hnode, d, hd, s, hs, hvid⟩
    exact ⟨w, nd, hnode, d, hd, s, ⟨hs, hvid⟩, rfl⟩

theorem users_subset (vid : Vid) : p.users vid ⊆ p.order := by
  intro w hw
  obtain ⟨nd, hnode, -⟩ := mem_users_iff.mp hw
  exact List.mem_map_of_mem hnode

/-- Who reads a version is one of its users. -/
theorem mem_users_of_reads (h : vid ∈ p.reads w) : w ∈ p.users vid := by
  obtain ⟨d, hd, hvid⟩ := List.mem_flatMap.mp h
  obtain ⟨s, hs, rfl⟩ := List.mem_map.mp hvid
  cases hlookup : p.nodes.lookup w with
  | none => simp [node, hlookup] at hd
  | some nd =>
    rw [node, hlookup, Option.getD_some] at hd
    obtain ⟨before, after, heq, -⟩ := List.lookup_eq_some_iff.mp hlookup
    exact mem_users_iff.mpr
      ⟨nd, by simp [heq], d, hd, s, List.mem_of_mem_filter hs, rfl⟩

theorem lookup_eq_none (h : vid ∉ p.order) : p.nodes.lookup vid = none := by
  rw [List.lookup_eq_none_iff]
  intro entry hentry
  have hne : vid ≠ entry.1 := fun heq => h (heq ▸ List.mem_map_of_mem hentry)
  simpa only [bne_iff_ne, ne_eq, beq_eq_false_iff_ne] using hne

theorem reads_eq_nil (h : vid ∉ p.order) : p.reads vid = [] := by
  simp [reads, node, lookup_eq_none h]

theorem base_congr {ty ty' : Vid → Narrow} (h : ∀ s ∈ p.reads vid, ty s = ty' s) :
    p.base vid ty = p.base vid ty' :=
  le_antisymm (base_mono vid fun s hs => le_of_eq (h s hs))
    (base_mono vid fun s hs => le_of_eq (h s hs).symm)

theorem base_update {ty : Vid → Narrow} {t : Narrow} (h : w ∉ p.users vid) :
    p.base w (Function.update ty vid t) = p.base w ty :=
  base_congr fun s hs => Function.update_of_ne
    (by rintro rfl; exact h (mem_users_of_reads hs)) _ _

end Step

section Termination

variable {p : NarrowPass} {lifts : Lifts} {σ σ' : NarrowState}

/-- How often a version can still change. -/
def changes (σ : NarrowState) (vid : Vid) : Nat :=
  if σ.bad vid then 0 else 1 + (σ.ty vid).rises

theorem changes_le (σ : NarrowState) (vid : Vid) : changes σ vid ≤ 4 := by
  unfold changes
  split
  · omega
  · have := (σ.ty vid).rises_le
    omega

/-- The rounds that are left: every change lets the queue fill once more. -/
def cost (p : NarrowPass) (lifts : Lifts) (σ : NarrowState) : Nat :=
  (∑ vid ∈ (p.scope lifts).toFinset, changes σ vid) * ((p.scope lifts).length + 1) + σ.work.length

/-- The queue holds versions of the scope, each once. -/
structure Queued (p : NarrowPass) (lifts : Lifts) (σ : NarrowState) : Prop where
  nodup : σ.work.Nodup
  subset : σ.work ⊆ p.scope lifts

theorem Queued.length_le (h : Queued p lifts σ) : σ.work.length ≤ (p.scope lifts).length :=
  (h.nodup.subperm h.subset).length_le

theorem sources_subset (p : NarrowPass) (lifts : Lifts) (vid : Vid) :
    lifts.of vid ⊆ p.scope lifts := by
  intro s hs
  unfold Lifts.of at hs
  cases hlookup : lifts.lookup vid with
  | none => simp [hlookup] at hs
  | some sources =>
    rw [hlookup, Option.getD_some] at hs
    obtain ⟨before, after, heq, -⟩ := List.lookup_eq_some_iff.mp hlookup
    exact List.mem_append_right _ (List.mem_flatMap.mpr ⟨(vid, sources), by simp [heq], hs⟩)

theorem Queued.visited {vid : Vid} (h : Queued p lifts σ)
    (hvisit : Visited p lifts σ vid σ') : Queued p lifts σ' := by
  have herase : σ.work.erase vid ⊆ p.scope lifts :=
    List.Subset.trans List.erase_subset h.subset
  have hpush {users : List Vid} (husers : users.Perm (p.users vid)) :
      pushAll users (σ.work.erase vid) ⊆ p.scope lifts := by
    intro w hw
    obtain hw | hw := mem_pushAll.mp hw
    · exact herase hw
    · exact List.mem_append_left _ (users_subset vid (husers.mem_iff.mp hw))
  cases hvisit with
  | skip => exact ⟨h.nodup.erase vid, herase⟩
  | taint _ _ husers => exact ⟨nodup_pushAll (h.nodup.erase vid), hpush husers⟩
  | raise _ _ husers hsources _ _ hlift =>
    refine ⟨hlift.nodup (nodup_pushAll (h.nodup.erase vid)), fun w hw => ?_⟩
    obtain hw | ⟨hw, -⟩ := (hlift.work w).mp hw
    · exact hpush husers hw
    · exact sources_subset p lifts vid (hsources.mem_iff.mp hw)

/-- A version that changes pays for the queue. -/
theorem cost_lt_of_changes {vid : Vid} (h : Queued p lifts σ) (h' : Queued p lifts σ')
    (hvid : vid ∈ σ.work) (hless : changes σ' vid < changes σ vid)
    (hsame : ∀ w, w ≠ vid → changes σ' w = changes σ w) : cost p lifts σ' < cost p lifts σ := by
  have hsum : ∑ w ∈ (p.scope lifts).toFinset, changes σ' w <
      ∑ w ∈ (p.scope lifts).toFinset, changes σ w := by
    refine Finset.sum_lt_sum (fun w _ => ?_) ⟨vid, List.mem_toFinset.mpr (h.subset hvid), hless⟩
    by_cases hw : w = vid
    · rw [hw]
      exact hless.le
    · exact (hsame w hw).le
  have hmul := Nat.mul_le_mul_right ((p.scope lifts).length + 1) hsum
  have hlen := h'.length_le
  rw [Nat.succ_mul] at hmul
  unfold cost
  omega

theorem cost_visited {vid : Vid} (h : Queued p lifts σ) (hvid : vid ∈ σ.work)
    (hvisit : Visited p lifts σ vid σ') : cost p lifts σ' < cost p lifts σ := by
  have hqueued := h.visited hvisit
  cases hvisit with
  | skip =>
    have hpos : 0 < σ.work.length := List.length_pos_of_mem hvid
    have hlen := List.length_erase_of_mem hvid
    have hsame : ∀ w, changes { σ with work := σ.work.erase vid } w = changes σ w := fun _ => rfl
    simp only [cost, hsame, hlen]
    omega
  | taint hok =>
    refine cost_lt_of_changes h hqueued hvid ?_ fun w hw => ?_
    · simp [changes, hok]
    · simp [changes, Function.update_of_ne hw]
  | @raise _ _ j _ hok _ _ _ hj hne hlift =>
    have hle : σ.ty vid ≤ j := hj ▸ le_sup_left
    refine cost_lt_of_changes h hqueued hvid ?_ fun w hw => ?_
    · simp only [changes, hlift.bad, hlift.ty, hok, Function.update_self, Bool.false_eq_true,
        if_false]
      exact Nat.add_lt_add_left (Narrow.rises_lt hle hne) 1
    · simp only [changes, hlift.bad, hlift.ty, Function.update_of_ne hw]

theorem Queued.rounds {n : Nat} (h : Queued p lifts σ) (hrounds : Rounds p lifts n σ σ') :
    Queued p lifts σ' ∧ cost p lifts σ' + n ≤ cost p lifts σ := by
  induction hrounds with
  | refl => exact ⟨h, le_rfl⟩
  | snoc _ hround ih =>
    obtain ⟨hqueued, hcost⟩ := ih h
    obtain ⟨vid, hvid, hvisit⟩ := hround.visited
    have hless := cost_visited hqueued hvid hvisit
    exact ⟨hqueued.visited hvisit, by omega⟩

theorem cost_le_rounds (h : Queued p lifts σ) : cost p lifts σ ≤ p.rounds lifts := by
  have hsum : ∑ vid ∈ (p.scope lifts).toFinset, changes σ vid ≤ 4 * (p.scope lifts).length := by
    have hcard := Finset.sum_le_card_nsmul (p.scope lifts).toFinset (changes σ) 4
      fun vid _ => changes_le σ vid
    have hle := List.toFinset_card_le (p.scope lifts)
    rw [smul_eq_mul] at hcard
    calc ∑ vid ∈ (p.scope lifts).toFinset, changes σ vid
      _ ≤ (p.scope lifts).toFinset.card * 4 := hcard
      _ ≤ 4 * (p.scope lifts).length := by omega
  have hmul := Nat.mul_le_mul_right ((p.scope lifts).length + 1) hsum
  have hlen := h.length_le
  unfold cost NarrowPass.rounds
  omega

theorem Rounds.head {n : Nat} {σ'' : NarrowState} (hround : Round p lifts σ σ')
    (h : Rounds p lifts n σ' σ'') : Rounds p lifts (n + 1) σ σ'' := by
  induction h with
  | refl => exact .snoc (.refl σ) hround
  | snoc _ hlast ih => exact .snoc (ih hround) hlast

theorem Rounds.take {n : Nat} (h : Rounds p lifts n σ σ') (vid : Vid) (hvid : vid ∈ σ'.work) :
    Rounds p lifts (n + 1) σ
      (p.visit (p.users vid) (lifts.of vid) { σ' with work := σ'.work.erase vid } vid) :=
  h.snoc (.visit hvid (.refl _) (.refl _))

/-- The queue of the source, first in first out, is one of the orders. -/
theorem forwardFor_rounds (p : NarrowPass) (lifts : Lifts) (fuel : Nat) (σ : NarrowState) :
    ∃ n, Rounds p lifts n σ (p.forwardFor lifts fuel σ) ∧
      ((p.forwardFor lifts fuel σ).work = [] ∨ n = fuel) := by
  induction fuel generalizing σ with
  | zero => exact ⟨0, .refl σ, .inr rfl⟩
  | succ fuel ih =>
    unfold forwardFor
    split
    · rename_i hwork
      exact ⟨0, .refl σ, .inl hwork⟩
    · rename_i vid work hwork
      obtain ⟨n, hrounds, hend⟩ := ih
        (p.visit (p.users vid) (lifts.of vid) { σ with work := work } vid)
      have hround : Round p lifts σ
          (p.visit (p.users vid) (lifts.of vid) { σ with work := work } vid) := by
        have herase : work = σ.work.erase vid := by rw [hwork, List.erase_cons_head]
        rw [herase]
        exact .visit (by simp [hwork]) (.refl _) (.refl _)
      exact ⟨n + 1, hrounds.head hround, hend.imp_right fun h => by omega⟩

/-- `forward` ends. -/
theorem forward_ends (h : Queued p lifts σ) : Ends p lifts σ (p.forward lifts σ) := by
  obtain ⟨n, hrounds, hend⟩ := forwardFor_rounds p lifts (p.rounds lifts) σ
  refine ⟨⟨n, hrounds⟩, ?_⟩
  obtain hend | rfl := hend
  · exact hend
  obtain ⟨-, hcost⟩ := h.rounds hrounds
  have hle := cost_le_rounds h
  have hzero : cost p lifts (p.forwardFor lifts (p.rounds lifts) σ) = 0 := by omega
  exact List.length_eq_zero_iff.mp (Nat.add_eq_zero_iff.mp hzero).2

end Termination

section Reached

variable {p : NarrowPass} {lifts : Lifts} {σ₀ σ σ' : NarrowState} {vid w : Vid}

/-- The version was queued since the start. -/
def Due (p : NarrowPass) (σ₀ σ : NarrowState) (w : Vid) : Prop :=
  w ∈ σ₀.work ∨ σ.ty w ≠ σ₀.ty w ∨
    ∃ v, w ∈ p.users v ∧ (σ.bad v ≠ σ₀.bad v ∨ σ.ty v ≠ σ₀.ty v)

/-- What holds in every state of a run from `σ₀`: what was queued and is not any more is
tainted by what it reads, or its type is at least what its transfer gives. -/
structure Reached (p : NarrowPass) (lifts : Lifts) (σ₀ σ : NarrowState) : Prop where
  ty_le : ∀ v, σ₀.ty v ≤ σ.ty v
  bad_of : ∀ v, σ₀.bad v = true → σ.bad v = true
  tainted : ∀ v, σ.bad v = true → σ₀.bad v = true ∨ ∃ s ∈ p.reads v, σ.bad s = true
  floor_le : ∀ v, σ₀.floorTy v ≤ σ.floorTy v
  settled : ∀ w, w ∉ σ.work → Due p σ₀ σ w → σ.bad w = false →
    (∀ s ∈ p.reads w, σ.bad s = false) ∧
      p.closeUp w (p.base w σ.ty ⊔ σ.floorTy w) ≤ σ.ty w
  closed : ∀ w, σ.ty w ≠ σ₀.ty w → p.closeUp w (σ.ty w) = σ.ty w ∧ σ.ty w ≠ .empty
  lifted : ∀ d s, σ.bad d = false → σ.bad s = false → σ.ty d ≠ σ₀.ty d → s ∈ lifts.of d →
    σ.ty d ≤ σ.ty s ∨ (σ.ty d ≤ σ.floorTy s ∧ s ∈ σ.work)

theorem Reached.refl (p : NarrowPass) (lifts : Lifts) (σ₀ : NarrowState) :
    Reached p lifts σ₀ σ₀ where
  ty_le v := le_rfl
  bad_of v := id
  tainted v := .inl
  floor_le v := le_rfl
  settled w hw hdue := by
    obtain hmem | hne | ⟨v, -, hne | hne⟩ := hdue
    · exact absurd hmem hw
    · exact absurd rfl hne
    · exact absurd rfl hne
    · exact absurd rfl hne
  closed w hne := absurd rfl hne
  lifted d s _ _ hne := absurd rfl hne

/-- A version that is taken and does not change. -/
theorem Reached.skip (h : Reached p lifts σ₀ σ)
    (hvid : σ.bad vid = true ∨ (∀ s ∈ p.reads vid, σ.bad s = false) ∧
      p.closeUp vid (p.base vid σ.ty ⊔ σ.floorTy vid) ≤ σ.ty vid) :
    Reached p lifts σ₀ { σ with work := σ.work.erase vid } where
  ty_le := h.ty_le
  bad_of := h.bad_of
  tainted := h.tainted
  floor_le := h.floor_le
  settled w hw hdue hok := by
    by_cases heq : w = vid
    · subst heq
      obtain hbad | hvid := hvid
      · exact absurd (hbad.symm.trans hok) (by decide)
      · exact hvid
    · exact h.settled w (fun hmem => hw ((List.mem_erase_of_ne heq).mpr hmem)) hdue hok
  closed := h.closed
  lifted d s hd hs hne hsource := by
    obtain hle | ⟨hle, hmem⟩ := h.lifted d s hd hs hne hsource
    · exact .inl hle
    by_cases heq : s = vid
    · subst heq
      obtain hbad | ⟨-, hclose⟩ := hvid
      · exact absurd (hbad.symm.trans hs) (by decide)
      · exact .inl (le_trans (le_trans hle le_sup_right) (le_trans (p.le_closeUp s _) hclose))
    · exact .inr ⟨hle, (List.mem_erase_of_ne heq).mpr hmem⟩

theorem Reached.taint {users : List Vid} (h : Reached p lifts σ₀ σ)
    (hread : ∃ s ∈ p.reads vid, σ.bad s = true) (husers : users.Perm (p.users vid)) :
    Reached p lifts σ₀ { σ with
      bad := Function.update σ.bad vid true, work := pushAll users (σ.work.erase vid) } where
  ty_le := h.ty_le
  bad_of v hv := by
    dsimp only
    by_cases heq : v = vid
    · rw [heq, Function.update_self]
    · rw [Function.update_of_ne heq]
      exact h.bad_of v hv
  tainted v hv := by
    have hkeep (s : Vid) (hs : σ.bad s = true) : Function.update σ.bad vid true s = true := by
      by_cases heq : s = vid
      · rw [heq, Function.update_self]
      · rwa [Function.update_of_ne heq]
    by_cases heq : v = vid
    · subst heq
      exact .inr (hread.imp fun s hs => ⟨hs.1, hkeep s hs.2⟩)
    · exact (h.tainted v ((Function.update_of_ne heq true σ.bad).symm.trans hv)).imp_right
        fun ⟨s, hs, hbad⟩ => ⟨s, hs, hkeep s hbad⟩
  floor_le := h.floor_le
  settled w hw hdue hok := by
    dsimp only [Due] at hw hdue hok ⊢
    have hne : w ≠ vid := by
      rintro rfl
      rw [Function.update_self] at hok
      cases hok
    rw [Function.update_of_ne hne] at hok
    obtain ⟨herase, huser⟩ := not_or.mp fun hmem => hw (mem_pushAll.mpr hmem)
    have huser : w ∉ p.users vid := fun hmem => huser (husers.mem_iff.mpr hmem)
    have hdue' : Due p σ₀ σ w := by
      obtain hmem | hne | ⟨v, hv, hchange⟩ := hdue
      · exact .inl hmem
      · exact .inr (.inl hne)
      · have hv' : v ≠ vid := by
          rintro rfl
          exact huser hv
        rw [Function.update_of_ne hv'] at hchange
        exact .inr (.inr ⟨v, hv, hchange⟩)
    obtain ⟨hclean, hclose⟩ := h.settled w
      (fun hmem => herase ((List.mem_erase_of_ne hne).mpr hmem)) hdue' hok
    refine ⟨fun s hs => ?_, hclose⟩
    have hs' : s ≠ vid := by
      rintro rfl
      exact huser (mem_users_of_reads hs)
    rw [Function.update_of_ne hs']
    exact hclean s hs
  closed := h.closed
  lifted d s hd hs hne hsource := by
    dsimp only at hd hs hne ⊢
    have hs' : s ≠ vid := by
      rintro rfl
      rw [Function.update_self] at hs
      cases hs
    have hd' : d ≠ vid := by
      rintro rfl
      rw [Function.update_self] at hd
      cases hd
    rw [Function.update_of_ne hs'] at hs
    rw [Function.update_of_ne hd'] at hd
    exact (h.lifted d s hd hs hne hsource).imp_right fun ⟨hle, hmem⟩ =>
      ⟨hle, mem_pushAll.mpr (.inl ((List.mem_erase_of_ne hs').mpr hmem))⟩

theorem LiftedTo.floor_le {j : Narrow} {sources : List Vid} (h : LiftedTo j sources σ σ')
    (s : Vid) : σ.floorTy s ≤ σ'.floorTy s := by
  obtain heq | ⟨-, -, heq⟩ := h.floor s
  · exact heq.ge
  · rw [heq]
    exact le_sup_left

/-- A version that is not queued has the floor it had. -/
theorem LiftedTo.floor_eq {j : Narrow} {sources : List Vid} (h : LiftedTo j sources σ σ')
    {s : Vid} (hs : s ∉ σ'.work) : σ'.floorTy s = σ.floorTy s := by
  obtain heq | ⟨hsource, hnot, -⟩ := h.floor s
  · exact heq
  · exact absurd ((h.work s).mpr (.inr ⟨hsource, hnot⟩)) hs

theorem Reached.raise {users sources : List Vid} {j : Narrow} (h : Reached p lifts σ₀ σ)
    (hread : ∀ s ∈ p.reads vid, σ.bad s = false) (husers : users.Perm (p.users vid))
    (hsources : sources.Perm (lifts.of vid))
    (hj : j = σ.ty vid ⊔ p.closeUp vid (p.base vid σ.ty ⊔ σ.floorTy vid)) (hne : j ≠ σ.ty vid)
    (hlift : LiftedTo j sources { σ with
      ty := Function.update σ.ty vid j, work := pushAll users (σ.work.erase vid) } σ') :
    Reached p lifts σ₀ σ' := by
  have hle : σ.ty vid ≤ j := hj ▸ le_sup_left
  have hclose : p.closeUp vid (p.base vid σ.ty ⊔ σ.floorTy vid) ≤ j := hj ▸ le_sup_right
  have hbad : σ'.bad = σ.bad := hlift.bad
  have hty : σ'.ty = Function.update σ.ty vid j := hlift.ty
  have hother {v : Vid} (hv : v ≠ vid) : σ'.ty v = σ.ty v := by
    rw [hty]
    exact Function.update_of_ne hv _ _
  have hself : σ'.ty vid = j := by
    rw [hty]
    exact Function.update_self _ _ _
  have hqueued (w : Vid) (hw : w ∈ σ.work.erase vid ∨ w ∈ p.users vid) : w ∈ σ'.work :=
    (hlift.work w).mpr (.inl (mem_pushAll.mpr (hw.imp_right husers.mem_iff.mpr)))
  refine ⟨fun v => ?_, fun v hv => ?_, fun v hv => ?_, fun v => ?_, fun w hw hdue hok => ?_,
    fun w hw => ?_, fun d s hd hs hchange hsource => ?_⟩
  · by_cases hv : v = vid
    · rw [hv, hself]
      exact le_trans (h.ty_le vid) hle
    · rw [hother hv]
      exact h.ty_le v
  · rw [hbad]
    exact h.bad_of v hv
  · rw [hbad] at hv ⊢
    exact h.tainted v hv
  · exact le_trans (h.floor_le v) (hlift.floor_le v)
  · have huser : w ∉ p.users vid := fun hmem => hw (hqueued w (.inr hmem))
    have hfloor : σ'.floorTy w = σ.floorTy w := hlift.floor_eq hw
    rw [hbad, hfloor, hty, base_update huser]
    rw [hbad] at hok
    by_cases heq : w = vid
    · subst heq
      rw [Function.update_self]
      exact ⟨hread, hclose⟩
    rw [Function.update_of_ne heq]
    refine h.settled w (fun hmem => hw (hqueued w (.inl ((List.mem_erase_of_ne heq).mpr hmem))))
      ?_ hok
    obtain hmem | hne | ⟨v, hv, hchange⟩ := hdue
    · exact .inl hmem
    · rw [hother heq] at hne
      exact .inr (.inl hne)
    · have hv' : v ≠ vid := by
        rintro rfl
        exact huser hv
      rw [hother hv', hbad] at hchange
      exact .inr (.inr ⟨v, hv, hchange⟩)
  · by_cases heq : w = vid
    · subst heq
      -- the join that the transfer raised the type to is closed, as the transfer's result is
      have hnot : p.closeUp w (p.base w σ.ty ⊔ σ.floorTy w) ≠ .empty := by
        intro hempty
        rw [hempty, Narrow.sup_empty] at hj
        exact hne hj
      rw [hself]
      exact ⟨closed_of_le (p.closeUp_closed w _) hnot hclose, Narrow.ne_empty_of_le hclose hnot⟩
    · rw [hother heq] at hw ⊢
      exact h.closed w hw
  · rw [hbad] at hd hs
    by_cases hdv : d = vid
    · subst hdv
      rw [hself]
      have hsource' := hsources.mem_iff.mpr hsource
      by_cases hjs : j ≤ σ'.ty s
      · exact .inl hjs
      · rw [hty] at hjs
        exact .inr ⟨hlift.raised s hsource' hjs, (hlift.work s).mpr (.inr ⟨hsource', hjs⟩)⟩
    · rw [hother hdv] at hchange ⊢
      have hold := h.lifted d s hd hs hchange hsource
      by_cases hsv : s = vid
      · subst hsv
        rw [hself]
        obtain hold | ⟨hold, -⟩ := hold
        · exact .inl (le_trans hold hle)
        · exact .inl (le_trans (le_trans hold le_sup_right) (le_trans (p.le_closeUp s _) hclose))
      · rw [hother hsv]
        exact hold.imp_right fun ⟨hfloor, hmem⟩ => ⟨le_trans hfloor (hlift.floor_le s),
          hqueued s (.inl ((List.mem_erase_of_ne hsv).mpr hmem))⟩

theorem Reached.visited (h : Reached p lifts σ₀ σ) (hvisit : Visited p lifts σ vid σ') :
    Reached p lifts σ₀ σ' := by
  cases hvisit with
  | skip hvid => exact h.skip hvid
  | taint _ hread husers => exact h.taint hread husers
  | raise _ hread husers hsources hj hne hlift =>
    exact h.raise hread husers hsources hj hne hlift

theorem Rounds.reached {n : Nat} (h : Rounds p lifts n σ₀ σ) : Reached p lifts σ₀ σ := by
  induction h with
  | refl => exact .refl p lifts _
  | snoc _ hround ih =>
    obtain ⟨vid, -, hvisit⟩ := hround.visited
    exact ih.visited hvisit

end Reached

section Least

variable {p : NarrowPass} {lifts : Lifts} {σ₀ σ σ' : NarrowState} {bad : Vid → Bool}
variable {ty : Vid → Narrow} {vid w : Vid}

/-- The maps account for all that a run from `σ₀` can queue. -/
structure Solution (p : NarrowPass) (lifts : Lifts) (σ₀ : NarrowState) (bad : Vid → Bool)
    (ty : Vid → Narrow) : Prop where
  bad_of : ∀ v, σ₀.bad v = true → bad v = true
  ty_le : ∀ v, bad v = false → σ₀.ty v ≤ ty v
  settled : ∀ w, bad w = false → (w ∈ σ₀.work ∨ ∃ v, w ∈ p.users v ∧
      (bad v = true ∧ σ₀.bad v = false ∨ bad v = false ∧ ty v ≠ σ₀.ty v)) →
    (∀ s ∈ p.reads w, bad s = false) ∧ p.closeUp w (p.base w ty ⊔ σ₀.floorTy w) ≤ ty w
  lifted : ∀ d s, bad d = false → bad s = false → ty d ≠ σ₀.ty d → s ∈ lifts.of d →
    ¬ty d ≤ σ₀.ty s → (∀ r ∈ p.reads s, bad r = false) ∧ p.closeUp s (ty s) = ty s ∧
      p.base s ty ⊔ σ₀.floorTy s ⊔ ty d ≤ ty s

/-- Where a run ends is a solution. -/
theorem Reached.solution (h : Reached p lifts σ₀ σ) (hwork : σ.work = []) :
    Solution p lifts σ₀ σ.bad σ.ty where
  bad_of := h.bad_of
  ty_le v _ := h.ty_le v
  settled w hok hdue := by
    have hsettled := h.settled w (by simp [hwork]) (hdue.imp_right fun ⟨v, hv, hchange⟩ => .inr
      ⟨v, hv, hchange.imp (fun hbad => by rw [hbad.1, hbad.2]; decide) And.right⟩) hok
    exact ⟨hsettled.1, le_trans (closeUp_mono w (sup_le_sup_left (h.floor_le w) _)) hsettled.2⟩
  lifted d s hd hs hne hsource hnot := by
    have hle : σ.ty d ≤ σ.ty s := (h.lifted d s hd hs hne hsource).resolve_right fun hmem => by
      rw [hwork] at hmem
      exact absurd hmem.2 (List.not_mem_nil)
    have hchange : σ.ty s ≠ σ₀.ty s := fun heq => hnot (heq ▸ hle)
    obtain ⟨hclean, hclose⟩ := h.settled s (by simp [hwork]) (.inr (.inl hchange)) hs
    refine ⟨hclean, (h.closed s hchange).1, sup_le ?_ hle⟩
    calc p.base s σ.ty ⊔ σ₀.floorTy s
      _ ≤ p.base s σ.ty ⊔ σ.floorTy s := sup_le_sup_left (h.floor_le s) _
      _ ≤ p.closeUp s (p.base s σ.ty ⊔ σ.floorTy s) := p.le_closeUp s _
      _ ≤ σ.ty s := hclose

/-- What a run from `σ₀` keeps below a solution: its types and taints, and all that its
queue can still raise. -/
structure Below (p : NarrowPass) (σ₀ : NarrowState) (bad : Vid → Bool) (ty : Vid → Narrow)
    (σ : NarrowState) : Prop where
  bad_of : ∀ v, σ.bad v = true → bad v = true
  ty_le : ∀ v, bad v = false → σ.ty v ≤ ty v
  work : ∀ w ∈ σ.work, bad w = false →
    (∀ s ∈ p.reads w, bad s = false) ∧ p.closeUp w (p.base w ty ⊔ σ₀.floorTy w) ≤ ty w
  floor : ∀ w, bad w = false → σ.floorTy w = σ₀.floorTy w ∨
    p.closeUp w (ty w) = ty w ∧ p.base w ty ⊔ σ.floorTy w ≤ ty w

theorem Solution.below (h : Solution p lifts σ₀ bad ty) : Below p σ₀ bad ty σ₀ where
  bad_of := h.bad_of
  ty_le := h.ty_le
  work w hw hok := h.settled w hok (.inl hw)
  floor _ _ := .inl rfl

theorem Below.closeUp_le (h : Below p σ₀ bad ty σ) (hw : w ∈ σ.work) (hok : bad w = false) :
    p.closeUp w (p.base w σ.ty ⊔ σ.floorTy w) ≤ ty w := by
  obtain ⟨hclean, hclose⟩ := h.work w hw hok
  have hbase : p.base w σ.ty ≤ p.base w ty := base_mono w fun s hs => h.ty_le s (hclean s hs)
  obtain hfloor | ⟨hclosed, hfloor⟩ := h.floor w hok
  · rw [hfloor]
    exact le_trans (closeUp_mono w (sup_le_sup_right hbase _)) hclose
  · rw [← hclosed]
    exact closeUp_mono w (le_trans (sup_le_sup_right hbase _) hfloor)

/-- The users of a version that has changed are accounted for. -/
theorem Below.push {users : List Vid} (hsolution : Solution p lifts σ₀ bad ty)
    (h : Below p σ₀ bad ty σ) (husers : users.Perm (p.users vid))
    (hchange : bad vid = true ∧ σ₀.bad vid = false ∨ bad vid = false ∧ ty vid ≠ σ₀.ty vid) :
    ∀ w ∈ pushAll users (σ.work.erase vid), bad w = false →
      (∀ s ∈ p.reads w, bad s = false) ∧ p.closeUp w (p.base w ty ⊔ σ₀.floorTy w) ≤ ty w := by
  intro w hw hok
  obtain hw | hw := mem_pushAll.mp hw
  · exact h.work w (List.mem_of_mem_erase hw) hok
  · exact hsolution.settled w hok (.inr ⟨vid, husers.mem_iff.mp hw, hchange⟩)

theorem Below.visited (hsolution : Solution p lifts σ₀ bad ty)
    (hlifts : ∀ d, lifts.of d ≠ [] → bad d = true → σ₀.bad d = true)
    (hreached : Reached p lifts σ₀ σ) (h : Below p σ₀ bad ty σ) (hvid : vid ∈ σ.work)
    (hvisit : Visited p lifts σ vid σ') : Below p σ₀ bad ty σ' := by
  have hstart (hok : σ.bad vid = false) : σ₀.bad vid = false :=
    Bool.eq_false_iff.mpr fun hbad => absurd (hok.symm.trans (hreached.bad_of vid hbad)) (by decide)
  cases hvisit with
  | skip =>
    exact ⟨h.bad_of, h.ty_le, fun w hw => h.work w (List.mem_of_mem_erase hw), h.floor⟩
  | taint hok hread husers =>
    have hbad : bad vid = true := by
      by_contra hnot
      obtain ⟨s, hs, hsbad⟩ := hread
      have hclean := (h.work vid hvid (Bool.eq_false_iff.mpr hnot)).1 s hs
      exact absurd (hclean.symm.trans (h.bad_of s hsbad)) (by decide)
    refine ⟨fun v hv => ?_, h.ty_le, h.push hsolution husers (.inl ⟨hbad, hstart hok⟩), h.floor⟩
    by_cases heq : v = vid
    · rw [heq]
      exact hbad
    · exact h.bad_of v ((Function.update_of_ne heq true σ.bad).symm.trans hv)
  | @raise users sources j _ hok hread husers hsources hj hne hlift =>
    have hty : σ'.ty = Function.update σ.ty vid j := hlift.ty
    have hle (hvbad : bad vid = false) : j ≤ ty vid :=
      hj ▸ sup_le (h.ty_le vid hvbad) (h.closeUp_le hvid hvbad)
    have hchange : bad vid = true ∧ σ₀.bad vid = false ∨ bad vid = false ∧ ty vid ≠ σ₀.ty vid := by
      cases hvbad : bad vid with
      | true => exact .inl ⟨rfl, hstart hok⟩
      | false =>
        refine .inr ⟨rfl, fun heq => hne (le_antisymm ?_ (hj ▸ le_sup_left))⟩
        exact le_trans (hle hvbad) (heq ▸ hreached.ty_le vid)
    have hpush := h.push hsolution husers hchange
    -- a source that is queued is one the solution accounts for
    have hsource {s : Vid} (hs : s ∈ sources) (hsok : bad s = false) (hnot : ¬j ≤ σ'.ty s) :
        (∀ r ∈ p.reads s, bad r = false) ∧ p.closeUp s (ty s) = ty s ∧
          p.base s ty ⊔ σ₀.floorTy s ⊔ j ≤ ty s := by
      have hs' := hsources.mem_iff.mp hs
      obtain ⟨hvbad, hstart⟩ | ⟨hvbad, hdiff⟩ := hchange
      · have hbad := hlifts vid (List.ne_nil_of_mem hs') hvbad
        exact absurd (hstart.symm.trans hbad) (by decide)
      have hstart' : σ₀.ty s ≤ σ'.ty s := by
        refine le_trans (hreached.ty_le s) ?_
        rw [hty]
        by_cases heq : s = vid
        · rw [heq, Function.update_self]
          exact hj ▸ le_sup_left
        · rw [Function.update_of_ne heq]
      obtain ⟨hclean, hclosed, hbase⟩ := hsolution.lifted vid s hvbad hsok hdiff hs'
        fun hle' => hnot (le_trans (hle hvbad) (le_trans hle' hstart'))
      exact ⟨hclean, hclosed, le_trans (sup_le_sup_left (hle hvbad) _) hbase⟩
    refine ⟨fun v hv => ?_, fun v hvbad => ?_, fun w hw hwok => ?_, fun w hwok => ?_⟩
    · rw [hlift.bad] at hv
      exact h.bad_of v hv
    · rw [hty]
      by_cases heq : v = vid
      · subst heq
        rw [Function.update_self]
        exact hle hvbad
      · rw [Function.update_of_ne heq]
        exact h.ty_le v hvbad
    · obtain hw | ⟨hw, hnot⟩ := (hlift.work w).mp hw
      · exact hpush w hw hwok
      · rw [← hlift.ty] at hnot
        obtain ⟨hclean, hclosed, hbase⟩ := hsource hw hwok hnot
        refine ⟨hclean, ?_⟩
        rw [← hclosed]
        exact closeUp_mono w (le_trans le_sup_left hbase)
    · obtain heq | ⟨hw, hnot, heq⟩ := hlift.floor w
      · have hfloor : σ'.floorTy w = σ.floorTy w := heq
        rw [hfloor]
        exact h.floor w hwok
      · have hfloor : σ'.floorTy w = σ.floorTy w ⊔ j := heq
        rw [← hlift.ty] at hnot
        obtain ⟨-, hclosed, hbase⟩ := hsource hw hwok hnot
        obtain ⟨hbase, hj⟩ := sup_le_iff.mp hbase
        rw [hfloor]
        refine .inr ⟨hclosed, sup_le (le_trans le_sup_left hbase) (sup_le ?_ hj)⟩
        obtain hold | ⟨-, hold⟩ := h.floor w hwok
        · exact hold ▸ le_trans le_sup_right hbase
        · exact le_trans le_sup_right hold

/-- Every state of a run from `σ₀` is below every solution. -/
theorem Rounds.below_solution {n : Nat} (hsolution : Solution p lifts σ₀ bad ty)
    (hlifts : ∀ d, lifts.of d ≠ [] → bad d = true → σ₀.bad d = true)
    (h : Rounds p lifts n σ₀ σ) : Below p σ₀ bad ty σ := by
  induction h with
  | refl => exact hsolution.below
  | snoc hrounds hround ih =>
    obtain ⟨vid, hvid, hvisit⟩ := hround.visited
    exact (ih hsolution hlifts).visited hsolution hlifts hrounds.reached hvid hvisit

/-- Two runs that end agree on what is bad and on the types of the rest. -/
theorem Ends.agree (h : Ends p lifts σ₀ σ) (h' : Ends p lifts σ₀ σ')
    (hlifts : ∀ d, lifts.of d ≠ [] → σ.bad d = true ∨ σ'.bad d = true → σ₀.bad d = true) :
    σ.bad = σ'.bad ∧ ∀ v, σ.bad v = false → σ.ty v = σ'.ty v := by
  obtain ⟨⟨n, hrounds⟩, hwork⟩ := h
  obtain ⟨⟨n', hrounds'⟩, hwork'⟩ := h'
  have hbelow := hrounds.below_solution (hrounds'.reached.solution hwork')
    fun d hd hbad => hlifts d hd (.inr hbad)
  have hbelow' := hrounds'.below_solution (hrounds.reached.solution hwork)
    fun d hd hbad => hlifts d hd (.inl hbad)
  have hbad : σ.bad = σ'.bad :=
    funext fun v => Bool.eq_iff_iff.mpr ⟨hbelow.bad_of v, hbelow'.bad_of v⟩
  exact ⟨hbad, fun v hv => le_antisymm (hbelow.ty_le v (hbad ▸ hv)) (hbelow'.ty_le v hv)⟩

end Least

section Main

variable {p : NarrowPass} {lifts : Lifts} {σ σ' : NarrowState}

/-- The maps are a fixpoint of the transfer, on the versions of the method. -/
def Fixpoint (p : NarrowPass) (bad : Vid → Bool) (ty : Vid → Narrow) : Prop :=
  ∀ v ∈ p.order,
    if bad v then p.start.bad v = true ∨ p.transfer ⟨ty, bad, fun _ => .empty, []⟩ v = none
    else p.start.bad v = false ∧ p.transfer ⟨ty, bad, fun _ => .empty, []⟩ v = some (ty v)

/-- The least one: it taints least, and what it does not taint has the least types. -/
def LeastFixpoint (p : NarrowPass) (bad : Vid → Bool) (ty : Vid → Narrow) : Prop :=
  p.Fixpoint bad ty ∧ ∀ bad' ty', p.Fixpoint bad' ty' →
    ∀ v ∈ p.order, (bad v = true → bad' v = true) ∧ (bad' v = false → ty v ≤ ty' v)

theorem queued_start (p : NarrowPass) (lifts : Lifts) : Queued p lifts p.start :=
  ⟨p.nodup, List.subset_append_left _ _⟩

/-- What ends the first call is not tainted where it is not bad. -/
theorem Ends.clean (h : Ends p [] p.start σ) {w : Vid} (hw : σ.bad w = false) :
    ∀ s ∈ p.reads w, σ.bad s = false := by
  obtain ⟨⟨n, hrounds⟩, hwork⟩ := h
  by_cases horder : w ∈ p.order
  · exact (hrounds.reached.settled w (by simp [hwork]) (.inl horder) hw).1
  · simp [reads_eq_nil horder]

theorem clean_of_transfer {v : Vid} {t : Narrow} (h : p.transfer σ v = some t) :
    (∀ s ∈ p.reads v, σ.bad s = false) ∧ t = p.closeUp v (p.base v σ.ty ⊔ σ.floorTy v) := by
  have hclean : ∀ s ∈ p.reads v, σ.bad s = false := by
    intro s hs
    by_contra hbad
    rw [transfer_of_bad ⟨s, hs, Bool.eq_true_of_not_eq_false hbad⟩] at h
    cases h
  rw [transfer_of_clean hclean] at h
  exact ⟨hclean, (Option.some.inj h).symm⟩

theorem Fixpoint.solution {bad : Vid → Bool} {ty : Vid → Narrow} (h : p.Fixpoint bad ty) :
    Solution p [] p.start bad ty where
  bad_of v hv := by
    have horder : v ∈ p.order := by
      rw [start, Bool.and_eq_true, decide_eq_true_eq] at hv
      exact hv.1
    by_contra hbad
    have hfix := h v horder
    rw [if_neg hbad, hv] at hfix
    exact absurd hfix.1 (by decide)
  ty_le v _ := Narrow.empty_le _
  settled w hw hdue := by
    have horder : w ∈ p.order := by
      obtain horder | ⟨v, huser, -⟩ := hdue
      · exact horder
      · exact users_subset v huser
    have hfix := h w horder
    rw [hw, if_neg Bool.false_ne_true] at hfix
    obtain ⟨hclean, heq⟩ := clean_of_transfer hfix.2
    exact ⟨hclean, heq.ge⟩
  lifted d s _ _ _ hs := absurd hs (List.not_mem_nil)

theorem Ends.transfer_le (h : Ends p [] p.start σ) {v : Vid} (horder : v ∈ p.order)
    (hv : σ.bad v = false) : p.closeUp v (p.base v σ.ty) ≤ σ.ty v := by
  obtain ⟨⟨n, hrounds⟩, hwork⟩ := h
  have hsettled := (hrounds.reached.settled v (by simp [hwork]) (.inl horder) hv).2
  exact le_trans (closeUp_mono v le_sup_left) hsettled

/-- No type is higher than its transfer: the transferred types are a solution too. -/
theorem Ends.le_transfer (h : Ends p [] p.start σ) {v : Vid} (hv : σ.bad v = false) :
    σ.ty v ≤ p.closeUp v (p.base v σ.ty) := by
  have hle {w : Vid} (hw : σ.bad w = false) (horder : w ∈ p.order) := h.transfer_le horder hw
  have hsolution : Solution p [] p.start σ.bad fun w => p.closeUp w (p.base w σ.ty) := by
    obtain ⟨⟨n, hrounds⟩, hwork⟩ := id h
    refine ⟨hrounds.reached.bad_of, fun _ _ => Narrow.empty_le _, fun w hw _ => ?_,
      fun d s _ _ _ hs => absurd hs (List.not_mem_nil)⟩
    have hclean := h.clean hw
    refine ⟨hclean, closeUp_mono w (sup_le (base_mono w fun s hs => ?_) (Narrow.empty_le _))⟩
    by_cases horder : s ∈ p.order
    · exact hle (hclean s hs) horder
    · have hbase : p.base s σ.ty = .empty := by
        have hlookup : p.nodes.lookup s = none := lookup_eq_none horder
        simp [base, node, hlookup, Narrow.joinAll]
      rw [hbase, closeUp, if_pos rfl]
      exact Narrow.empty_le _
  obtain ⟨n, hrounds⟩ := h.1
  exact (hrounds.below_solution hsolution fun d hd => absurd rfl hd).ty_le v hv

/-- What ends the first call is the least fixpoint. -/
theorem Ends.leastFixpoint (h : Ends p [] p.start σ) : p.LeastFixpoint σ.bad σ.ty := by
  obtain ⟨n, hrounds⟩ := h.1
  refine ⟨fun v horder => ?_, fun bad' ty' hfix v _ => ?_⟩
  · cases hv : σ.bad v with
    | true => exact (hrounds.reached.tainted v hv).imp_right transfer_of_bad
    | false =>
      have hstart : p.start.bad v = false := by
        by_contra hbad
        have hend := hrounds.reached.bad_of v (Bool.eq_true_of_not_eq_false hbad)
        exact absurd (hv.symm.trans hend) (by decide)
      refine ⟨hstart, ?_⟩
      have htransfer : p.transfer ⟨σ.ty, σ.bad, fun _ => .empty, []⟩ v =
          some (p.closeUp v (p.base v σ.ty ⊔ .empty)) := transfer_of_clean (h.clean hv)
      rw [htransfer, Narrow.sup_empty]
      exact congrArg some (le_antisymm (h.transfer_le horder hv) (h.le_transfer hv))
  · have hbelow := hrounds.below_solution hfix.solution fun d hd => absurd rfl hd
    exact ⟨hbelow.bad_of v, hbelow.ty_le v⟩

/-- A call that starts with all taints keeps them. -/
theorem Rounds.bad_eq {n : Nat} (h : Rounds p lifts n σ σ')
    (hclean : ∀ w, σ.bad w = false → ∀ s ∈ p.reads w, σ.bad s = false) : σ'.bad = σ.bad := by
  induction h with
  | refl => rfl
  | snoc _ hround ih =>
    have hbad := ih hclean
    obtain ⟨vid, -, hvisit⟩ := hround.visited
    cases hvisit with
    | skip => exact hbad
    | taint hok hread =>
      rw [hbad] at hok hread
      obtain ⟨s, hs, hsbad⟩ := hread
      exact absurd ((hclean vid hok s hs).symm.trans hsbad) (by decide)
    | raise _ _ _ _ _ _ hlift => exact hlift.bad.trans hbad

/-- `forward` ends within its rounds in any order, and what it ends with does not depend
on the order: the taints, and the types of the versions that are not bad. In the first
call it is the least fixpoint of the transfer; in the second, from any types, floors,
raised versions and assigned sources, the taints stay. -/
theorem forward_order_independent (p : NarrowPass) :
    (∀ n σ, Rounds p [] n p.start σ → n ≤ p.rounds []) ∧
    Ends p [] p.start (p.forward [] p.start) ∧
    ∀ σ, Ends p [] p.start σ →
      p.LeastFixpoint σ.bad σ.ty ∧
      (σ.bad = (p.forward [] p.start).bad ∧
        ∀ v, σ.bad v = false → σ.ty v = (p.forward [] p.start).ty v) ∧
      ∀ (ty floorTy : Vid → Narrow) (raised : Vid → Bool) (lifts : Lifts),
        let again : NarrowState := ⟨ty, σ.bad, floorTy, p.order.filter raised⟩
        (∀ n σ', Rounds p lifts n again σ' → n ≤ p.rounds lifts) ∧
        Ends p lifts again (p.forward lifts again) ∧
        ∀ σ', Ends p lifts again σ' →
          σ'.bad = σ.bad ∧ ∀ v, σ.bad v = false → σ'.ty v = (p.forward lifts again).ty v := by
  have hbound {lifts : Lifts} {n : Nat} {σ σ' : NarrowState} (hqueued : Queued p lifts σ)
      (hrounds : Rounds p lifts n σ σ') : n ≤ p.rounds lifts := by
    obtain ⟨-, hcost⟩ := hqueued.rounds hrounds
    have hle := cost_le_rounds hqueued
    omega
  have hfirst := forward_ends (queued_start p [])
  refine ⟨fun n σ => hbound (queued_start p []), hfirst, fun σ hσ => ⟨hσ.leastFixpoint,
    hσ.agree hfirst fun d hd => absurd rfl hd, fun ty floorTy raised lifts => ?_⟩⟩
  have hqueued : Queued p lifts ⟨ty, σ.bad, floorTy, p.order.filter raised⟩ :=
    ⟨p.nodup.filter _, fun w hw => List.mem_append_left _ (List.mem_of_mem_filter hw)⟩
  have hagain := forward_ends hqueued
  have hbad {σ' : NarrowState} (h : Ends p lifts ⟨ty, σ.bad, floorTy, p.order.filter raised⟩ σ') :
      σ'.bad = σ.bad := by
    obtain ⟨n, hrounds⟩ := h.1
    exact hrounds.bad_eq fun w => hσ.clean
  refine ⟨fun n σ' => hbound hqueued, hagain, fun σ' hσ' => ⟨hbad hσ', ?_⟩⟩
  have hagree := hσ'.agree hagain fun d _ hd => by
    rw [hbad hσ', hbad hagain, or_self] at hd
    exact hd
  exact fun v hv => hagree.2 v (by rw [hbad hσ']; exact hv)

/-- A version moved from a foreign one, and one moved from that or typed by a producer. -/
def foreignMove : NarrowPass where
  nodes := [
    ([0x61], ⟨[], true⟩),
    ([0x62], ⟨[⟨.empty, [], [⟨[0x61], none⟩], false⟩], false⟩),
    ([0x63], ⟨[⟨.empty, [], [⟨[0x62], none⟩], false⟩, ⟨.b, [], [], false⟩], false⟩)]
  nodup := by decide
  eligible _ := true
  zForbidden _ := false

theorem forward_order_independent_foreignMove :
    (foreignMove.forward [] foreignMove.start).bad [0x63] = true ∧
      foreignMove.LeastFixpoint (foreignMove.forward [] foreignMove.start).bad
        (foreignMove.forward [] foreignMove.start).ty :=
  have h := forward_order_independent foreignMove
  ⟨by decide, (h.2.2 _ h.2.1).1⟩

/-- The version is typed when it is taken before the one it is moved from, and bad either
way. -/
theorem foreignMove_ty_differs :
    ¬∀ (p : NarrowPass) (σ σ' : NarrowState), Ends p [] p.start σ → Ends p [] p.start σ' →
      σ.bad = σ'.bad ∧ σ.ty = σ'.ty := by
  intro hall
  have hnone : Rounds foreignMove [] 0 foreignMove.start foreignMove.start := .refl _
  have htyped := hnone.take [0x63] (by decide)
  have hforeign := htyped.take [0x61] (by decide)
  have htainted := hforeign.take [0x62] (by decide)
  have hlast := htainted.take [0x63] (by decide)
  have hends := (hall foreignMove _ _ (forward_ends (queued_start foreignMove []))
    ⟨⟨_, hlast⟩, by decide⟩).2
  exact absurd (congrFun hends [0x63]) (by decide)

end Main

end NarrowPass

end Dad

end Dexllm
