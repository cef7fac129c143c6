import Dexllm.Dad.Intervals

/-!
The rounds of `Intervals`: the invariant of the queue, the processed heads and
the intervals formed so far, and that the rounds come to an end.
-/

namespace Dexllm.Dad

open DepthFirst Relation

variable {α : Type} [DecidableEq α]

/-- The states of the outer loop. -/
inductive IntervalsRun (g : Graph α) (fuel : Nat) : IntervalsState α → Prop
  | start : IntervalsRun g fuel (IntervalsState.start g)
  | round {st st' : IntervalsState α} (hrun : IntervalsRun g fuel st)
      (hround : st.round g fuel = some st') : IntervalsRun g fuel st'

/-- A head queued by an interval leads on to the interval it becomes. -/
def Queues (formed : List (Interval α × List α)) (h v : α) : Prop :=
  ∃ f ∈ formed, f.1.head = h ∧ v ∈ f.2

/-- An interval formed in a run, with the queue behind its head. -/
structure FormedAt (g : Graph α) (fuel : Nat) (f : Interval α × List α) (st : IntervalsState α)
    (queue : List α) : Prop where
  run : IntervalsRun g fuel st
  heads : st.heads = f.1.head :: queue
  unprocessed : st.processed f.1.head = false
  found : ∀ v, v ∈ f.2 ↔ v ∈ g.nodes ∧ v ∉ f.1.content ∧ v ∉ queue ∧
    ∃ p ∈ g.allPreds v, p ∈ f.1.content

structure IntervalsInv (g : Graph α) (e : α) (fuel : Nat) (st : IntervalsState α) : Prop where
  queued : ∀ h ∈ st.heads, h ∈ g.nodes
  processed : ∀ h, st.processed h = true ↔ ∃ f ∈ st.formed, f.1.head = h
  distinct : (st.formed.map fun f => f.1.head).Nodup
  grown : ∀ f ∈ st.formed, Grown g f.1.head f.1.content
  maximal : ∀ f ∈ st.formed, ∀ x ∈ g.rpo.tail, x ∉ f.1.content → ∃ p ∈ g.allPreds x, p ∉ f.1.content
  disjoint : ∀ f ∈ st.formed, ∀ f' ∈ st.formed, ∀ x ∈ f.1.content, x ∈ f'.1.content →
    f.1.head = f'.1.head
  reached : ∀ h, h ∈ st.heads ∨ st.processed h = true → h = e ∨
    ∃ f ∈ st.formed, h ∉ f.1.content ∧ ∃ p ∈ g.allPreds h, p ∈ f.1.content
  frontier : ∀ f ∈ st.formed, ∀ v ∈ g.nodes, v ∉ f.1.content →
    (∃ p ∈ g.allPreds v, p ∈ f.1.content) → v ∈ st.heads ∨ st.processed v = true
  entry : e ∈ st.heads ∨ st.processed e = true
  owner : ∀ v h, st.owner v = some h ↔ ∃ f ∈ st.formed, f.1.head = h ∧ v ∈ f.1.content
  formedAt : ∀ f ∈ st.formed, ∃ st' queue, FormedAt g fuel f st' queue
  queuer : ∀ h ∈ st.heads, h = e ∨ ∃ f ∈ st.formed, h ∈ f.2
  queues : ∀ f ∈ st.formed, ReflTransGen (Queues st.formed) e f.1.head
  once : ∀ v, st.processed v = false → ∀ f ∈ st.formed, ∀ f' ∈ st.formed, v ∈ f.2 → v ∈ f'.2 →
    f.1.head = f'.1.head
  first : (st.formed = [] ∧ st.heads = [e]) ∨ ∃ f rest, st.formed = f :: rest ∧ f.1.head = e
  lastOnce : ∀ formed last, st.formed = formed ++ [last] → ∀ f ∈ formed, ∀ f' ∈ formed,
    last.1.head ∈ f.2 → last.1.head ∈ f'.2 → f.1.head = f'.1.head

/-- What one round does. -/
inductive RoundCases (g : Graph α) (fuel : Nat) (st st' : IntervalsState α) : Prop
  | done (hheads : st.heads = []) (hst : st' = st)
  | again (head : α) (heads : List α) (hheads : st.heads = head :: heads)
      (hproc : st.processed head = true) (hst : st' = { st with heads })
  | form (head : α) (heads : List α) (iv : Interval α) (hheads : st.heads = head :: heads)
      (hproc : st.processed head = false)
      (hgrow : grow g fuel { head, content := [head] } = some iv)
      (hst : st' =
        { heads := heads ++ newHeads g iv heads
          processed := Function.update st.processed head true
          formed := st.formed ++ [(iv.computeEnd g, newHeads g iv heads)]
          owner := fun v => if iv.contains v then some head else st.owner v })

section Rounds

variable {g : Graph α} {e : α} {fuel : Nat} {st st' : IntervalsState α}

theorem round_cases (hg : g.WellFormed) (h : st.round g fuel = some st') :
    RoundCases g fuel st st' := by
  unfold IntervalsState.round at h
  cases hheads : st.heads with
  | nil =>
    rw [hheads] at h
    exact .done hheads (Option.some.inj h).symm
  | cons head heads =>
    rw [hheads] at h
    dsimp only at h
    cases hproc : st.processed head with
    | true =>
      rw [hproc, if_pos rfl] at h
      exact .again head heads hheads hproc (Option.some.inj h).symm
    | false =>
      rw [hproc, if_neg Bool.false_ne_true] at h
      cases hgrow : grow g fuel { head, content := [head] } with
      | none =>
        rw [hgrow] at h
        cases h
      | some iv =>
        rw [hgrow] at h
        simp only [Option.bind_eq_bind, Option.bind_some, collectHeads_eq hg] at h
        exact .form head heads iv hheads hproc hgrow (Option.some.inj h).symm

@[simp] theorem head_computeEnd (iv : Interval α) : (iv.computeEnd g).head = iv.head := rfl

@[simp] theorem content_computeEnd (iv : Interval α) :
    (iv.computeEnd g).content = iv.content := rfl

theorem IntervalsInv.start (h : Ready g e) :
    IntervalsInv g e fuel (IntervalsState.start g) := by
  have hheads : (IntervalsState.start g).heads = [e] := by
    unfold IntervalsState.start
    rw [h.entry]
    rfl
  have hformed : (IntervalsState.start g).formed = [] := rfl
  constructor
  case queued =>
    intro v hv
    rw [hheads] at hv
    exact List.mem_singleton.mp hv ▸ h.wellFormed.entryMem e h.entry
  case processed => simp [IntervalsState.start]
  case distinct => exact List.nodup_nil
  case reached =>
    rintro v (hv | hv)
    · rw [hheads] at hv
      exact .inl (List.mem_singleton.mp hv)
    · cases hv
  case entry =>
    rw [hheads]
    exact .inl List.mem_cons_self
  case owner => simp [IntervalsState.start]
  case queuer =>
    intro v hv
    rw [hheads] at hv
    exact .inl (List.mem_singleton.mp hv)
  case first => exact .inl ⟨hformed, hheads⟩
  case lastOnce =>
    intro formed last hlast
    rw [hformed] at hlast
    exact absurd hlast (by simp)
  all_goals simp [hformed]

/-- Taking a processed head from the queue. -/
theorem IntervalsInv.again {head : α} {heads : List α} (h : IntervalsInv g e fuel st)
    (hheads : st.heads = head :: heads) (hproc : st.processed head = true) :
    IntervalsInv g e fuel { st with heads } := by
  have hmem {v : α} (hv : v ∈ heads) : v ∈ st.heads := hheads ▸ List.mem_cons_of_mem _ hv
  have hstay {v : α} (hv : v ∈ st.heads ∨ st.processed v = true) :
      v ∈ heads ∨ st.processed v = true := by
    rcases hv with hv | hv
    · rw [hheads] at hv
      rcases List.mem_cons.mp hv with rfl | hv
      · exact .inr hproc
      · exact .inl hv
    · exact .inr hv
  exact {
    h with
    queued := fun v hv => h.queued v (hmem hv)
    reached := fun v hv => h.reached v (hv.imp_left hmem)
    frontier := fun f hf v hv hout hpred => hstay (h.frontier f hf v hv hout hpred)
    entry := hstay h.entry
    queuer := fun v hv => h.queuer v (hmem hv)
    first := by
      rcases h.first with ⟨hnone, _⟩ | hsome
      · obtain ⟨f, hf, _⟩ := (h.processed head).mp hproc
        rw [hnone] at hf
        cases hf
      · exact .inr hsome }

/-- The new interval shares no node with those formed before. -/
theorem IntervalsInv.apart (hready : Ready g e) (h : IntervalsInv g e fuel st) {head : α}
    (hhead : head ∈ st.heads) (hproc : st.processed head = false) {iv : Interval α}
    (hgrow : grow g fuel { head, content := [head] } = some iv) :
    iv.head = head ∧ Grown g head iv.content ∧
      (∀ x ∈ g.rpo.tail, x ∉ iv.content → ∃ p ∈ g.allPreds x, p ∉ iv.content) ∧
      ∀ f ∈ st.formed, ∀ x ∈ iv.content, x ∉ f.1.content := by
  -- a node whose predecessors are all in an interval is not reached by another one
  have hreached {x : α} (hx : x ∈ st.heads ∨ st.processed x = true) (hxe : x ≠ e)
      {f : Interval α × List α} (hf : f ∈ st.formed) (hin : ∀ p ∈ g.allPreds x, p ∈ f.1.content) :
      x ∈ f.1.content → False := by
    intro hxf
    obtain ⟨f', hf', hout, p, hp, hpf⟩ := (h.reached x hx).resolve_left hxe
    have hsame := h.disjoint f hf f' hf' p (hin p hp) hpf
    have heq : f = f' := by
      have hnodup := h.distinct
      exact List.inj_on_of_nodup_map hnodup hf hf' hsame
    exact hout (heq ▸ hxf)
  have hfirst (f : Interval α × List α) (hf : f ∈ st.formed) : head ∉ f.1.content := by
    intro hmem
    have hne : head ≠ f.1.head := by
      intro heq
      have hyes := (h.processed head).mpr ⟨f, hf, heq.symm⟩
      rw [hproc] at hyes
      cases hyes
    obtain ⟨htail, hin⟩ := (h.grown f hf).inside head hmem hne
    exact hreached (.inl hhead) (hready.rpo head htail).2 hf hin hmem
  have hadd (content : List α) (x : α)
      (hP : Grown g head content ∧ ∀ f ∈ st.formed, ∀ y ∈ content, y ∉ f.1.content)
      (hx : x ∈ g.rpo.tail) (hnew : x ∉ content) (hpreds : ∀ p ∈ g.allPreds x, p ∈ content) :
      Grown g head (content ++ [x]) ∧
        ∀ f ∈ st.formed, ∀ y ∈ content ++ [x], y ∉ f.1.content := by
    refine ⟨hP.1.add hready hx hnew hpreds, fun f hf y hy hyf => ?_⟩
    rcases List.mem_append.mp hy with hy | hy
    · exact hP.2 f hf y hy hyf
    · -- a predecessor of the node added is in both intervals
      obtain rfl := List.mem_singleton.mp hy
      obtain ⟨hynodes, hye⟩ := hready.rpo y hx
      by_cases hyh : y = f.1.head
      · have hyproc := (h.processed y).mpr ⟨f, hf, hyh.symm⟩
        obtain ⟨f', hf', _, q, hq, hqf⟩ := (h.reached y (.inr hyproc)).resolve_left hye
        exact hP.2 f' hf' q (hpreds q hq) hqf
      · obtain ⟨p, hp, _⟩ := hready.exists_pred hynodes hye
        exact hP.2 f hf p (hpreds p hp) (((h.grown f hf).inside y hyf hyh).2 p hp)
  have hsingle : ∀ f ∈ st.formed, ∀ x ∈ [head], x ∉ f.1.content :=
    fun f hf x hx => List.mem_singleton.mp hx ▸ hfirst f hf
  have hstop := grow_stopped hadd ⟨Grown.single (h.queued head hhead), hsingle⟩ hgrow
  exact ⟨hstop.head, hstop.holds.1, hstop.maximal, hstop.holds.2⟩

omit [DecidableEq α] in
theorem Queues.mono {formed : List (Interval α × List α)} {f : Interval α × List α} {v w : α}
    (h : ReflTransGen (Queues formed) v w) : ReflTransGen (Queues (formed ++ [f])) v w := by
  refine ReflTransGen.mono (fun a b hab => ?_) _ _ h
  obtain ⟨f', hf', hhead, hb⟩ := hab
  exact ⟨f', List.mem_append_left _ hf', hhead, hb⟩

/-- A node queued waits or has been processed. -/
theorem IntervalsInv.waits (h : IntervalsInv g e fuel st) {f : Interval α × List α}
    (hf : f ∈ st.formed) {v : α} (hv : v ∈ f.2) : v ∈ st.heads ∨ st.processed v = true := by
  obtain ⟨_, _, hat⟩ := h.formedAt f hf
  obtain ⟨hnode, hout, _, hpred⟩ := (hat.found v).mp hv
  exact h.frontier f hf v hnode hout hpred

/-- Forming an interval. -/
theorem IntervalsInv.form (hready : Ready g e) (h : IntervalsInv g e fuel st)
    (hrun : IntervalsRun g fuel st) {head : α} {heads : List α} {iv : Interval α}
    (hheads : st.heads = head :: heads) (hproc : st.processed head = false)
    (hgrow : grow g fuel { head, content := [head] } = some iv) :
    IntervalsInv g e fuel
      { heads := heads ++ newHeads g iv heads
        processed := Function.update st.processed head true
        formed := st.formed ++ [(iv.computeEnd g, newHeads g iv heads)]
        owner := fun v => if iv.contains v then some head else st.owner v } := by
  have hhead : head ∈ st.heads := hheads ▸ List.mem_cons_self
  obtain ⟨hivhead, hgrown, hmax, hapart⟩ := h.apart hready hhead hproc hgrow
  generalize hf : (iv.computeEnd g, newHeads g iv heads) = f
  have hf1 : f.1.head = head := by rw [← hf, head_computeEnd, hivhead]
  have hfc : f.1.content = iv.content := by rw [← hf, content_computeEnd]
  have hf2 (v : α) : v ∈ f.2 ↔ v ∈ g.nodes ∧ v ∉ iv.content ∧ v ∉ heads ∧
      ∃ p ∈ g.allPreds v, p ∈ iv.content := by
    rw [← hf]
    exact mem_newHeads
  have hnew : newHeads g iv heads = f.2 := by rw [← hf]
  rw [hnew]
  have hmem {f' : Interval α × List α} : f' ∈ st.formed ++ [f] ↔ f' ∈ st.formed ∨ f' = f := by
    simp
  have hproc' {v : α} : Function.update st.processed head true v = true ↔
      v = head ∨ st.processed v = true := by
    rcases eq_or_ne v head with rfl | hne
    · simp
    · rw [Function.update_of_ne hne]
      simp [hne]
  have hqueue {v : α} (hv : v ∈ heads) : v ∈ st.heads := hheads ▸ List.mem_cons_of_mem _ hv
  have hstay {v : α} (hv : v ∈ st.heads ∨ st.processed v = true) :
      v ∈ heads ++ f.2 ∨ Function.update st.processed head true v = true := by
    rw [hproc']
    rcases hv with hv | hv
    · rw [hheads] at hv
      rcases List.mem_cons.mp hv with rfl | hv
      · exact .inr (.inl rfl)
      · exact .inl (List.mem_append_left _ hv)
    · exact .inr (.inr hv)
  have hold {v : α} (hv : ∃ f ∈ st.formed, v ∉ f.1.content ∧ ∃ p ∈ g.allPreds v, p ∈ f.1.content) :
      ∃ f' ∈ st.formed ++ [f], v ∉ f'.1.content ∧ ∃ p ∈ g.allPreds v, p ∈ f'.1.content := by
    obtain ⟨f', hf', hpred⟩ := hv
    exact ⟨f', hmem.mpr (.inl hf'), hpred⟩
  constructor
  case queued =>
    intro v hv
    rcases List.mem_append.mp hv with hv | hv
    · exact h.queued v (hqueue hv)
    · exact ((hf2 v).mp hv).1
  case processed =>
    intro v
    rw [hproc', h.processed v]
    constructor
    · rintro (rfl | ⟨f', hf', hv⟩)
      · exact ⟨f, hmem.mpr (.inr rfl), hf1⟩
      · exact ⟨f', hmem.mpr (.inl hf'), hv⟩
    · rintro ⟨f', hf', hv⟩
      rcases hmem.mp hf' with hf' | rfl
      · exact .inr ⟨f', hf', hv⟩
      · exact .inl (hv.symm.trans hf1)
  case distinct =>
    rw [List.map_append, List.nodup_append]
    refine ⟨h.distinct, List.nodup_singleton _, ?_⟩
    rintro x hx y hy rfl
    obtain ⟨f', hf', rfl⟩ := List.mem_map.mp hx
    have hsame : f'.1.head = head := (List.mem_singleton.mp hy).trans hf1
    have hyes := (h.processed head).mpr ⟨f', hf', hsame⟩
    rw [hproc] at hyes
    cases hyes
  case grown =>
    intro f' hf'
    rcases hmem.mp hf' with hf' | rfl
    · exact h.grown f' hf'
    · rw [hf1, hfc]
      exact hgrown
  case maximal =>
    intro f' hf'
    rcases hmem.mp hf' with hf' | rfl
    · exact h.maximal f' hf'
    · rw [hfc]
      exact hmax
  case disjoint =>
    intro f1 hmem1 f2 hmem2 x hx1 hx2
    rcases hmem.mp hmem1 with hold1 | rfl
    · rcases hmem.mp hmem2 with hold2 | rfl
      · exact h.disjoint f1 hold1 f2 hold2 x hx1 hx2
      · exact absurd hx1 (hapart f1 hold1 x (hfc ▸ hx2))
    · rcases hmem.mp hmem2 with hold2 | rfl
      · exact absurd hx2 (hapart f2 hold2 x (hfc ▸ hx1))
      · rfl
  case reached =>
    intro v hv
    rw [hproc'] at hv
    rcases hv with hv | rfl | hv
    · rcases List.mem_append.mp hv with hv | hv
      · exact (h.reached v (.inl (hqueue hv))).imp_right hold
      · obtain ⟨_, hout, _, hpred⟩ := (hf2 v).mp hv
        exact .inr ⟨f, hmem.mpr (.inr rfl), hfc ▸ hout, hfc ▸ hpred⟩
    · exact (h.reached v (.inl hhead)).imp_right hold
    · exact (h.reached v (.inr hv)).imp_right hold
  case frontier =>
    intro f' hf' v hv hout hpred
    rcases hmem.mp hf' with hf' | rfl
    · exact hstay (h.frontier f' hf' v hv hout hpred)
    · rw [hfc] at hout hpred
      left
      by_cases hwait : v ∈ heads
      · exact List.mem_append_left _ hwait
      · exact List.mem_append_right _ ((hf2 v).mpr ⟨hv, hout, hwait, hpred⟩)
  case entry => exact hstay h.entry
  case owner =>
    intro v x
    dsimp only
    by_cases hv : v ∈ iv.content
    · have hcontains : iv.contains v = true := decide_eq_true hv
      rw [if_pos hcontains]
      constructor
      · intro hx
        exact ⟨f, hmem.mpr (.inr rfl), hf1.trans (Option.some.inj hx), hfc ▸ hv⟩
      · rintro ⟨f', hf', hx, hvf⟩
        rcases hmem.mp hf' with hf' | rfl
        · exact absurd hvf (hapart f' hf' v hv)
        · rw [← hx, hf1]
    · have hcontains : ¬iv.contains v = true := fun hc => hv (of_decide_eq_true hc)
      rw [if_neg hcontains, h.owner v x]
      constructor
      · rintro ⟨f', hf', hx, hvf⟩
        exact ⟨f', hmem.mpr (.inl hf'), hx, hvf⟩
      · rintro ⟨f', hf', hx, hvf⟩
        rcases hmem.mp hf' with hf' | rfl
        · exact ⟨f', hf', hx, hvf⟩
        · exact absurd (hfc ▸ hvf) hv
  case formedAt =>
    intro f' hf'
    rcases hmem.mp hf' with hf' | rfl
    · exact h.formedAt f' hf'
    · refine ⟨st, heads, hrun, hf1 ▸ hheads, hf1 ▸ hproc, ?_⟩
      rw [hfc]
      exact hf2
  case queuer =>
    intro v hv
    rcases List.mem_append.mp hv with hv | hv
    · refine (h.queuer v (hqueue hv)).imp_right ?_
      rintro ⟨f', hf', hvf⟩
      exact ⟨f', hmem.mpr (.inl hf'), hvf⟩
    · exact .inr ⟨f, hmem.mpr (.inr rfl), hv⟩
  case queues =>
    intro f' hf'
    rcases hmem.mp hf' with hf' | rfl
    · exact Queues.mono (h.queues f' hf')
    · rw [hf1]
      rcases h.queuer head hhead with rfl | ⟨f', hf', hvf⟩
      · exact ReflTransGen.refl
      · exact (Queues.mono (h.queues f' hf')).tail ⟨f', hmem.mpr (.inl hf'), rfl, hvf⟩
  case once =>
    intro v hv f1 hmem1 f2 hmem2 hv1 hv2
    dsimp only at hv
    have hnot : ¬(v = head ∨ st.processed v = true) := by
      rw [← hproc', hv]
      exact Bool.false_ne_true
    have hv' : st.processed v = false := by
      simpa using fun hyes => hnot (.inr hyes)
    -- a node queued before is still waiting
    have hclash {f' : Interval α × List α} (hf' : f' ∈ st.formed) (hvf : v ∈ f'.2) : v ∉ f.2 := by
      intro hvn
      rcases h.waits hf' hvf with hwait | hyes
      · rw [hheads] at hwait
        rcases List.mem_cons.mp hwait with heq | hwait
        · exact hnot (.inl heq)
        · exact ((hf2 v).mp hvn).2.2.1 hwait
      · exact hnot (.inr hyes)
    rcases hmem.mp hmem1 with hold1 | rfl
    · rcases hmem.mp hmem2 with hold2 | rfl
      · exact h.once v hv' f1 hold1 f2 hold2 hv1 hv2
      · exact absurd hv2 (hclash hold1 hv1)
    · rcases hmem.mp hmem2 with hold2 | rfl
      · exact absurd hv1 (hclash hold2 hv2)
      · rfl
  case first =>
    right
    rcases h.first with ⟨hnone, hsingle⟩ | ⟨f', rest, hformed, hfe⟩
    · rw [hheads] at hsingle
      refine ⟨f, [], ?_, hf1.trans (List.cons.inj hsingle).1⟩
      dsimp only
      rw [hnone]
      rfl
    · refine ⟨f', rest ++ [f], ?_, hfe⟩
      dsimp only
      rw [hformed]
      rfl
  case lastOnce =>
    intro formed last hlast f1 hf1' f2 hf2' hl1 hl2
    obtain ⟨rfl, hsame⟩ := List.append_inj' hlast rfl
    obtain rfl := List.singleton_inj.mp hsame
    rw [hf1] at hl1 hl2
    exact h.once head hproc f1 hf1' f2 hf2' hl1 hl2

theorem IntervalsRun.inv (hready : Ready g e) (h : IntervalsRun g fuel st) :
    IntervalsInv g e fuel st := by
  induction h with
  | start => exact IntervalsInv.start hready
  | @round st st' hrun hround ih =>
    rcases round_cases hready.wellFormed hround with ⟨_, rfl⟩ |
      ⟨head, heads, hheads, hproc, rfl⟩ | ⟨head, heads, iv, hheads, hproc, hgrow, rfl⟩
    · exact ih
    · exact ih.again hheads hproc
    · exact ih.form hready hrun hheads hproc hgrow

/-- Nodes that are not processed count for all the heads they can queue. -/
def roundsLeft (g : Graph α) (st : IntervalsState α) : Nat :=
  (g.nodes.filter fun v => !st.processed v).length * (g.nodes.length + 1) + st.heads.length

theorem exists_round (hready : Ready g e) (hfuel : g.nodes.length < fuel)
    (hrun : IntervalsRun g fuel st) (hheads : st.heads ≠ []) :
    ∃ st', st.round g fuel = some st' ∧ roundsLeft g st' < roundsLeft g st := by
  have hinv := hrun.inv hready
  obtain ⟨head, heads, hcons⟩ := List.exists_cons_of_ne_nil hheads
  have hhead : head ∈ st.heads := hcons ▸ List.mem_cons_self
  unfold IntervalsState.round
  rw [hcons]
  dsimp only
  cases hproc : st.processed head with
  | true =>
    refine ⟨{ st with heads }, if_pos rfl, ?_⟩
    unfold roundsLeft
    rw [hcons]
    simp
  | false =>
    have hfuel' : g.nodes.length < [head].length + fuel := by
      rw [List.length_singleton]
      omega
    obtain ⟨iv, hgrow⟩ : ∃ iv, grow g fuel { head, content := [head] } = some iv :=
      exists_grow hready (Grown.single (hinv.queued head hhead)) hfuel'
    rw [if_neg Bool.false_ne_true, hgrow]
    simp only [Option.bind_eq_bind, Option.bind_some, collectHeads_eq hready.wellFormed]
    refine ⟨_, rfl, ?_⟩
    unfold roundsLeft
    -- one node fewer is unprocessed, and the queue grows by less than all nodes
    have hsum := sum_filter_remove hready.wellFormed.nodup (hinv.queued head hhead)
      (p := fun v => !st.processed v)
      (q := fun v => !Function.update st.processed head true v) (by simp [hproc])
      (by
        intro x
        rcases eq_or_ne x head with rfl | hne
        · simp
        · simp [hne]) (fun _ => 1)
    have hnew : (newHeads g iv heads).length ≤ g.nodes.length := List.length_filter_le _ _
    have hone (l : List α) : (l.map fun _ => 1).sum = l.length := by simp
    rw [hone, hone] at hsum
    dsimp only
    rw [hsum, hcons, List.length_append, List.length_cons, Nat.add_mul]
    omega

theorem exists_run (hready : Ready g e) (hfuel : g.nodes.length < fuel) {rounds : Nat}
    (hrun : IntervalsRun g fuel st) (hrounds : roundsLeft g st < rounds) :
    ∃ st', st.run g fuel rounds = some st' := by
  induction rounds generalizing st with
  | zero => exact absurd hrounds (Nat.not_lt_zero _)
  | succ rounds ih =>
    rw [IntervalsState.run]
    by_cases hheads : st.heads = []
    · rw [hheads]
      exact ⟨st, rfl⟩
    · obtain ⟨st', hround, hless⟩ := exists_round hready hfuel hrun hheads
      rw [if_neg (by simpa using hheads), hround]
      exact ih (hrun.round hround) (by omega)

theorem run_spec {rounds : Nat} (hrun : IntervalsRun g fuel st)
    (h : st.run g fuel rounds = some st') : IntervalsRun g fuel st' ∧ st'.heads = [] := by
  induction rounds generalizing st with
  | zero => cases h
  | succ rounds ih =>
    rw [IntervalsState.run] at h
    split at h
    next hempty =>
      obtain rfl := Option.some.inj h
      exact ⟨hrun, List.isEmpty_iff.mp hempty⟩
    next =>
      obtain ⟨st1, hround, hrest⟩ := Option.bind_eq_some_iff.mp h
      exact ih (hrun.round hround) hrest

end Rounds

end Dexllm.Dad
