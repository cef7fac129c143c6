import Dexllm.Dad.DomLtRounds

/-!
`CommonDom` climbs from two nodes along their immediate dominators, by their
reverse post-order numbers, until the two climbs meet. They meet at the nearest
common dominator.
-/

namespace Dexllm.Dad

open DepthFirst Relation

variable {α : Type} [DecidableEq α]

/-- One inner loop of `CommonDom`: up from a node as long as its number is above
`bound`. Without a result the rounds have run out. -/
def climb (idom : α → Option α) (num : α → Int) (bound : Int) : Nat → Option α → Option (Option α)
  | _, none => some none
  | 0, some v => if bound < num v then none else some (some v)
  | fuel + 1, some v =>
    if bound < num v then climb idom num bound fuel (idom v) else some (some v)

def commonDomLoop (idom : α → Option α) (num : α → Int) : Nat → α → α → Option (Option α)
  | 0, _, _ => none
  | fuel + 1, cur, pred =>
    if cur = pred then some (some cur)
    else match climb idom num (num cur) fuel (some pred) with
      | none => none
      | some none => some (some cur)
      | some (some pred) =>
        match climb idom num (num pred) fuel (some cur) with
        | none => none
        | some none => some (some pred)
        | some (some cur) =>
          if num cur = num pred then some (some cur) else commonDomLoop idom num fuel cur pred

def commonDom (idom : α → Option α) (num : α → Int) (fuel : Nat) :
    Option α → Option α → Option (Option α)
  | some cur, some pred => commonDomLoop idom num fuel cur pred
  | some cur, none => some (some cur)
  | none, pred => some pred

/-- A common dominator that every common dominator dominates. -/
structure NearestCommonDominator (sucs : α → List α) (root c a b : α) : Prop where
  left : Dominates sucs root c a
  right : Dominates sucs root c b
  nearest : ∀ d, Dominates sucs root d a → Dominates sucs root d b → Dominates sucs root d c

section Numbers

variable {g : Graph α} {e : α}

theorem num_computeRpo (he : g.entry = some e) {v : α} (hv : v ∈ (g.dfs e).left) :
    g.computeRpo.num v = g.nodes.length - (g.dfs e).left.idxOf v := by
  have hpo : g.postOrder = (g.dfs e).left := by
    unfold Graph.postOrder
    rw [he]
  unfold Graph.computeRpo
  rw [hpo]
  dsimp only
  rw [if_pos hv]
  omega

/-- A node is left before its ancestors. -/
theorem anc_left (hg : g.WellFormed) (he : g.entry = some e) {a v : α}
    (hanc : Anc (g.dfs e).parent a v) (hv : v ∈ (g.dfs e).left) :
    a = v ∨ (a ∈ (g.dfs e).left ∧ (g.dfs e).left.idxOf v < (g.dfs e).left.idxOf a) := by
  have hinv : Inv g.allSucs e (g.dfs e) := inv_run
  have hsp := hg.spanning he
  induction hanc using ReflTransGen.head_induction_on with
  | refl => exact .inl rfl
  | @head a b hlink hrest ih =>
    obtain ⟨hb, hangs⟩ := hsp.link hlink
    have ha := (hg.mem_left he).mpr hangs.mem
    have hb' := (hg.mem_left he).mpr hb
    have hlt := hinv.later b hb' a ha hlink
    right
    rcases ih with rfl | ⟨_, hlt'⟩
    · exact ⟨ha, hlt⟩
    · exact ⟨ha, lt_trans hlt' hlt⟩

end Numbers

/-- The facts about `DomLt` and the numbers that `CommonDom` rests on. -/
structure Numbered (sucs : α → List α) (root : α) (reached : α → Prop) (idom : α → Option α)
    (num : α → Int) (size : Nat) : Prop where
  inj : ∀ v w, reached v → reached w → num v = num w → v = w
  pos : ∀ v, reached v → 0 < num v
  le : ∀ v, reached v → num v ≤ size
  dom : ∀ d v, reached v → Dominates sucs root d v → reached d ∧ (d = v ∨ num d < num v)
  idom : ∀ v, reached v → v ≠ root → ∃ z, idom v = some z ∧ ImmediateDominator sucs root z v
  first : ∀ v, reached v → v ≠ root → num root < num v

theorem numbered_domLt {g : Graph α} (hg : g.WellFormed) {e : α} (he : g.entry = some e)
    (orders : SetOrders α) : Numbered g.allSucs e g.Reachable (domLt orders g.computeRpo)
      g.computeRpo.num g.nodes.length := by
  have hinv : Inv g.allSucs e (g.dfs e) := inv_run
  have hsp := hg.spanning he
  have hleft {v : α} : v ∈ (g.dfs e).left ↔ g.Reachable v :=
    (hg.mem_left he).trans (hg.entered_iff he)
  have hnum {v : α} (hv : g.Reachable v) := num_computeRpo he (hleft.mpr hv)
  have hlt {v : α} (hv : g.Reachable v) := List.idxOf_lt_length_of_mem (hleft.mpr hv)
  have hsize : (g.dfs e).left.length ≤ g.nodes.length :=
    (hinv.leftNodup.subperm fun v hv => hg.reachable_mem (hleft.mp hv)).length_le
  have hanc {a v : α} (hanc : Anc (g.dfs e).parent a v) (hv : g.Reachable v) :
      g.Reachable a ∧ (a = v ∨ g.computeRpo.num a < g.computeRpo.num v) := by
    rcases anc_left hg he hanc (hleft.mpr hv) with rfl | ⟨ha, hidx⟩
    · exact ⟨hv, .inl rfl⟩
    · have ha := hleft.mp ha
      refine ⟨ha, .inr ?_⟩
      rw [hnum ha, hnum hv]
      omega
  constructor
  case inj =>
    intro v w hv hw heq
    rw [hnum hv, hnum hw] at heq
    exact (List.idxOf_inj (hleft.mpr hv)).mp (by omega)
  case pos =>
    intro v hv
    have hv' := hlt hv
    rw [hnum hv]
    omega
  case le =>
    intro v hv
    rw [hnum hv]
    omega
  case dom =>
    intro d v hv hd
    exact hanc (hsp.dom_anc ((hg.entered_iff he).mpr hv) hd) hv
  case idom => exact fun v hv hne => exists_domLt orders hg.computeRpo he hv hne
  case first =>
    intro v hv hne
    rcases (hanc (hsp.root_anc ((hg.entered_iff he).mpr hv)) hv).2 with heq | hnum
    · exact absurd heq.symm hne
    · exact hnum

section Climb

variable {sucs : α → List α} {root : α} {reached : α → Prop} {idom : α → Option α}
  {num : α → Int} {size : Nat}

omit [DecidableEq α] in
theorem Numbered.reached_dom (h : Numbered sucs root reached idom num size) {d v : α}
    (hv : reached v) (hd : Dominates sucs root d v) : reached d ∧ num d ≤ num v := by
  obtain ⟨hd, heq | hlt⟩ := h.dom d v hv hd
  · exact ⟨hd, Int.le_of_eq (congrArg num heq)⟩
  · exact ⟨hd, Int.le_of_lt hlt⟩

omit [DecidableEq α] in
theorem Numbered.root_le (h : Numbered sucs root reached idom num size) {v : α}
    (hv : reached v) : num root ≤ num v := by
  by_cases hne : v = root
  · exact Int.le_of_eq (congrArg num hne.symm)
  · exact Int.le_of_lt (h.first v hv hne)

/-- Where a climb from `v` ends: at the last dominator of `v` that is not above
`bound`. -/
structure Climbed (sucs : α → List α) (root : α) (reached : α → Prop) (num : α → Int)
    (bound : Int) (v v' : α) : Prop where
  reached : reached v'
  stopped : num v' ≤ bound
  le : num v' ≤ num v
  moved : bound < num v → num v' < num v
  dominates : Dominates sucs root v' v
  nearest : ∀ d, Dominates sucs root d v → num d ≤ bound → Dominates sucs root d v'

omit [DecidableEq α] in
theorem Numbered.climb (h : Numbered sucs root reached idom num size) {bound : Int}
    (hbound : num root ≤ bound) {fuel : Nat} {v : α} (hv : reached v) (hfuel : num v ≤ fuel) :
    ∃ v', climb idom num bound fuel (some v) = some (some v') ∧
      Climbed sucs root reached num bound v v' := by
  induction fuel generalizing v with
  | zero =>
    have hpos := h.pos v hv
    omega
  | succ fuel ih =>
    rw [Dad.climb]
    by_cases hlt : bound < num v
    · have hne : v ≠ root := by
        rintro rfl
        omega
      obtain ⟨z, hz, hidom⟩ := h.idom v hv hne
      obtain ⟨hzr, heq | hzlt⟩ := h.dom z v hv hidom.dominates
      · exact absurd heq hidom.strict
      · obtain ⟨v', hv', hclimbed⟩ := ih hzr (by omega)
        rw [if_pos hlt, hz]
        have hle := hclimbed.le
        refine ⟨v', hv', hclimbed.reached, hclimbed.stopped, by omega, fun _ => by omega, ?_, ?_⟩
        · exact dominates_trans hclimbed.dominates hidom.dominates
        · intro d hd hnum
          apply hclimbed.nearest d _ hnum
          apply hidom.nearest d hd
          rintro rfl
          omega
    · rw [if_neg hlt]
      exact ⟨v, rfl, hv, by omega, Int.le_refl _, fun hyes => absurd hyes hlt, dominates_self v,
        fun _ hd _ => hd⟩

/-- The loop of `CommonDom` ends at the nearest common dominator. -/
theorem Numbered.commonDomLoop (h : Numbered sucs root reached idom num size) {fuel : Nat}
    {cur pred : α} (hcur : reached cur) (hpred : reached pred)
    (hfuel : num cur + num pred ≤ fuel) :
    ∃ c, commonDomLoop idom num fuel cur pred = some (some c) ∧ reached c ∧
      NearestCommonDominator sucs root c cur pred := by
  induction fuel generalizing cur pred with
  | zero =>
    have hpos := h.pos cur hcur
    have hpos' := h.pos pred hpred
    omega
  | succ fuel ih =>
    rw [Dad.commonDomLoop]
    by_cases heq : cur = pred
    · subst heq
      rw [if_pos rfl]
      exact ⟨cur, rfl, hcur, dominates_self cur, dominates_self cur, fun _ hd _ => hd⟩
    · have hpos := h.pos cur hcur
      have hpos' := h.pos pred hpred
      have hroom : num cur ≤ (fuel : Int) := by omega
      have hroom' : num pred ≤ (fuel : Int) := by omega
      obtain ⟨pred', hpred', hp⟩ := h.climb (h.root_le hcur) hpred hroom'
      obtain ⟨cur', hcur', hc⟩ := h.climb (h.root_le hp.reached) hcur hroom
      rw [if_neg heq, hpred']
      dsimp only
      rw [hcur']
      dsimp only
      -- the common dominators are those of the two nodes reached
      have hcommon (d : α) (hdc : Dominates sucs root d cur) (hdp : Dominates sucs root d pred) :
          Dominates sucs root d cur' ∧ Dominates sucs root d pred' := by
        have hdp' := hp.nearest d hdp (h.reached_dom hcur hdc).2
        exact ⟨hc.nearest d hdc (h.reached_dom hp.reached hdp').2, hdp'⟩
      by_cases hnum : num cur' = num pred'
      · rw [if_pos hnum]
        have hsame := h.inj cur' pred' hc.reached hp.reached hnum
        refine ⟨cur', rfl, hc.reached, hc.dominates, ?_, fun d hdc hdp => (hcommon d hdc hdp).1⟩
        rw [hsame]
        exact hp.dominates
      · rw [if_neg hnum]
        have hne : num cur ≠ num pred := fun hsame => heq (h.inj cur pred hcur hpred hsame)
        have hlec := hc.le
        have hlep := hp.le
        have hless : num cur' + num pred' < num cur + num pred := by
          rcases Int.lt_or_gt_of_ne hne with hlt | hgt
          · have hmoved := hp.moved hlt
            omega
          · have hmoved := hc.moved (by omega)
            omega
        obtain ⟨c, hloop, hreached, hnearest⟩ := ih hc.reached hp.reached (by omega)
        refine ⟨c, hloop, hreached, ?_, ?_, ?_⟩
        · exact dominates_trans hnearest.left hc.dominates
        · exact dominates_trans hnearest.right hp.dominates
        · intro d hdc hdp
          obtain ⟨hdc', hdp'⟩ := hcommon d hdc hdp
          exact hnearest.nearest d hdc' hdp'

/-- With rounds for all nodes twice the loop ends. -/
theorem Numbered.commonDom (h : Numbered sucs root reached idom num size) {fuel : Nat}
    (hfuel : 2 * size ≤ fuel) {a b : α} (ha : reached a) (hb : reached b) :
    ∃ c, commonDom idom num fuel (some a) (some b) = some (some c) ∧ reached c ∧
      NearestCommonDominator sucs root c a b := by
  have hle := h.le a ha
  have hle' := h.le b hb
  exact h.commonDomLoop ha hb (by omega)

omit [DecidableEq α] in
theorem NearestCommonDominator.dominates_iff {c a b : α}
    (h : NearestCommonDominator sucs root c a b) (d : α) :
    Dominates sucs root d c ↔ Dominates sucs root d a ∧ Dominates sucs root d b :=
  ⟨fun hd => ⟨dominates_trans hd h.left, dominates_trans hd h.right⟩,
    fun hd => h.nearest d hd.1 hd.2⟩

omit [DecidableEq α] in
/-- A node is determined by its dominators. -/
theorem Numbered.eq_of_dominators (h : Numbered sucs root reached idom num size) {a b : α}
    (ha : reached a) (hb : reached b)
    (hsame : ∀ d, Dominates sucs root d a ↔ Dominates sucs root d b) : a = b := by
  have hab := (h.reached_dom hb ((hsame a).mp (dominates_self a))).2
  have hba := (h.reached_dom ha ((hsame b).mpr (dominates_self b))).2
  exact h.inj a b ha hb (Int.le_antisymm hab hba)

/-- Meeting a list of nodes one after the other. -/
theorem Numbered.commonDom_fold (h : Numbered sucs root reached idom num size) {fuel : Nat}
    (hfuel : 2 * size ≤ fuel) (nodes : List α) (hnodes : ∀ n ∈ nodes, reached n) {a : α}
    (ha : reached a) :
    ∃ c, nodes.foldl (fun common n => common.bind fun common =>
        Dad.commonDom idom num fuel common (some n)) (some (some a)) = some (some c) ∧
      reached c ∧ ∀ d, Dominates sucs root d c ↔
        Dominates sucs root d a ∧ ∀ n ∈ nodes, Dominates sucs root d n := by
  induction nodes generalizing a with
  | nil => exact ⟨a, rfl, ha, by simp⟩
  | cons n nodes ih =>
    obtain ⟨m, hm, hmr, hmeet⟩ := h.commonDom hfuel ha (hnodes n List.mem_cons_self)
    obtain ⟨c, hc, hcr, hdom⟩ := ih (fun x hx => hnodes x (List.mem_cons_of_mem _ hx)) hmr
    refine ⟨c, ?_, hcr, fun d => ?_⟩
    · rw [List.foldl_cons, Option.bind_some, hm]
      exact hc
    · rw [hdom d, hmeet.dominates_iff d, List.forall_mem_cons, and_assoc]

end Climb

end Dexllm.Dad
