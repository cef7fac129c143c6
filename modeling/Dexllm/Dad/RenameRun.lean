import Dexllm.Dad.SplitVersions

/-!
The run of the renaming over the versions of a register, and over all registers.
-/

namespace Dexllm.Dad.VarSplit

variable {m m' m'' : VarCode} {given : List (Nat × Nat)} {D U : Renaming} {L : Nat → Option Nat}
  {nb n obj : Nat} {loc : Int} {t : String}

/-- A parameter keeps its id, so that its incoming value is renamed without a change. -/
theorem RenameInv.renameParam (h : RenameInv m m' given D U L nb) (hm : m.Wired)
    (hobj : (n, obj) ∈ given) (hid : (m'.objs obj).vid = .reg n) (hL : L n = some obj)
    (hfree : D (.reg n, loc) = none) (hneg : loc < 0) :
    RenameInv m m' given (D.add (.reg n) loc obj) U L nb := by
  have hname (i : Int) (v : Vid) :
      (D.add (.reg n) loc obj).name m'.objs i v = D.name m'.objs i v := by
    by_cases hkey : (v, i) = (Vid.reg n, loc)
    · obtain ⟨rfl, rfl⟩ := Prod.mk.inj hkey
      rw [Renaming.name_add_self, Renaming.name_of_none hfree, hid]
    · unfold Renaming.name
      rw [Renaming.add, Function.update_of_ne hkey]
  refine { h with
    withinD := h.withinD.add hobj
    ins := fun i ins hins => ?_
    du := fun w i l => ?_
    incoming := fun k d o hd ho => ?_ }
  · obtain ⟨ins', hins', hrest⟩ := h.ins i ins hins
    have hi : i ≠ loc := by
      have := hm.located i ins hins
      omega
    exact ⟨ins', hins', hrest.congr (fun v => Renaming.add_loc_ne hi) fun _ => rfl⟩
  · simp only [hname]
    exact h.du w i l
  · by_cases hkey : (Vid.reg k, d) = (Vid.reg n, loc)
    · obtain ⟨hk, rfl⟩ := Prod.mk.inj hkey
      obtain rfl := Vid.reg.inj hk
      rw [Renaming.add_self] at ho
      obtain rfl := Option.some.inj ho
      exact ⟨hL, hid⟩
    · rw [Renaming.add, Function.update_of_ne hkey] at ho
      exact h.incoming k d o hd ho

theorem RenameInv.renameDefs (h : RenameInv m m' given D U L nb) (hm : m.Wired)
    (hobj : (n, obj) ∈ given) {ds : List Int}
    (hkeys : ∀ d ∈ ds, ∃ l, m.du.lookup (.reg n, d) = some l)
    (hfree : ∀ d ∈ ds, D (.reg n, d) = none) (hnodup : ds.Nodup)
    (hneg : ∀ d ∈ ds, d < 0 → (m'.objs obj).vid = .reg n ∧ L n = some obj) :
    ∃ m'' t', ds.foldlM (VarSplit.renameDef (.reg n) obj) (m', t) = some (m'', t') ∧
      RenameInv m m'' given (D.addAll (.reg n) obj ds) U L nb ∧ m''.objs = m'.objs ∧
      m''.nextObj = m'.nextObj := by
  induction ds generalizing m' D t with
  | nil => exact ⟨m', t, rfl, h, rfl, rfl⟩
  | cons d ds ih =>
    obtain ⟨hd, hnodup⟩ := List.nodup_cons.mp hnodup
    obtain ⟨l, hkey⟩ := hkeys d List.mem_cons_self
    have hnone := hfree d List.mem_cons_self
    have hstep : ∃ m₁ t₁, VarSplit.renameDef (.reg n) obj (m', t) d = some (m₁, t₁) ∧
        RenameInv m m₁ given (D.add (.reg n) d obj) U L nb ∧ m₁.objs = m'.objs ∧
        m₁.nextObj = m'.nextObj := by
      rcases lt_or_ge d 0 with hlt | hpos
      · obtain ⟨hid, hL⟩ := hneg d List.mem_cons_self hlt
        refine ⟨m', t, ?_, h.renameParam hm hobj hid hL hnone hlt, rfl, rfl⟩
        simp only [VarSplit.renameDef, if_pos hlt]
      · exact h.renameDef hm hobj hkey hnone hpos
    obtain ⟨m₁, t₁, hrun, hinv, hobjs, hnext⟩ := hstep
    obtain ⟨m₂, t₂, hrun', hinv', hobjs', hnext'⟩ := ih hinv (t := t₁)
      (fun e he => hkeys e (List.mem_cons_of_mem d he))
      (fun e he => by
        have hne : e ≠ d := fun heq => hd (by rw [← heq]; exact he)
        rw [Renaming.add_loc_ne hne]
        exact hfree e (List.mem_cons_of_mem d he))
      hnodup
      (fun e he hlt => hobjs ▸ hneg e (List.mem_cons_of_mem d he) hlt)
    refine ⟨m₂, t₂, ?_, hinv', hobjs'.trans hobjs, hnext'.trans hnext⟩
    rw [List.foldlM_cons, hrun]
    exact hrun'

theorem RenameInv.renameUses (h : RenameInv m m' given D U L nb) (hm : m.Wired)
    (hobj : (n, obj) ∈ given) {us : List Int}
    (hkeys : ∀ u ∈ us, ∃ l, m.ud.lookup (.reg n, u) = some l)
    (hfree : ∀ u ∈ us, U (.reg n, u) = none) (hnodup : us.Nodup) :
    ∃ m'', us.foldlM (VarSplit.renameUse (.reg n) obj) m' = some m'' ∧
      RenameInv m m'' given D (U.addAll (.reg n) obj us) L nb ∧ m''.objs = m'.objs ∧
      m''.nextObj = m'.nextObj := by
  induction us generalizing m' U with
  | nil => exact ⟨m', rfl, h, rfl, rfl⟩
  | cons u us ih =>
    obtain ⟨hu, hnodup⟩ := List.nodup_cons.mp hnodup
    obtain ⟨l, hkey⟩ := hkeys u List.mem_cons_self
    obtain ⟨m₁, hrun, hinv, hobjs, hnext⟩ :=
      h.renameUse hm hobj hkey (hfree u List.mem_cons_self)
    obtain ⟨m₂, hrun', hinv', hobjs', hnext'⟩ := ih hinv
      (fun e he => hkeys e (List.mem_cons_of_mem u he))
      (fun e he => by
        have hne : e ≠ u := fun heq => hu (by rw [← heq]; exact he)
        rw [Renaming.add_loc_ne hne]
        exact hfree e (List.mem_cons_of_mem u he))
      hnodup
    refine ⟨m₂, ?_, hinv', hobjs'.trans hobjs, hnext'.trans hnext⟩
    rw [List.foldlM_cons, hrun]
    exact hrun'

theorem InsRenamed.congr_objs {objs objs' : Nat → VarObj} {given' : List (Nat × Nat)}
    {ins ins' : Ins} (h : InsRenamed objs given D U loc ins ins') (hD : D.Within given)
    (hU : U.Within given) (hsub : ∀ e ∈ given, e ∈ given')
    (hobjs : ∀ n o, (n, o) ∈ given → (objs' o).vid = (objs o).vid) :
    InsRenamed objs' given' D U loc ins ins' := by
  have htouched {v : Vid} (hv : ¬v.Touched given') : ¬v.Touched given := by
    rintro ⟨k, o, hk, ho⟩
    exact hv ⟨k, o, hk, hsub _ ho⟩
  constructor
  · exact h.shaped
  · rw [h.lhs]
    refine congrArg (fun f => ins.getLhs.map f) (funext fun v => ?_)
    exact (Renaming.name_congr hD hobjs).symm
  · exact h.written
  · exact fun v hv huntouched => h.kept v hv (htouched huntouched)
  · rw [h.slots]
    exact List.map_congr_left fun v _ => (Renaming.name_congr hU hobjs).symm
  · intro v hv o ho
    obtain ⟨k, -, hk⟩ := hU v loc o ho
    rw [hobjs k o hk]
    exact h.reads v hv o ho
  · exact fun v hv huntouched => h.readsKept v hv (htouched huntouched)

theorem ChainImage.congr_objs {objs objs' : Nat → VarObj} {R : Renaming} {s s' : ChainTable}
    (h : ChainImage objs R s s') (hR : R.Within given)
    (hobjs : ∀ n o, (n, o) ∈ given → (objs' o).vid = (objs o).vid) :
    ChainImage objs' R s s' := by
  intro w i l
  rw [h]
  exact exists_congr fun v => by rw [Renaming.name_congr hR hobjs]

/-- The types of the objects do not matter. -/
theorem RenameInv.setType (h : RenameInv m m' given D U L nb) {type : String} :
    RenameInv m (m'.setType obj type) given D U L nb := by
  have hvid (o : Nat) : ((m'.setType obj type).objs o).vid = (m'.objs o).vid := by
    simp only [VarCode.setType]
    by_cases ho : o = obj
    · rw [ho, Function.update_self]
    · rw [Function.update_of_ne ho]
  have hobjs : ∀ n o, (n, o) ∈ given → ((m'.setType obj type).objs o).vid = (m'.objs o).vid :=
    fun _ o _ => hvid o
  exact
    { h with
      ids :=
        { ids := fun k o ho => by rw [hvid]; exact h.ids.ids k o ho
          inj := fun k o k' o' ho ho' heq =>
            h.ids.inj k o k' o' ho ho' (by rwa [hvid, hvid] at heq) }
      numbers := fun k o j ho hj => h.numbers k o j ho (by rwa [hvid] at hj)
      ins := fun i ins hins => by
        obtain ⟨ins', hins', hrest⟩ := h.ins i ins hins
        exact ⟨ins', hins', hrest.congr_objs h.withinD h.withinU (fun _ he => he) hobjs⟩
      du := h.du.congr_objs h.withinD hobjs
      ud := h.ud.congr_objs h.withinU hobjs
      incoming := fun k d o hd ho => by
        rw [hvid]
        exact h.incoming k d o hd ho }

/-- A version that holds the incoming value of its register. -/
def Version.isParam (version : Version) : Bool := version.defs.any (· < 0)

theorem VarCode.newObj_self (m : VarCode) (x : VarObj) : (m.newObj x).objs m.nextObj = x :=
  Function.update_self ..

theorem RenameInv.newVersion (h : RenameInv m m' given D U L nb) (hn : n < firstFree m.lvars)
    (orig : VarObj) {version : Version}
    (hfirst : version.isParam = true → (∀ o, (n, o) ∈ given → (m'.objs o).vid ≠ .reg n) ∧
      L n = none) :
    ∃ m₁ nb', VarSplit.newVersion m' nb n orig version = (m₁, nb') ∧
      RenameInv m m₁ ((n, m'.nextObj) :: given) D U
        (if version.isParam then Function.update L n (some m'.nextObj) else L) nb' ∧
      m₁.nextObj = m'.nextObj + 1 ∧ m₁.du = m'.du ∧
      (∀ k o, (k, o) ∈ given → (m₁.objs o).vid = (m'.objs o).vid) ∧
      (version.isParam = true → (m₁.objs m'.nextObj).vid = .reg n) ∧
      (version.isParam = false → (m₁.objs m'.nextObj).vid = .reg nb ∧ nb' = nb + 1) ∧ nb ≤ nb' := by
  have hbelow (objs : Nat → VarObj) (x : VarObj) :
      ∀ k o, (k, o) ∈ given → Function.update objs m'.nextObj x o = objs o := by
    intro k o ho
    exact Function.update_of_ne (Nat.ne_of_lt (h.below k o ho)) _ _
  have hparts {m₁ : VarCode} {x : VarObj} {nb' : Nat} {L' : Nat → Option Nat}
      (hobjs : m₁.objs = Function.update m'.objs m'.nextObj x) (hnext : m₁.nextObj = m'.nextObj + 1)
      (hins : m₁.locToIns = m'.locToIns) (hdu : m₁.du = m'.du) (hud : m₁.ud = m'.ud)
      (hid : x.vid = .reg n ∨ ∃ k, firstFree m.lvars ≤ k ∧ x.vid = .reg k)
      (hnew : ∀ k o, (k, o) ∈ given → (m'.objs o).vid ≠ x.vid)
      (hnumber : ∀ k, x.vid = .reg k → k < nb') (hnb : nb ≤ nb')
      (hlvars : ∀ k, k < firstFree m.lvars → m₁.lvars.lookup k = L' k)
      (hincoming : ∀ k d o, d < 0 → D (.reg k, d) = some o → L' k = L k) :
      RenameInv m m₁ ((n, m'.nextObj) :: given) D U L' nb' := by
    have hself : (m₁.objs m'.nextObj) = x := by rw [hobjs, Function.update_self]
    have hsame : ∀ k o, (k, o) ∈ given → (m₁.objs o).vid = (m'.objs o).vid := by
      intro k o ho
      rw [hobjs, hbelow _ _ k o ho]
    have hsub : ∀ e ∈ given, e ∈ (n, m'.nextObj) :: given := fun e he => List.mem_cons_of_mem _ he
    refine
      { ids := ⟨fun k o ho => ?_, fun k o k' o' ho ho' heq => ?_⟩
        below := fun k o ho => ?_
        numbers := fun k o j ho hj => ?_
        free := h.free.trans hnb
        withinD := fun v i o ho => ?_
        withinU := fun v i o ho => ?_
        ins := fun i ins hi => ?_
        du := hdu ▸ h.du.congr_objs h.withinD hsame
        ud := hud ▸ h.ud.congr_objs h.withinU hsame
        lvars := hlvars
        incoming := fun k d o hd ho => ?_ }
    · rcases List.mem_cons.mp ho with heq | ho
      · obtain ⟨rfl, rfl⟩ := Prod.mk.inj heq
        rw [hself]
        exact ⟨hn, hid⟩
      · rw [hsame k o ho]
        exact h.ids.ids k o ho
    · rcases List.mem_cons.mp ho with he | hold <;> rcases List.mem_cons.mp ho' with he' | hold'
      · obtain ⟨rfl, rfl⟩ := Prod.mk.inj he
        obtain ⟨rfl, rfl⟩ := Prod.mk.inj he'
        exact ⟨rfl, rfl⟩
      · obtain ⟨rfl, rfl⟩ := Prod.mk.inj he
        rw [hself, hsame k' o' hold'] at heq
        exact absurd heq.symm (hnew k' o' hold')
      · obtain ⟨rfl, rfl⟩ := Prod.mk.inj he'
        rw [hself, hsame k o hold] at heq
        exact absurd heq (hnew k o hold)
      · rw [hsame k o hold, hsame k' o' hold'] at heq
        exact h.ids.inj k o k' o' hold hold' heq
    · rw [hnext]
      rcases List.mem_cons.mp ho with heq | ho
      · rw [(Prod.mk.inj heq).2]
        exact Nat.lt_succ_self _
      · exact (h.below k o ho).trans (Nat.lt_succ_self _)
    · rcases List.mem_cons.mp ho with heq | ho
      · rw [(Prod.mk.inj heq).2, hself] at hj
        exact hnumber j hj
      · rw [hsame k o ho] at hj
        exact (h.numbers k o j ho hj).trans_le hnb
    · obtain ⟨k, hk, hmem⟩ := h.withinD v i o ho
      exact ⟨k, hk, hsub _ hmem⟩
    · obtain ⟨k, hk, hmem⟩ := h.withinU v i o ho
      exact ⟨k, hk, hsub _ hmem⟩
    · obtain ⟨ins', hi', hrest⟩ := h.ins i ins hi
      exact ⟨ins', hins ▸ hi', hrest.congr_objs h.withinD h.withinU hsub hsame⟩
    · obtain ⟨hL, hid⟩ := h.incoming k d o hd ho
      obtain ⟨j, -, hmem⟩ := h.withinD _ _ _ ho
      exact ⟨(hincoming k d o hd ho).trans hL, by rw [hsame j o hmem, hid]⟩
  have hreg {k o : Nat} (ho : (k, o) ∈ given) {j : Nat} (hj : (m'.objs o).vid = .reg j) :
      j = k ∨ firstFree m.lvars ≤ j := by
    rcases (h.ids.ids k o ho).2 with hid | ⟨i, hi, hid⟩
    · exact .inl (Vid.reg.inj (hj.symm.trans hid))
    · exact .inr (Vid.reg.inj (hj.symm.trans hid) ▸ hi)
  cases hparam : version.isParam with
  | true =>
    obtain ⟨hfirst, hnone⟩ := hfirst hparam
    have hnew : ∀ k o, (k, o) ∈ given → (m'.objs o).vid ≠ .reg n := by
      intro k o ho heq
      rcases hreg ho heq with rfl | hle
      · exact hfirst o ho heq
      · omega
    let param : VarObj :=
      { vid := .reg n, kind := if orig.kind = .thisParam then .thisParam else .param,
        type := orig.type }
    have hrun : VarSplit.newVersion m' nb n orig version =
        ({ m'.newObj param with lvars := m'.lvars.insert n m'.nextObj }, nb) := by
      rw [VarSplit.newVersion, ← Version.isParam, if_pos hparam]
      rfl
    refine ⟨_, _, hrun, ?_, rfl, rfl, ?_, ?_, ?_, le_rfl⟩
    · refine hparts rfl rfl rfl rfl rfl (.inl rfl) hnew ?_ le_rfl ?_ ?_
      · intro k hk
        obtain rfl := Vid.reg.inj hk
        exact hn.trans_le h.free
      · intro k hk
        rw [if_pos rfl]
        by_cases hkn : k = n
        · subst hkn
          rw [Function.update_self]
          exact AList.lookup_insert _
        · rw [Function.update_of_ne hkn, ← h.lvars k hk]
          exact AList.lookup_insert_ne hkn
      · intro k d o hd ho
        rw [if_pos rfl]
        obtain ⟨hL, -⟩ := h.incoming k d o hd ho
        by_cases hkn : k = n
        · rw [hkn, hnone] at hL
          cases hL
        · rw [Function.update_of_ne hkn]
    · exact fun k o ho => congrArg VarObj.vid (hbelow _ _ k o ho)
    · exact fun _ => congrArg VarObj.vid (m'.newObj_self param)
    · exact fun hfalse => absurd hfalse (by decide)
  | false =>
    have hnew : ∀ k o, (k, o) ∈ given → (m'.objs o).vid ≠ .reg nb := by
      intro k o ho heq
      exact absurd (h.numbers k o nb ho heq) (Nat.lt_irrefl nb)
    have hrun : VarSplit.newVersion m' nb n orig version =
        ({ m'.newObj { vid := .reg nb, type := orig.type } with
          lvars := m'.lvars.insert nb m'.nextObj }, nb + 1) := by
      rw [VarSplit.newVersion, ← Version.isParam, if_neg (by simp [hparam])]
      rfl
    refine ⟨_, _, hrun, ?_, rfl, rfl, ?_, ?_, ?_, Nat.le_succ nb⟩
    · refine hparts rfl rfl rfl rfl rfl (.inr ⟨nb, h.free, rfl⟩) hnew ?_ (Nat.le_succ nb) ?_ ?_
      · intro k hk
        obtain rfl := Vid.reg.inj hk
        exact Nat.lt_succ_self nb
      · intro k hk
        rw [if_neg (by decide), ← h.lvars k hk]
        have hfree := h.free
        exact AList.lookup_insert_ne (by omega)
      · exact fun _ _ _ _ _ => by rw [if_neg (by decide)]
    · exact fun k o ho => congrArg VarObj.vid (hbelow _ _ k o ho)
    · exact fun htrue => absurd htrue (by decide)
    · exact fun _ =>
        ⟨congrArg VarObj.vid (m'.newObj_self { vid := .reg nb, type := orig.type }), rfl⟩

/-- What the renaming of a version needs of it. -/
structure Piece (m : VarCode) (n : Nat) (version : Version) : Prop where
  defs : ∀ d ∈ version.defs, ∃ l, m.du.lookup (.reg n, d) = some l
  uses : ∀ u ∈ version.uses, ∃ l, m.ud.lookup (.reg n, u) = some l
  nodupDefs : version.defs.Nodup
  nodupUses : version.uses.Nodup

theorem RenameInv.renameVersion (h : RenameInv m m' given D U L nb) (hm : m.Wired)
    (hn : n < firstFree m.lvars) (orig : VarObj) {version : Version} (hpiece : Piece m n version)
    (hfirst : version.isParam = true → (∀ o, (n, o) ∈ given → (m'.objs o).vid ≠ .reg n) ∧
      L n = none)
    (hD : ∀ d ∈ version.defs, D (.reg n, d) = none)
    (hU : ∀ u ∈ version.uses, U (.reg n, u) = none) :
    ∃ m'' nb', VarSplit.renameVersion n orig (m', nb) version = some (m'', nb') ∧
      RenameInv m m'' ((n, m'.nextObj) :: given) (D.addAll (.reg n) m'.nextObj version.defs)
        (U.addAll (.reg n) m'.nextObj version.uses)
        (if version.isParam then Function.update L n (some m'.nextObj) else L) nb' ∧
      m''.nextObj = m'.nextObj + 1 ∧
      (∀ k o, (k, o) ∈ given → (m''.objs o).vid = (m'.objs o).vid) ∧
      (version.isParam = false → (m''.objs m'.nextObj).vid = .reg nb) := by
  obtain ⟨m₁, nb', hnew, hinv, hnext, -, hsame, hparam, hlocal, -⟩ :=
    h.newVersion hn orig hfirst
  have hobj : (n, m'.nextObj) ∈ (n, m'.nextObj) :: given := List.mem_cons_self
  obtain ⟨m₂, t, hdefs, hinv₂, hobjs₂, hnext₂⟩ := hinv.renameDefs hm hobj (t := "") hpiece.defs hD
    hpiece.nodupDefs fun d hd hneg => by
      have hisParam : version.isParam = true :=
        List.any_eq_true.mpr ⟨d, hd, decide_eq_true hneg⟩
      refine ⟨hparam hisParam, ?_⟩
      rw [if_pos hisParam, Function.update_self]
  have hvid₃ (o : Nat) :
      ((typeVersion m₂ m'.nextObj version t).objs o).vid = (m₁.objs o).vid := by
    rw [← hobjs₂]
    unfold typeVersion
    split
    · simp only [VarCode.setType]
      by_cases ho : o = m'.nextObj
      · rw [ho, Function.update_self]
      · rw [Function.update_of_ne ho]
    · rfl
  have hnext₃ : (typeVersion m₂ m'.nextObj version t).nextObj = m₂.nextObj := by
    unfold typeVersion
    split <;> rfl
  have hinv₃ : RenameInv m (typeVersion m₂ m'.nextObj version t) ((n, m'.nextObj) :: given)
      (D.addAll (.reg n) m'.nextObj version.defs) U
      (if version.isParam then Function.update L n (some m'.nextObj) else L) nb' := by
    unfold typeVersion
    split
    · exact hinv₂.setType
    · exact hinv₂
  obtain ⟨m₄, huses, hinv₄, hobjs₄, hnext₄⟩ :=
    hinv₃.renameUses hm hobj hpiece.uses hU hpiece.nodupUses
  refine ⟨m₄, nb', ?_, hinv₄, ?_, ?_, ?_⟩
  · simp only [VarSplit.renameVersion, hnew, hdefs, huses, Option.bind_eq_bind, Option.bind_some]
    rfl
  · rw [hnext₄, hnext₃, hnext₂, hnext]
  · intro k o ho
    rw [hobjs₄, hvid₃, hsame k o ho]
  · intro hfalse
    rw [hobjs₄, hvid₃]
    exact (hlocal hfalse).1

/-- A definition and a use of a register have one object exactly in one version. -/
structure Tracks (D U : Renaming) (n : Nat) (versions : List Version) : Prop where
  given : ∀ v ∈ versions, ∃ o, (∀ d ∈ v.defs, D (.reg n, d) = some o) ∧
    ∀ u ∈ v.uses, U (.reg n, u) = some o
  defs : ∀ d o, D (.reg n, d) = some o → ∃ v ∈ versions, d ∈ v.defs ∧
    (∀ d', D (.reg n, d') = some o → d' ∈ v.defs) ∧ ∀ u, U (.reg n, u) = some o → u ∈ v.uses
  uses : ∀ u o, U (.reg n, u) = some o → ∃ v ∈ versions, u ∈ v.uses

/-- What the renaming of some versions of a register leaves. -/
structure Progress (m' : VarCode) (given : List (Nat × Nat)) (D U : Renaming)
    (L : Nat → Option Nat) (n : Nat) (done : List Version) : Prop where
  tracks : Tracks D U n done
  param : (∀ v ∈ done, v.isParam = false) →
    (∀ o, (n, o) ∈ given → (m'.objs o).vid ≠ .reg n) ∧ L n = none

/-- Nothing of the other registers has changed. -/
structure Beside (n : Nat) (given given' : List (Nat × Nat)) (D U D' U' : Renaming)
    (L L' : Nat → Option Nat) : Prop where
  defs : ∀ v i, v ≠ .reg n → D' (v, i) = D (v, i)
  uses : ∀ v i, v ≠ .reg n → U' (v, i) = U (v, i)
  lvars : ∀ k, k ≠ n → L' k = L k
  given : ∀ k o, (k, o) ∈ given' → k ≠ n → (k, o) ∈ given

/-- Two versions have no definition and no use in common. -/
def Version.Apart (a b : Version) : Prop :=
  (∀ d ∈ a.defs, d ∉ b.defs) ∧ (∀ u ∈ a.uses, u ∉ b.uses) ∧ (a.isParam = true → b.isParam = false)

theorem Tracks.add {done : List Version} {version : Version} (h : Tracks D U n done)
    (hfreshD : ∀ d, D (.reg n, d) ≠ some obj) (hfreshU : ∀ u, U (.reg n, u) ≠ some obj)
    (hapart : ∀ v ∈ done, v.Apart version) :
    Tracks (D.addAll (.reg n) obj version.defs) (U.addAll (.reg n) obj version.uses) n
      (done ++ [version]) := by
  have hdefs {d : Int} {o : Nat} (hd : D.addAll (.reg n) obj version.defs (.reg n, d) = some o) :
      d ∈ version.defs ∧ o = obj ∨ d ∉ version.defs ∧ D (.reg n, d) = some o := by
    by_cases hmem : d ∈ version.defs
    · rw [Renaming.addAll_of_mem hmem] at hd
      exact .inl ⟨hmem, (Option.some.inj hd).symm⟩
    · rw [Renaming.addAll_of_not_mem hmem] at hd
      exact .inr ⟨hmem, hd⟩
  have huses {u : Int} {o : Nat} (hu : U.addAll (.reg n) obj version.uses (.reg n, u) = some o) :
      u ∈ version.uses ∧ o = obj ∨ u ∉ version.uses ∧ U (.reg n, u) = some o := by
    by_cases hmem : u ∈ version.uses
    · rw [Renaming.addAll_of_mem hmem] at hu
      exact .inl ⟨hmem, (Option.some.inj hu).symm⟩
    · rw [Renaming.addAll_of_not_mem hmem] at hu
      exact .inr ⟨hmem, hu⟩
  constructor
  · intro v hv
    rcases List.mem_append.mp hv with hv | hv
    · obtain ⟨o, hd, hu⟩ := h.given v hv
      refine ⟨o, fun d hmem => ?_, fun u hmem => ?_⟩
      · rw [Renaming.addAll_of_not_mem ((hapart v hv).1 d hmem)]
        exact hd d hmem
      · rw [Renaming.addAll_of_not_mem ((hapart v hv).2.1 u hmem)]
        exact hu u hmem
    · obtain rfl := List.mem_singleton.mp hv
      exact ⟨obj, fun d hmem => Renaming.addAll_of_mem hmem,
        fun u hmem => Renaming.addAll_of_mem hmem⟩
  · intro d o hd
    rcases hdefs hd with ⟨hmem, rfl⟩ | ⟨-, hd⟩
    · refine ⟨version, by simp, hmem, fun d' hd' => ?_, fun u hu => ?_⟩
      · exact (hdefs hd').elim And.left fun hold => absurd hold.2 (hfreshD d')
      · exact (huses hu).elim And.left fun hold => absurd hold.2 (hfreshU u)
    · obtain ⟨v, hv, hmem, hsameD, hsameU⟩ := h.defs d o hd
      have hne : o ≠ obj := fun heq => hfreshD d (heq ▸ hd)
      refine ⟨v, List.mem_append_left _ hv, hmem, fun d' hd' => ?_, fun u hu => ?_⟩
      · exact (hdefs hd').elim (fun hnew => absurd hnew.2 hne) fun hold => hsameD d' hold.2
      · exact (huses hu).elim (fun hnew => absurd hnew.2 hne) fun hold => hsameU u hold.2
  · intro u o hu
    rcases huses hu with ⟨hmem, -⟩ | ⟨-, hu⟩
    · exact ⟨version, by simp, hmem⟩
    · obtain ⟨v, hv, hmem⟩ := h.uses u o hu
      exact ⟨v, List.mem_append_left _ hv, hmem⟩

theorem RenameInv.renameVersions (h : RenameInv m m' given D U L nb) (hm : m.Wired)
    (hn : n < firstFree m.lvars) (orig : VarObj) {done versions : List Version}
    (hprogress : Progress m' given D U L n done)
    (hpieces : ∀ v ∈ versions, Piece m n v)
    (hapart : (done ++ versions).Pairwise Version.Apart) :
    ∃ m'' nb' given' D' U' L', versions.foldlM (VarSplit.renameVersion n orig) (m', nb) =
        some (m'', nb') ∧
      RenameInv m m'' given' D' U' L' nb' ∧ Progress m'' given' D' U' L' n (done ++ versions) ∧
      Beside n given given' D U D' U' L L' := by
  induction versions generalizing m' given D U L nb done with
  | nil =>
    refine ⟨m', nb, given, D, U, L, rfl, h, by rwa [List.append_nil], ?_⟩
    exact ⟨fun _ _ _ => rfl, fun _ _ _ => rfl, fun _ _ => rfl, fun _ _ ho _ => ho⟩
  | cons version versions ih =>
    have hbefore : ∀ v ∈ done, v.Apart version := fun v hv =>
      (List.pairwise_append.mp hapart).2.2 v hv version List.mem_cons_self
    have hfreshD (d : Int) : D (.reg n, d) ≠ some m'.nextObj := by
      intro hd
      obtain ⟨k, -, hk⟩ := h.withinD _ _ _ hd
      exact Nat.lt_irrefl _ (h.below k _ hk)
    have hfreshU (u : Int) : U (.reg n, u) ≠ some m'.nextObj := by
      intro hu
      obtain ⟨k, -, hk⟩ := h.withinU _ _ _ hu
      exact Nat.lt_irrefl _ (h.below k _ hk)
    have hfirst : version.isParam = true → (∀ o, (n, o) ∈ given → (m'.objs o).vid ≠ .reg n) ∧
        L n = none := fun hparam =>
      hprogress.param fun v hv => by
        by_contra hne
        have hfalse := (hbefore v hv).2.2 (by simpa using hne)
        rw [hparam] at hfalse
        cases hfalse
    have hD : ∀ d ∈ version.defs, D (.reg n, d) = none := by
      intro d hd
      by_contra hne
      obtain ⟨o, ho⟩ := Option.ne_none_iff_exists'.mp hne
      obtain ⟨v, hv, hmem, -⟩ := hprogress.tracks.defs d o ho
      exact (hbefore v hv).1 d hmem hd
    have hU : ∀ u ∈ version.uses, U (.reg n, u) = none := by
      intro u hu
      by_contra hne
      obtain ⟨o, ho⟩ := Option.ne_none_iff_exists'.mp hne
      obtain ⟨v, hv, hmem⟩ := hprogress.tracks.uses u o ho
      exact (hbefore v hv).2.1 u hmem hu
    obtain ⟨m₁, nb₁, hrun, hinv, -, hsame, hlocal⟩ := h.renameVersion hm hn orig
      (hpieces version List.mem_cons_self) hfirst hD hU
    have hprogress₁ : Progress m₁ ((n, m'.nextObj) :: given)
        (D.addAll (.reg n) m'.nextObj version.defs) (U.addAll (.reg n) m'.nextObj version.uses)
        (if version.isParam then Function.update L n (some m'.nextObj) else L) n
        (done ++ [version]) := by
      refine ⟨hprogress.tracks.add hfreshD hfreshU hbefore, fun hnone => ?_⟩
      have hfalse : version.isParam = false := hnone version (by simp)
      obtain ⟨hids, hL⟩ := hprogress.param fun v hv => hnone v (List.mem_append_left _ hv)
      refine ⟨fun o ho => ?_, by rw [hfalse]; exact hL⟩
      rcases List.mem_cons.mp ho with heq | ho
      · rw [(Prod.mk.inj heq).2, hlocal hfalse]
        intro hnb
        have := h.free
        have := Vid.reg.inj hnb
        omega
      · rw [hsame n o ho]
        exact hids o ho
    obtain ⟨m₂, nb₂, given₂, D₂, U₂, L₂, hrun₂, hinv₂, hprogress₂, hbeside⟩ := ih hinv hprogress₁
      (fun v hv => hpieces v (List.mem_cons_of_mem _ hv)) (by simpa using hapart)
    refine ⟨m₂, nb₂, given₂, D₂, U₂, L₂, ?_, hinv₂, by simpa using hprogress₂, ?_⟩
    · rw [List.foldlM_cons, hrun]
      exact hrun₂
    · constructor
      · exact fun v i hv => (hbeside.defs v i hv).trans (Renaming.addAll_of_ne hv)
      · exact fun v i hv => (hbeside.uses v i hv).trans (Renaming.addAll_of_ne hv)
      · intro k hk
        rw [hbeside.lvars k hk]
        split
        · exact Function.update_of_ne hk _ _
        · rfl
      · intro k o ho hk
        refine (List.mem_cons.mp (hbeside.given k o ho hk)).resolve_left fun heq => ?_
        exact hk (Prod.mk.inj heq).1

/-- What the renaming needs of the versions of the registers. -/
structure Pieces (m : VarCode) (groups : VariableGroups) : Prop where
  nodup : (groups.map Prod.fst).Nodup
  registers : ∀ entry ∈ groups, ∃ n, entry.1 = .reg n ∧ n ∈ m.lvars
  pieces : ∀ n versions, (Vid.reg n, versions) ∈ groups → ∀ v ∈ versions, Piece m n v
  apart : ∀ entry ∈ groups, entry.2.Pairwise Version.Apart

/-- The registers with several versions have an object for each; the others are as before. -/
structure Renamed (m m' : VarCode) (given : List (Nat × Nat)) (D U : Renaming)
    (L : Nat → Option Nat) (nb : Nat) (done : VariableGroups) : Prop where
  inv : RenameInv m m' given D U L nb
  split : ∀ n versions, (Vid.reg n, versions) ∈ done → versions.length ≠ 1 → Tracks D U n versions
  touched : ∀ n o, (n, o) ∈ given → ∃ versions, (Vid.reg n, versions) ∈ done ∧ versions.length ≠ 1
  lvars : ∀ n, (∀ versions, (Vid.reg n, versions) ∈ done → versions.length = 1) →
    L n = m.lvars.lookup n

theorem Tracks.beside {k : Nat} {given' : List (Nat × Nat)} {D' U' : Renaming}
    {L' : Nat → Option Nat} {versions : List Version} (h : Tracks D U k versions)
    (hbeside : Beside n given given' D U D' U' L L') (hk : k ≠ n) : Tracks D' U' k versions := by
  have hne : Vid.reg k ≠ .reg n := fun heq => hk (Vid.reg.inj heq)
  have hD (d : Int) : D' (.reg k, d) = D (.reg k, d) := hbeside.defs _ d hne
  have hU (u : Int) : U' (.reg k, u) = U (.reg k, u) := hbeside.uses _ u hne
  constructor
  · simp only [hD, hU]
    exact h.given
  · simp only [hD, hU]
    exact h.defs
  · simp only [hU]
    exact h.uses

/-- The register is taken from the table before its versions are put there. -/
theorem RenameInv.erase (h : RenameInv m m' given D U L nb) (hfree : ∀ o, (n, o) ∉ given) :
    RenameInv m { m' with lvars := m'.lvars.erase n } given D U (Function.update L n none) nb := by
  refine { h with
    lvars := fun k hk => ?_
    incoming := fun k d o hd ho => ?_ }
  · by_cases hkn : k = n
    · subst hkn
      rw [Function.update_self]
      exact AList.lookup_erase _ _
    · rw [Function.update_of_ne hkn, ← h.lvars k hk]
      exact AList.lookup_erase_ne hkn
  · have hkn : k ≠ n := by
      rintro rfl
      obtain ⟨j, hj, hmem⟩ := h.withinD _ _ _ ho
      obtain rfl := Vid.reg.inj hj
      exact hfree o hmem
    rw [Function.update_of_ne hkn]
    exact h.incoming k d o hd ho

theorem Renamed.renameVariable {done : VariableGroups} {versions : List Version} {var : Vid}
    (h : Renamed m m' given D U L nb done) (hm : m.Wired)
    (hpieces : Pieces m (done ++ [(var, versions)])) :
    ∃ m'' nb' given' D' U' L', VarSplit.renameVariable (m', nb) (var, versions) = some (m'', nb') ∧
      Renamed m m'' given' D' U' L' nb' (done ++ [(var, versions)]) := by
  obtain ⟨n, hvar, hn⟩ := hpieces.registers (var, versions) (by simp)
  change var = .reg n at hvar
  subst hvar
  have hnew : ∀ vs, (Vid.reg n, vs) ∉ done := by
    intro vs hmem
    have hnodup := hpieces.nodup
    rw [List.map_append, List.nodup_append] at hnodup
    exact hnodup.2.2 _ (List.mem_map_of_mem hmem) (.reg n) (by simp) rfl
  have hmem {k : Nat} {vs : List Version} :
      (Vid.reg k, vs) ∈ done ++ [(Vid.reg n, versions)] ↔
        (Vid.reg k, vs) ∈ done ∨ k = n ∧ vs = versions := by
    simp
  by_cases hlength : versions.length = 1
  · refine ⟨m', nb, given, D, U, L, ?_, h.inv, ?_, ?_, ?_⟩
    · simp only [VarSplit.renameVariable, if_pos hlength]
    · intro k vs hk hne
      rcases hmem.mp hk with hk | ⟨-, rfl⟩
      · exact h.split k vs hk hne
      · exact absurd hlength hne
    · intro k o ho
      obtain ⟨vs, hk, hne⟩ := h.touched k o ho
      exact ⟨vs, hmem.mpr (.inl hk), hne⟩
    · exact fun k hk => h.lvars k fun vs hvs => hk vs (hmem.mpr (.inl hvs))
  · have hfree : ∀ o, (n, o) ∉ given := by
      intro o ho
      obtain ⟨vs, hvs, -⟩ := h.touched n o ho
      exact hnew vs hvs
    have hold : n < firstFree m.lvars := lt_firstFree hn
    obtain ⟨obj, hobj⟩ := Option.isSome_iff_exists.mp (AList.lookup_isSome.mpr hn)
    have hlookup : m'.lvars.lookup n = some obj := by
      rw [h.inv.lvars n hold, h.lvars n fun vs hvs => absurd hvs (hnew vs), hobj]
    have hnoneD (d : Int) (o : Nat) : D (.reg n, d) ≠ some o := by
      intro ho
      obtain ⟨j, hj, hmem⟩ := h.inv.withinD _ _ _ ho
      obtain rfl := Vid.reg.inj hj
      exact hfree o hmem
    have hnoneU (u : Int) (o : Nat) : U (.reg n, u) ≠ some o := by
      intro ho
      obtain ⟨j, hj, hmem⟩ := h.inv.withinU _ _ _ ho
      obtain rfl := Vid.reg.inj hj
      exact hfree o hmem
    have hstart : Progress { m' with lvars := m'.lvars.erase n } given D U
        (Function.update L n none) n [] := by
      refine ⟨⟨fun v hv => absurd hv List.not_mem_nil, fun d o ho => absurd ho (hnoneD d o),
        fun u o ho => absurd ho (hnoneU u o)⟩, fun _ => ⟨fun o ho => absurd ho (hfree o), ?_⟩⟩
      exact Function.update_self ..
    obtain ⟨m₁, nb₁, given₁, D₁, U₁, L₁, hrun, hinv, hprogress, hbeside⟩ :=
      (h.inv.erase hfree).renameVersions hm hold (m'.objs obj) hstart
        (hpieces.pieces n versions (by simp))
        (by simpa using hpieces.apart (Vid.reg n, versions) (by simp))
    refine ⟨m₁, nb₁, given₁, D₁, U₁, L₁, ?_, hinv, ?_, ?_, ?_⟩
    · simp only [VarSplit.renameVariable, if_neg hlength, hlookup]
      exact hrun
    · intro k vs hk hne
      rcases hmem.mp hk with hk | ⟨rfl, rfl⟩
      · have hkn : k ≠ n := fun heq => hnew vs (heq ▸ hk)
        exact (h.split k vs hk hne).beside hbeside hkn
      · simpa using hprogress.tracks
    · intro k o ho
      by_cases hkn : k = n
      · exact ⟨versions, hmem.mpr (.inr ⟨hkn, rfl⟩), hlength⟩
      · obtain ⟨vs, hk, hne⟩ := h.touched k o (hbeside.given k o ho hkn)
        exact ⟨vs, hmem.mpr (.inl hk), hne⟩
    · intro k hk
      have hkn : k ≠ n := by
        rintro rfl
        exact hlength (hk versions (hmem.mpr (.inr ⟨rfl, rfl⟩)))
      rw [hbeside.lvars k hkn, Function.update_of_ne hkn]
      exact h.lvars k fun vs hvs => hk vs (hmem.mpr (.inl hvs))

theorem Renamed.renameVariables {done groups : VariableGroups}
    (h : Renamed m m' given D U L nb done) (hm : m.Wired) (hpieces : Pieces m (done ++ groups)) :
    ∃ m'' nb' given' D' U' L', groups.foldlM VarSplit.renameVariable (m', nb) = some (m'', nb') ∧
      Renamed m m'' given' D' U' L' nb' (done ++ groups) := by
  induction groups generalizing m' given D U L nb done with
  | nil => exact ⟨m', nb, given, D, U, L, rfl, by rwa [List.append_nil]⟩
  | cons entry groups ih =>
    have hsplit : done ++ entry :: groups = done ++ [entry] ++ groups := by simp
    have hprefix : Pieces m (done ++ [entry]) := by
      rw [hsplit] at hpieces
      constructor
      · have hnodup := hpieces.nodup
        rw [List.map_append, List.nodup_append] at hnodup
        exact hnodup.1
      · exact fun e he => hpieces.registers e (List.mem_append_left _ he)
      · exact fun k vs hk => hpieces.pieces k vs (List.mem_append_left _ hk)
      · exact fun e he => hpieces.apart e (List.mem_append_left _ he)
    obtain ⟨m₁, nb₁, given₁, D₁, U₁, L₁, hrun, hrenamed⟩ := h.renameVariable hm hprefix
    obtain ⟨m₂, nb₂, given₂, D₂, U₂, L₂, hrun₂, hrenamed₂⟩ := ih hrenamed (hsplit ▸ hpieces)
    refine ⟨m₂, nb₂, given₂, D₂, U₂, L₂, ?_, hsplit ▸ hrenamed₂⟩
    rw [List.foldlM_cons, hrun]
    exact hrun₂

end Dexllm.Dad.VarSplit
