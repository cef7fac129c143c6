import Dexllm.Dad.SplitVariables

/-!
What the renaming of a definition or a use leaves of an instruction and of the
chains. `D` and `U` give the object of each definition and use renamed so far.
-/

namespace Dexllm.Dad.VarSplit

theorem ChainTable.lookup_rekey {t : ChainTable} {old new key : Vid × Int} {l : List Int}
    (h : t.lookup old = some l) : (t.rekey old new).lookup key =
      if key = new then some l else if key = old then none else t.lookup key := by
  unfold rekey
  rw [h]
  rcases eq_or_ne key new with rfl | hnew
  · rw [if_pos rfl]
    exact AList.lookup_insert _
  · rw [if_neg hnew]
    change (AList.insert new l (t.erase old)).lookup key = _
    rw [AList.lookup_insert_ne hnew]
    rcases eq_or_ne key old with rfl | hold
    · rw [if_pos rfl, AList.lookup_erase]
    · rw [if_neg hold, AList.lookup_erase_ne hold]

/-- The objects given to the definitions, or to the uses, renamed so far. -/
abbrev Renaming := Vid × Int → Option Nat

/-- The id a variable has at a location. -/
def Renaming.name (R : Renaming) (objs : Nat → VarObj) (loc : Int) (v : Vid) : Vid :=
  match R (v, loc) with
  | none => v
  | some obj => (objs obj).vid

/-- The operands a form can have with its `replace_var`. -/
def FlatForm.Shaped (e : FlatForm) : Prop :=
  (e.cls.fixed = true → e.slots = []) ∧ (e.cls.single = true → e.slots.length ≤ 1)

def Ins.Shaped : Ins → Prop
  | .assign _ _ (.operand _) => True
  | .assign _ _ (.form e) => e.Shaped
  | .move _ _ _ => True
  | .moveException _ _ => True
  | .other e => e.Shaped

section Ins

variable {objs : Nat → VarObj} {D U : Renaming} {loc : Int} {ins ins' : Ins} {v w new : Vid}
  {obj : Nat} {e : FlatForm}

namespace FlatForm

theorem replaceVar_spec (new : Vid) (obj : Nat) (h : e.Shaped) (hold : v ∈ e.slots) :
    ∃ e', e.replaceVar v new obj = some e' ∧ e'.Shaped ∧
      e'.slots = e.slots.map (fun w => if w = v then new else w) ∧
      e'.varMap.lookup new = some (.variable obj) ∧
      ∀ w, w ≠ v → w ≠ new → e'.varMap.lookup w = e.varMap.lookup w := by
  have hfixed : e.cls.fixed = false := by
    cases hf : e.cls.fixed with
    | false => rfl
    | true =>
      rw [h.1 hf] at hold
      exact absurd hold List.not_mem_nil
  have hslots : (if e.cls.single then [new] else e.slots.map fun w => if w = v then new else w) =
      e.slots.map fun w => if w = v then new else w := by
    split
    next hsingle =>
      have hlen := h.2 hsingle
      obtain ⟨w, hw⟩ : ∃ w, e.slots = [w] := by
        rw [← List.length_eq_one_iff]
        have := List.length_pos_of_mem hold
        omega
      rw [hw] at hold ⊢
      rw [← List.mem_singleton.mp hold]
      simp
    · rfl
  refine ⟨_, if_neg (by rw [hfixed]; simp), ?_, hslots, AList.lookup_insert _, ?_⟩
  · refine ⟨fun hf => absurd hf (by simp [hfixed]), fun hs => ?_⟩
    rw [hslots, List.length_map]
    exact h.2 hs
  · intro w hv hnew
    change (AList.insert new _ (e.varMap.erase v)).lookup w = _
    rw [AList.lookup_insert_ne hnew, AList.lookup_erase_ne hv]

end FlatForm

namespace Ins

/-- A replaced definition has the new variable, and the operands stay. -/
theorem replaceLhs_spec (new : Vid) (obj : Nat) (hlhs : ins.getLhs = some v)
    (hshaped : ins.Shaped) :
    ∃ ins', ins.replaceLhs new obj = some ins' ∧ ins'.Shaped ∧ ins'.getLhs = some new ∧
      ins'.written = some (.variable obj) ∧ ins'.slots = ins.slots ∧
      ∀ w ∈ ins.slots, ins'.readAt w = ins.readAt w ∨
        w = new ∧ ins'.readAt w = some (.variable obj) := by
  cases ins with
  | assign lhs varMap rhs =>
    refine ⟨_, rfl, ?_, rfl, AList.lookup_insert _, ?_, ?_⟩
    · cases rhs with
      | operand x => trivial
      | form e => exact hshaped
    · cases rhs <;> rfl
    · intro w _
      cases rhs <;> exact .inl rfl
  | move lhs rhs varMap =>
    refine ⟨_, rfl, trivial, rfl, AList.lookup_insert _, rfl, ?_⟩
    intro w hw
    obtain rfl := List.mem_singleton.mp hw
    rcases eq_or_ne w new with rfl | hnew
    · exact .inr ⟨rfl, AList.lookup_insert _⟩
    · left
      change (AList.insert new _ (if lhs ≠ w then varMap.erase lhs else varMap)).lookup w =
        varMap.lookup w
      rw [AList.lookup_insert_ne hnew]
      split
      next hne => exact AList.lookup_erase_ne (Ne.symm hne)
      · rfl
  | moveException ref varMap =>
    exact ⟨_, rfl, trivial, rfl, AList.lookup_insert _, rfl, fun _ hw => absurd hw List.not_mem_nil⟩
  | other e => cases hlhs

/-- A replaced operand is the new variable, the other operands and the definition
stay. -/
theorem replaceVar_spec (new : Vid) (obj : Nat) (hslot : v ∈ ins.slots) (hshaped : ins.Shaped) :
    ∃ ins', ins.replaceVar v new obj = some ins' ∧ ins'.Shaped ∧ ins'.getLhs = ins.getLhs ∧
      (ins.getLhs ≠ some new → ins'.written = ins.written) ∧
      (ins.written = some (.variable obj) → ins'.written = some (.variable obj)) ∧
      ins'.slots = ins.slots.map (fun w => if w = v then new else w) ∧
      ins'.readAt new = some (.variable obj) ∧
      ∀ w ∈ ins.slots, w ≠ v → w ≠ new → ins'.readAt w = ins.readAt w := by
  cases ins with
  | assign lhs varMap rhs =>
    cases rhs with
    | operand x => exact absurd hslot List.not_mem_nil
    | form e =>
      obtain ⟨e', he', hs', hslots, hnew, hread⟩ :=
        e.replaceVar_spec new obj hshaped hslot
      refine ⟨.assign lhs varMap (.form e'), ?_, hs', rfl, fun _ => rfl, id, hslots, hnew,
        fun w _ => hread w⟩
      simp [replaceVar, Rhs.replaceVar, he']
  | move lhs rhs varMap =>
    obtain rfl := List.mem_singleton.mp hslot
    have hlookup : ∀ w, w ≠ new → (w = lhs ∨ w ≠ v) →
        (AList.insert new (Operand.variable obj)
          (if lhs ≠ v then varMap.erase v else varMap : VarMap)).lookup w =
            varMap.lookup w := by
      intro w hnew hw
      rw [AList.lookup_insert_ne hnew]
      split
      next hne => exact AList.lookup_erase_ne (hw.elim (fun h => h ▸ hne) id)
      · rfl
    refine ⟨_, rfl, trivial, rfl, ?_, ?_, ?_, AList.lookup_insert _, fun w _ hv hnew =>
      hlookup w hnew (.inr hv)⟩
    · intro hne
      exact hlookup lhs (fun h => hne (congrArg some h)) (.inl rfl)
    · intro h
      change (AList.insert new _ _).lookup lhs = _
      rcases eq_or_ne lhs new with rfl | hne
      · exact AList.lookup_insert _
      · exact (hlookup lhs hne (.inl rfl)).trans h
    · simp [slots]
  | moveException ref varMap => exact absurd hslot List.not_mem_nil
  | other e =>
    obtain ⟨e', he', hs', hslots, hnew, hread⟩ :=
      e.replaceVar_spec new obj hshaped hslot
    refine ⟨.other e', ?_, hs', rfl, fun _ => rfl, id, hslots, hnew, fun w _ => hread w⟩
    simp [replaceVar, he']

end Ins

end Ins

/-- The objects given to the registers so far: each has the id of its register, as
a parameter keeps it, or a new one, and no two have the same. -/
structure Given (free : Nat) (objs : Nat → VarObj) (given : List (Nat × Nat)) : Prop where
  ids : ∀ n obj, (n, obj) ∈ given → n < free ∧
    ((objs obj).vid = .reg n ∨ ∃ k, free ≤ k ∧ (objs obj).vid = .reg k)
  inj : ∀ n obj n' obj', (n, obj) ∈ given → (n', obj') ∈ given →
    (objs obj).vid = (objs obj').vid → n = n' ∧ obj = obj'

/-- An id from before the renaming. -/
def Vid.Old (free : Nat) (v : Vid) : Prop := ∀ n, v = .reg n → n < free

/-- A variable with versions that are renamed. -/
def Vid.Touched (given : List (Nat × Nat)) (v : Vid) : Prop :=
  ∃ n obj, v = .reg n ∧ (n, obj) ∈ given

def Renaming.Within (R : Renaming) (given : List (Nat × Nat)) : Prop :=
  ∀ v loc obj, R (v, loc) = some obj → ∃ n, v = .reg n ∧ (n, obj) ∈ given

/-- One more definition or use is renamed. -/
def Renaming.add (R : Renaming) (v : Vid) (loc : Int) (obj : Nat) : Renaming :=
  Function.update R (v, loc) (some obj)

section Event

variable {free : Nat} {objs : Nat → VarObj} {given : List (Nat × Nat)} {D U R : Renaming}
  {loc : Int} {v w : Vid} {n obj o : Nat}

theorem Given.ne_of_old (hg : Given free objs given) (hobj : (n, obj) ∈ given) (hv : v.Old free)
    (hne : v ≠ .reg n) : v ≠ (objs obj).vid := by
  intro h
  rcases (hg.ids n obj hobj).2 with hid | ⟨k, hk, hid⟩
  · exact hne (h.trans hid)
  · have := hv k (h.trans hid)
    omega

namespace Renaming

theorem add_self : R.add v loc obj (v, loc) = some obj := Function.update_self ..

theorem add_ne {i : Int} (h : w ≠ v) : R.add v loc obj (w, i) = R (w, i) :=
  Function.update_of_ne (fun he => h (congrArg Prod.fst he)) _ _

theorem add_loc_ne {i : Int} (h : i ≠ loc) : R.add v loc obj (w, i) = R (w, i) :=
  Function.update_of_ne (fun he => h (congrArg Prod.snd he)) _ _

theorem name_of_none (h : R (v, loc) = none) : R.name objs loc v = v := by
  unfold name
  rw [h]

theorem name_of_some (h : R (v, loc) = some o) : R.name objs loc v = (objs o).vid := by
  unfold name
  rw [h]

theorem name_add_self : (R.add v loc obj).name objs loc v = (objs obj).vid :=
  name_of_some add_self

theorem name_add_ne {i : Int} (h : w ≠ v) : (R.add v loc obj).name objs i w = R.name objs i w := by
  unfold name
  rw [add_ne h]

theorem Within.add (h : R.Within given) (hobj : (n, obj) ∈ given) :
    (R.add (.reg n) loc obj).Within given := by
  intro w i o hw
  by_cases hkey : (w, i) = (Vid.reg n, loc)
  · obtain ⟨rfl, rfl⟩ := Prod.mk.inj hkey
    rw [add_self] at hw
    exact ⟨n, rfl, Option.some.inj hw ▸ hobj⟩
  · exact h w i o (by rwa [Renaming.add, Function.update_of_ne hkey] at hw)

theorem Within.none (h : R.Within given) (hv : ¬v.Touched given) : R (v, loc) = none := by
  cases hr : R (v, loc) with
  | none => rfl
  | some o =>
    obtain ⟨n, hn, ho⟩ := h v loc o hr
    exact absurd ⟨n, o, hn, ho⟩ hv

/-- No other variable has taken the id of a register that is not renamed yet. -/
theorem eq_of_name_eq (hg : Given free objs given) (hR : R.Within given)
    (hn : n < free) (hfree : R (.reg n, loc) = Option.none)
    (h : R.name objs loc w = .reg n) : w = .reg n := by
  cases hw : R (w, loc) with
  | none => rwa [name_of_none hw] at h
  | some o =>
    rw [name_of_some hw] at h
    obtain ⟨m, rfl, ho⟩ := hR w loc o hw
    rcases (hg.ids m o ho).2 with hid | ⟨k, hk, hid⟩
    · exact hid.symm.trans h
    · obtain rfl := Vid.reg.inj (hid.symm.trans h)
      omega

end Renaming

/-- What the events so far have made of the instruction at a location. -/
structure InsRenamed (objs : Nat → VarObj) (given : List (Nat × Nat)) (D U : Renaming)
    (loc : Int) (ins ins' : Ins) : Prop where
  shaped : ins'.Shaped
  lhs : ins'.getLhs = ins.getLhs.map (D.name objs loc)
  written : ∀ v o, ins.getLhs = some v → D (v, loc) = some o → ins'.written = some (.variable o)
  kept : ∀ v, ins.getLhs = some v → ¬v.Touched given → ins'.written = ins.written
  slots : ins'.slots = ins.slots.map (U.name objs loc)
  reads : ∀ v ∈ ins.slots, ∀ o, U (v, loc) = some o →
    ins'.readAt (objs o).vid = some (.variable o)
  readsKept : ∀ v ∈ ins.slots, ¬v.Touched given → ins'.readAt v = ins.readAt v

variable {ins ins' : Ins}

/-- The events at other locations do not matter. -/
theorem InsRenamed.congr {D' U' : Renaming} (h : InsRenamed objs given D U loc ins ins')
    (hD : ∀ v, D' (v, loc) = D (v, loc)) (hU : ∀ v, U' (v, loc) = U (v, loc)) :
    InsRenamed objs given D' U' loc ins ins' := by
  have hname {R R' : Renaming} (hR : ∀ v, R' (v, loc) = R (v, loc)) :
      R'.name objs loc = R.name objs loc := by
    funext v
    unfold Renaming.name
    rw [hR]
  constructor
  · exact h.shaped
  · rw [hname hD]
    exact h.lhs
  · exact fun v o hv ho => h.written v o hv (hD v ▸ ho)
  · exact h.kept
  · rw [hname hU]
    exact h.slots
  · exact fun v hv o ho => h.reads v hv o (hU v ▸ ho)
  · exact h.readsKept

theorem InsRenamed.renameDef (h : InsRenamed objs given D U loc ins ins')
    (hg : Given free objs given) (hU : U.Within given) (hobj : (n, obj) ∈ given)
    (hold : ∀ v ∈ ins.slots, v.Old free) (hlhs : ins.getLhs = some (.reg n))
    (hfree : D (.reg n, loc) = none) :
    ∃ ins'', ins'.replaceLhs (objs obj).vid obj = some ins'' ∧
      InsRenamed objs given (D.add (.reg n) loc obj) U loc ins ins'' := by
  have hcurrent : ins'.getLhs = some (.reg n) := by
    rw [h.lhs, hlhs, Option.map_some, Renaming.name_of_none hfree]
  obtain ⟨ins'', hrun, hshaped, hnew, hwritten, hslots, hreads⟩ :=
    ins'.replaceLhs_spec (objs obj).vid obj hcurrent h.shaped
  refine ⟨ins'', hrun, hshaped, ?_, ?_, ?_, hslots.trans h.slots, ?_, ?_⟩
  · rw [hnew, hlhs, Option.map_some, Renaming.name_add_self]
  · intro v o hv ho
    obtain rfl := Option.some.inj (hlhs.symm.trans hv)
    rw [Renaming.add_self] at ho
    rw [hwritten, Option.some.inj ho]
  · intro v hv huntouched
    obtain rfl := Option.some.inj (hlhs.symm.trans hv)
    exact absurd ⟨n, obj, rfl, hobj⟩ huntouched
  · intro v hv o ho
    have hmem : (objs o).vid ∈ ins'.slots := by
      rw [h.slots, ← Renaming.name_of_some ho]
      exact List.mem_map_of_mem hv
    rcases hreads _ hmem with hsame | ⟨hid, hread⟩
    · rw [hsame]
      exact h.reads v hv o ho
    · obtain ⟨m, -, ho'⟩ := hU v loc o ho
      rw [hread, (hg.inj m o n obj ho' hobj hid).2]
  · intro v hv huntouched
    have hmem : v ∈ ins'.slots := by
      have hname : U.name objs loc v = v := Renaming.name_of_none (hU.none huntouched)
      rw [h.slots, ← hname]
      exact List.mem_map_of_mem hv
    rcases hreads _ hmem with hsame | ⟨hid, -⟩
    · rw [hsame]
      exact h.readsKept v hv huntouched
    · exact absurd hid (hg.ne_of_old hobj (hold v hv) fun hn => huntouched ⟨n, obj, hn, hobj⟩)

theorem InsRenamed.renameUse (h : InsRenamed objs given D U loc ins ins')
    (hg : Given free objs given) (hD : D.Within given) (hU : U.Within given)
    (hobj : (n, obj) ∈ given) (hold : ∀ v ∈ ins.slots, v.Old free)
    (holdLhs : ∀ v, ins.getLhs = some v → v.Old free) (hslot : Vid.reg n ∈ ins.slots)
    (hfree : U (.reg n, loc) = none) :
    ∃ ins'', ins'.replaceVar (.reg n) (objs obj).vid obj = some ins'' ∧
      InsRenamed objs given D (U.add (.reg n) loc obj) loc ins ins'' := by
  have hn : n < free := (hg.ids n obj hobj).1
  have hmem {v : Vid} (hv : v ∈ ins.slots) : U.name objs loc v ∈ ins'.slots := by
    rw [h.slots]
    exact List.mem_map_of_mem hv
  have hcurrent : Vid.reg n ∈ ins'.slots := by
    have := hmem hslot
    rwa [Renaming.name_of_none hfree] at this
  obtain ⟨ins'', hrun, hshaped, hlhs, hwritten, hstays, hslots, hnew, hreads⟩ :=
    ins'.replaceVar_spec (objs obj).vid obj hcurrent h.shaped
  have hname : ∀ v, U.name objs loc v = .reg n → v = .reg n := fun v =>
    Renaming.eq_of_name_eq hg hU hn hfree
  refine ⟨ins'', hrun, hshaped, hlhs.trans h.lhs, ?_, ?_, ?_, ?_, ?_⟩
  · intro v o hv ho
    have hbefore := h.written v o hv ho
    by_cases hid : (objs o).vid = (objs obj).vid
    · obtain ⟨m, -, ho'⟩ := hD v loc o ho
      obtain ⟨-, rfl⟩ := hg.inj m o n obj ho' hobj hid
      exact hstays hbefore
    · rw [← hbefore]
      apply hwritten
      rw [h.lhs, hv, Option.map_some, Renaming.name_of_some ho]
      exact fun he => hid (Option.some.inj he)
  · intro v hv huntouched
    rw [← h.kept v hv huntouched]
    apply hwritten
    rw [h.lhs, hv, Option.map_some, Renaming.name_of_none (hD.none huntouched)]
    exact fun he => hg.ne_of_old hobj (holdLhs v hv) (fun hn => huntouched ⟨n, obj, hn, hobj⟩)
      (Option.some.inj he)
  · rw [hslots, h.slots, List.map_map]
    apply List.map_congr_left
    intro v _
    rw [Function.comp_apply]
    by_cases hv : v = .reg n
    · rw [hv, Renaming.name_of_none hfree, if_pos rfl, Renaming.name_add_self]
    · rw [Renaming.name_add_ne hv, if_neg fun he => hv (hname v he)]
  · intro v hv o ho
    by_cases hvn : v = .reg n
    · rw [hvn, Renaming.add_self] at ho
      rw [← Option.some.inj ho]
      exact hnew
    · rw [Renaming.add_ne hvn] at ho
      obtain ⟨m, -, ho'⟩ := hU v loc o ho
      by_cases hid : (objs o).vid = (objs obj).vid
      · rw [hid, hnew, (hg.inj m o n obj ho' hobj hid).2]
      · have hnamed : U.name objs loc v = (objs o).vid := Renaming.name_of_some ho
        rw [hreads _ (hnamed ▸ hmem hv) ?_ hid]
        · exact h.reads v hv o ho
        · exact fun he => hvn (hname v (hnamed.trans he))
  · intro v hv huntouched
    have hname : U.name objs loc v = v := Renaming.name_of_none (hU.none huntouched)
    have hne : v ≠ .reg n := fun hn => huntouched ⟨n, obj, hn, hobj⟩
    rw [hreads v (hname ▸ hmem hv) hne (hg.ne_of_old hobj (hold v hv) hne)]
    exact h.readsKept v hv huntouched

/-- The table is the old one with the keys renamed. -/
def ChainImage (objs : Nat → VarObj) (R : Renaming) (t t' : ChainTable) : Prop :=
  ∀ w i l, t'.lookup (w, i) = some l ↔ ∃ v, t.lookup (v, i) = some l ∧ w = R.name objs i v

variable {t t' : ChainTable}

theorem ChainImage.rekey (h : ChainImage objs R t t') (hg : Given free objs given)
    (hR : R.Within given) (hobj : (n, obj) ∈ given)
    (hold : ∀ v i l, t.lookup (v, i) = some l → v.Old free) {l₀ : List Int}
    (hkey : t.lookup (.reg n, loc) = some l₀) (hfree : R (.reg n, loc) = none) :
    ChainImage objs (R.add (.reg n) loc obj) t
      (t'.rekey (.reg n, loc) ((objs obj).vid, loc)) := by
  have hn : n < free := (hg.ids n obj hobj).1
  have hcurrent : t'.lookup (.reg n, loc) = some l₀ :=
    (h _ _ _).mpr ⟨_, hkey, (Renaming.name_of_none hfree).symm⟩
  have hother {v : Vid} {l : List Int} (hv : t.lookup (v, loc) = some l) (hne : v ≠ .reg n) :
      R.name objs loc v ≠ (objs obj).vid := by
    intro he
    cases hr : R (v, loc) with
    | none =>
      rw [Renaming.name_of_none hr] at he
      exact hg.ne_of_old hobj (hold v loc l hv) hne he
    | some o =>
      rw [Renaming.name_of_some hr] at he
      obtain ⟨m, rfl, ho⟩ := hR v loc o hr
      exact hne (congrArg Vid.reg (hg.inj m o n obj ho hobj he).1)
  intro w i l
  rw [ChainTable.lookup_rekey hcurrent]
  by_cases hi : i = loc
  · subst hi
    by_cases hw : w = (objs obj).vid
    · rw [if_pos (by rw [hw])]
      constructor
      · intro hl
        exact ⟨.reg n, hl ▸ hkey, hw.trans Renaming.name_add_self.symm⟩
      · rintro ⟨v, hv, hname⟩
        by_cases hvn : v = .reg n
        · rw [hvn] at hv
          rw [← hkey, hv]
        · rw [Renaming.name_add_ne hvn] at hname
          exact absurd (hname.symm.trans hw) (hother hv hvn)
    · rw [if_neg fun he => hw (Prod.mk.inj he).1]
      by_cases hwn : w = .reg n
      · rw [if_pos (by rw [hwn])]
        constructor
        · intro hl
          cases hl
        · rintro ⟨v, hv, hname⟩
          by_cases hvn : v = .reg n
          · rw [hvn, Renaming.name_add_self] at hname
            exact absurd hname hw
          · rw [Renaming.name_add_ne hvn] at hname
            exact absurd (Renaming.eq_of_name_eq hg hR hn hfree (hname.symm.trans hwn)) hvn
      · rw [if_neg fun he => hwn (Prod.mk.inj he).1, h]
        refine exists_congr fun v => and_congr_right fun _ => ?_
        by_cases hvn : v = .reg n
        · rw [hvn, Renaming.name_of_none hfree, Renaming.name_add_self]
          exact iff_of_false hwn hw
        · rw [Renaming.name_add_ne hvn]
  · rw [if_neg fun he => hi (Prod.mk.inj he).2, if_neg fun he => hi (Prod.mk.inj he).2, h]
    refine exists_congr fun v => and_congr_right fun _ => ?_
    unfold Renaming.name
    rw [Renaming.add_loc_ne hi]

end Event

end Dexllm.Dad.VarSplit
