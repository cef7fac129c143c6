import Dexllm.Dad.SplitRename

/-!
The run of the renaming: every version of a register with several gets a variable,
and nothing else changes.
-/

namespace Dexllm.Dad.VarSplit

/-- What the block builders and `BuildDefUse` leave: the chains mirror each other
and name what the instructions define and read, a register stands for one variable
wherever it occurs, and a register has one incoming value at most. -/
structure VarCode.Wired (m : VarCode) : Prop where
  mirrored : ∀ v d u, u ∈ m.du.locs v d ↔ d ∈ m.ud.locs v u
  defs : ∀ v d l, m.du.lookup (v, d) = some l → 0 ≤ d →
    ∃ ins, m.locToIns d = some ins ∧ ins.getLhs = some v
  uses : ∀ v u l, m.ud.lookup (v, u) = some l → ∃ ins, m.locToIns u = some ins ∧ v ∈ ins.slots
  located : ∀ loc ins, m.locToIns loc = some ins → 0 ≤ loc
  shaped : ∀ loc ins, m.locToIns loc = some ins → ins.Shaped
  writes : ∀ loc ins n, m.locToIns loc = some ins → ins.getLhs = some (.reg n) →
    ∃ obj, m.lvars.lookup n = some obj ∧ ins.written = some (.variable obj)
  reads : ∀ loc ins n, m.locToIns loc = some ins → .reg n ∈ ins.slots →
    ∃ obj, m.lvars.lookup n = some obj ∧ ins.readAt (.reg n) = some (.variable obj)
  params : ∀ v d l, m.du.lookup (v, d) = some l → d < 0 → ∃ n, v = .reg n ∧ n ∈ m.lvars
  incoming : ∀ v d l d' l', m.du.lookup (v, d) = some l → m.du.lookup (v, d') = some l' →
    d < 0 → d' < 0 → d = d'

section Old

variable {m : VarCode} {n : Nat} {v : Vid} {loc : Int} {ins : Ins} {l : List Int}

theorem le_foldl_max (ks : List Nat) (nb : Nat) :
    nb ≤ ks.foldl (fun nb k => max nb (k + 1)) nb ∧
      ∀ k ∈ ks, k < ks.foldl (fun nb k => max nb (k + 1)) nb := by
  induction ks generalizing nb with
  | nil => exact ⟨Nat.le_refl _, fun _ h => absurd h List.not_mem_nil⟩
  | cons k ks ih =>
    obtain ⟨hle, hks⟩ := ih (max nb (k + 1))
    refine ⟨Nat.le_trans (Nat.le_max_left ..) hle, fun j hj => ?_⟩
    rcases List.mem_cons.mp hj with rfl | hj
    · exact Nat.lt_of_lt_of_le (Nat.lt_succ_self j) (Nat.le_trans (Nat.le_max_right ..) hle)
    · exact hks j hj

theorem lt_firstFree {lvars : AList fun _ : Nat => Nat} (h : n ∈ lvars) : n < firstFree lvars :=
  (le_foldl_max _ _).2 n (AList.mem_keys.mp h)

theorem mem_of_lookup {α : Type} [DecidableEq α] {β : α → Type} {t : AList β} {k : α} {x : β k}
    (h : t.lookup k = some x) : k ∈ t :=
  AList.lookup_isSome.mp (by rw [h]; rfl)

namespace VarCode.Wired

theorem old_slot (hm : m.Wired) (hins : m.locToIns loc = some ins) (hv : v ∈ ins.slots) :
    v.Old (firstFree m.lvars) := by
  rintro n rfl
  obtain ⟨obj, hobj, -⟩ := hm.reads loc ins n hins hv
  exact lt_firstFree (mem_of_lookup hobj)

theorem old_lhs (hm : m.Wired) (hins : m.locToIns loc = some ins) (hv : ins.getLhs = some v) :
    v.Old (firstFree m.lvars) := by
  rintro n rfl
  obtain ⟨obj, hobj, -⟩ := hm.writes loc ins n hins hv
  exact lt_firstFree (mem_of_lookup hobj)

theorem old_du (hm : m.Wired) (h : m.du.lookup (v, loc) = some l) : v.Old (firstFree m.lvars) := by
  rcases lt_or_ge loc 0 with hneg | hpos
  · obtain ⟨n, rfl, hn⟩ := hm.params v loc l h hneg
    intro k hk
    obtain rfl := Vid.reg.inj hk
    exact lt_firstFree hn
  · obtain ⟨ins, hins, hlhs⟩ := hm.defs v loc l h hpos
    exact hm.old_lhs hins hlhs

theorem old_ud (hm : m.Wired) (h : m.ud.lookup (v, loc) = some l) : v.Old (firstFree m.lvars) := by
  obtain ⟨ins, hins, hslot⟩ := hm.uses v loc l h
  exact hm.old_slot hins hslot

end VarCode.Wired

end Old

namespace Renaming

variable {objs objs' : Nat → VarObj} {given : List (Nat × Nat)} {R : Renaming} {v : Vid}
  {loc : Int} {n obj : Nat} {ls : List Int} {key : Vid × Int}

theorem name_congr (hR : R.Within given)
    (hobjs : ∀ n o, (n, o) ∈ given → (objs' o).vid = (objs o).vid) :
    R.name objs' loc v = R.name objs loc v := by
  cases h : R (v, loc) with
  | none => rw [name_of_none h, name_of_none h]
  | some o =>
    obtain ⟨n, -, ho⟩ := hR v loc o h
    rw [name_of_some h, name_of_some h, hobjs n o ho]

/-- All locations of a version are renamed. -/
def addAll (R : Renaming) (v : Vid) (obj : Nat) (ls : List Int) : Renaming :=
  ls.foldl (fun R loc => R.add v loc obj) R

theorem addAll_apply : R.addAll v obj ls key =
    if key.1 = v ∧ key.2 ∈ ls then some obj else R key := by
  induction ls generalizing R with
  | nil => simp [addAll]
  | cons loc ls ih =>
    change (R.add v loc obj).addAll v obj ls key = _
    rw [ih]
    by_cases hkey : key = (v, loc)
    · subst hkey
      rw [add_self]
      simp
    · have hne : ¬(key.1 = v ∧ key.2 = loc) := fun h => hkey (Prod.ext h.1 h.2)
      rw [Renaming.add, Function.update_of_ne hkey]
      congr 1
      rw [List.mem_cons, and_or_left]
      exact propext ⟨Or.inr, fun h => h.resolve_left hne⟩

theorem addAll_of_mem (h : loc ∈ ls) : R.addAll v obj ls (v, loc) = some obj := by
  rw [addAll_apply, if_pos ⟨rfl, h⟩]

theorem addAll_of_not_mem (h : loc ∉ ls) : R.addAll v obj ls (v, loc) = R (v, loc) := by
  rw [addAll_apply, if_neg fun he => h he.2]

theorem addAll_of_ne {w : Vid} (h : w ≠ v) : R.addAll v obj ls (w, loc) = R (w, loc) := by
  rw [addAll_apply, if_neg fun he => h he.1]

end Renaming

/-- The state after a part of the renaming. `L` gives the objects of the registers
from before. -/
structure RenameInv (m m' : VarCode) (given : List (Nat × Nat)) (D U : Renaming)
    (L : Nat → Option Nat) (nb : Nat) : Prop where
  ids : Given (firstFree m.lvars) m'.objs given
  below : ∀ n o, (n, o) ∈ given → o < m'.nextObj
  numbers : ∀ n o k, (n, o) ∈ given → (m'.objs o).vid = .reg k → k < nb
  free : firstFree m.lvars ≤ nb
  withinD : D.Within given
  withinU : U.Within given
  ins : ∀ loc ins, m.locToIns loc = some ins →
    ∃ ins', m'.locToIns loc = some ins' ∧ InsRenamed m'.objs given D U loc ins ins'
  du : ChainImage m'.objs D m.du m'.du
  ud : ChainImage m'.objs U m.ud m'.ud
  lvars : ∀ n, n < firstFree m.lvars → m'.lvars.lookup n = L n
  incoming : ∀ n d o, d < 0 → D (.reg n, d) = some o → L n = some o ∧ (m'.objs o).vid = .reg n

section Steps

variable {m m' : VarCode} {given : List (Nat × Nat)} {D U : Renaming} {L : Nat → Option Nat}
  {nb n obj : Nat} {loc : Int} {t : String}

theorem RenameInv.renameDef (h : RenameInv m m' given D U L nb) (hm : m.Wired)
    (hobj : (n, obj) ∈ given) {l : List Int} (hkey : m.du.lookup (.reg n, loc) = some l)
    (hfree : D (.reg n, loc) = none) (hpos : 0 ≤ loc) :
    ∃ m'' t', renameDef (.reg n) obj (m', t) loc = some (m'', t') ∧
      RenameInv m m'' given (D.add (.reg n) loc obj) U L nb ∧ m''.objs = m'.objs ∧
      m''.nextObj = m'.nextObj := by
  obtain ⟨ins, hins, hlhs⟩ := hm.defs _ _ _ hkey hpos
  obtain ⟨ins', hins', hrenamed⟩ := h.ins loc ins hins
  obtain ⟨ins'', hrun, hrenamed'⟩ := hrenamed.renameDef h.ids h.withinU hobj
    (fun v hv => hm.old_slot hins hv) hlhs hfree
  refine ⟨{ m'.setIns loc ins'' with du := m'.du.rekey (.reg n, loc) ((m'.objs obj).vid, loc) },
    trustedType m' ins'' t, ?_, ?_, rfl, rfl⟩
  · unfold VarSplit.renameDef
    simp only [if_neg (Int.not_lt.mpr hpos), hins', hrun, Option.map_some]
    rfl
  · refine { h with
      withinD := h.withinD.add hobj
      ins := fun i other hother => ?_
      du := h.du.rekey h.ids h.withinD hobj (fun v i l hl => hm.old_du hl) hkey hfree
      incoming := fun k d o hd ho =>
        h.incoming k d o hd (by rwa [Renaming.add_loc_ne (by omega)] at ho) }
    by_cases hi : i = loc
    · subst hi
      obtain rfl := Option.some.inj (hins.symm.trans hother)
      exact ⟨ins'', Function.update_self .., hrenamed'⟩
    · obtain ⟨other', hother', hrest⟩ := h.ins i other hother
      exact ⟨other', (Function.update_of_ne hi _ _).trans hother',
        hrest.congr (fun v => Renaming.add_loc_ne hi) fun _ => rfl⟩

theorem RenameInv.renameUse (h : RenameInv m m' given D U L nb) (hm : m.Wired)
    (hobj : (n, obj) ∈ given) {l : List Int} (hkey : m.ud.lookup (.reg n, loc) = some l)
    (hfree : U (.reg n, loc) = none) :
    ∃ m'', renameUse (.reg n) obj m' loc = some m'' ∧
      RenameInv m m'' given D (U.add (.reg n) loc obj) L nb ∧ m''.objs = m'.objs ∧
      m''.nextObj = m'.nextObj := by
  obtain ⟨ins, hins, hslot⟩ := hm.uses _ _ _ hkey
  obtain ⟨ins', hins', hrenamed⟩ := h.ins loc ins hins
  obtain ⟨ins'', hrun, hrenamed'⟩ := hrenamed.renameUse h.ids h.withinD h.withinU hobj
    (fun v hv => hm.old_slot hins hv) (fun v hv => hm.old_lhs hins hv) hslot hfree
  refine ⟨{ m'.setIns loc ins'' with ud := m'.ud.rekey (.reg n, loc) ((m'.objs obj).vid, loc) },
    ?_, ?_, rfl, rfl⟩
  · unfold VarSplit.renameUse
    simp only [hins', hrun, Option.map_some]
    rfl
  · refine { h with
      withinU := h.withinU.add hobj
      ins := fun i other hother => ?_
      ud := h.ud.rekey h.ids h.withinU hobj (fun v i l hl => hm.old_ud hl) hkey hfree }
    by_cases hi : i = loc
    · subst hi
      obtain rfl := Option.some.inj (hins.symm.trans hother)
      exact ⟨ins'', Function.update_self .., hrenamed'⟩
    · obtain ⟨other', hother', hrest⟩ := h.ins i other hother
      exact ⟨other', (Function.update_of_ne hi _ _).trans hother',
        hrest.congr (fun _ => rfl) fun v => Renaming.add_loc_ne hi⟩

end Steps

end Dexllm.Dad.VarSplit
