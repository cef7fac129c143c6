import Dexllm.Dad.RenameRun

/-!
The versions of `GroupVariables` are the classes of definitions that share uses, and the
parts of a conflated version are two.
-/

namespace Dexllm.Dad.VarSplit

open Components

variable {m : VarCode} {v : Vid} {n : Nat}

namespace VarCode.Wired

theorem joined_symm (hm : m.Wired) {d e : Int} (h : (chainLinks m.du m.ud v).Joined d e) :
    (chainLinks m.du m.ud v).Joined e d := by
  obtain ⟨u, hu, he⟩ := h
  exact ⟨u, (hm.mirrored v e u).mpr he, (hm.mirrored v d u).mp hu⟩

theorem linked_symm (hm : m.Wired) {d e : Int} (h : (chainLinks m.du m.ud v).Linked d e) :
    (chainLinks m.du m.ud v).Linked e d := by
  induction h with
  | refl => exact .refl
  | tail _ hjoined ih => exact .head (hm.joined_symm hjoined) ih

end VarCode.Wired

theorem lookup_of_mem_locs {t : ChainTable} {i j : Int} (h : j ∈ t.locs v i) :
    ∃ l, t.lookup (v, i) = some l := by
  unfold ChainTable.locs at h
  cases hl : t.lookup (v, i) with
  | none => simp [hl] at h
  | some l => exact ⟨l, rfl⟩

/-- A class of definitions, with the uses that it reaches. -/
structure ClassOf (m : VarCode) (v : Vid) (version : Version) : Prop where
  class_iff : ∀ d ∈ version.defs, ∀ e, e ∈ version.defs ↔ (chainLinks m.du m.ud v).Linked d e
  uses_iff : ∀ u, u ∈ version.uses ↔ ∃ e ∈ version.defs, u ∈ m.du.locs v e
  keys : ∀ d ∈ version.defs, ∃ l, m.du.lookup (v, d) = some l
  nonempty : version.defs ≠ []
  nodupDefs : version.defs.Nodup
  nodupUses : version.uses.Nodup

theorem classOf_component (hm : m.Wired) {d : Int} {fuel : Nat} {defs uses l : List Int}
    (hkey : m.du.lookup (v, d) = some l)
    (h : (chainLinks m.du m.ud v).component fuel d = some (defs, uses)) :
    ClassOf m v ⟨defs, uses⟩ ∧ d ∈ defs := by
  obtain ⟨hdefs, huses, ⟨t, ht⟩, hnodup, hnodup'⟩ := Links.component_spec h
  have hd : d ∈ defs := (hdefs d).mpr .refl
  refine ⟨?_, hd⟩
  constructor
  · intro e he e'
    have hlinked := (hdefs e).mp he
    rw [hdefs e']
    exact ⟨fun h' => (hm.linked_symm hlinked).trans h', fun h' => hlinked.trans h'⟩
  · intro u
    rw [huses u]
    exact exists_congr fun e => and_congr_left fun _ => (hdefs e).symm
  · intro e he
    have hlinked := (hdefs e).mp he
    cases hlinked with
    | refl => exact ⟨l, hkey⟩
    | tail _ hjoined =>
      obtain ⟨u, -, hmem⟩ := hjoined
      exact lookup_of_mem_locs ((hm.mirrored v e u).mpr hmem)
  · exact List.ne_nil_of_mem hd
  · exact hnodup
  · exact hnodup'

theorem ClassOf.uses_keys (hm : m.Wired) {version : Version} (h : ClassOf m v version) {u : Int}
    (hu : u ∈ version.uses) : ∃ l, m.ud.lookup (v, u) = some l := by
  obtain ⟨e, -, hmem⟩ := (h.uses_iff u).mp hu
  exact lookup_of_mem_locs ((hm.mirrored v e u).mp hmem)

/-- What reaches a use of a class is in the class. -/
theorem ClassOf.defs_closed (hm : m.Wired) {version : Version} (h : ClassOf m v version) {d u : Int}
    (hu : u ∈ version.uses) (hd : u ∈ m.du.locs v d) : d ∈ version.defs := by
  obtain ⟨e, he, hmem⟩ := (h.uses_iff u).mp hu
  rw [h.class_iff e he]
  exact .single ⟨u, hmem, (hm.mirrored v d u).mp hd⟩

/-- Two classes that share a definition or a use are one. -/
theorem ClassOf.apart (hm : m.Wired) {a b : Version} (ha : ClassOf m v a) (hb : ClassOf m v b)
    (hne : ∃ d ∈ b.defs, d ∉ a.defs) : a.Apart b := by
  obtain ⟨d, hd, hda⟩ := hne
  have hdisjoint : ∀ e ∈ a.defs, e ∉ b.defs := by
    intro e he heb
    exact hda ((ha.class_iff e he d).mpr ((hb.class_iff e heb d).mp hd))
  refine ⟨hdisjoint, fun u hua hub => ?_, fun hparam => ?_⟩
  · obtain ⟨e, he, hmem⟩ := (ha.uses_iff u).mp hua
    exact hdisjoint e he (hb.defs_closed hm hub hmem)
  · by_contra hne
    obtain ⟨e, he, hneg⟩ := List.any_eq_true.mp hparam
    obtain ⟨e', he', hneg'⟩ := List.any_eq_true.mp (by simpa using hne : b.isParam = true)
    obtain ⟨l, hl⟩ := ha.keys e he
    obtain ⟨l', hl'⟩ := hb.keys e' he'
    obtain rfl := hm.incoming v e l e' l' hl hl' (of_decide_eq_true hneg) (of_decide_eq_true hneg')
    exact hdisjoint e he he'

section Groups

variable {groups : VariableGroups} {var : Vid} {version : Version}

theorem appendVersion_keys : (appendVersion var version groups).map Prod.fst =
    if var ∈ groups.map Prod.fst then groups.map Prod.fst else groups.map Prod.fst ++ [var] := by
  induction groups with
  | nil => simp [appendVersion]
  | cons entry rest ih =>
    obtain ⟨v, versions⟩ := entry
    rw [appendVersion]
    by_cases hv : v = var
    · simp [hv]
    · rw [if_neg hv, List.map_cons, ih, List.map_cons]
      by_cases hmem : var ∈ rest.map Prod.fst
      · rw [if_pos hmem, if_pos (List.mem_cons_of_mem v hmem)]
      · have hne : var ∉ v :: rest.map Prod.fst :=
          fun h => (List.mem_cons.mp h).elim (fun heq => hv heq.symm) hmem
        rw [if_neg hmem, if_neg hne, List.cons_append]

theorem nodup_appendVersion (h : (groups.map Prod.fst).Nodup) :
    ((appendVersion var version groups).map Prod.fst).Nodup := by
  rw [appendVersion_keys]
  split
  next => exact h
  next hmem =>
    refine List.nodup_append.mpr ⟨h, List.nodup_singleton _, ?_⟩
    rintro a ha b hb rfl
    exact hmem (List.mem_singleton.mp hb ▸ ha)

/-- The entries of other variables stay, and the one of `var` has the version at its end. -/
theorem mem_appendVersion (h : (groups.map Prod.fst).Nodup) {k : Vid} {vs : List Version} :
    (k, vs) ∈ appendVersion var version groups ↔ (k ≠ var ∧ (k, vs) ∈ groups) ∨
      (k = var ∧ ((∃ vs₀, (var, vs₀) ∈ groups ∧ vs = vs₀ ++ [version]) ∨
        var ∉ groups.map Prod.fst ∧ vs = [version])) := by
  induction groups with
  | nil => simp [appendVersion]
  | cons entry rest ih =>
    obtain ⟨v, versions⟩ := entry
    obtain ⟨hv, hrest⟩ := List.nodup_cons.mp h
    rw [appendVersion]
    by_cases hvar : v = var
    · subst hvar
      rw [if_pos rfl, List.mem_cons, List.mem_cons, Prod.mk.injEq, Prod.mk.injEq]
      constructor
      · rintro (⟨rfl, rfl⟩ | hmem)
        · exact .inr ⟨rfl, .inl ⟨versions, List.mem_cons_self, rfl⟩⟩
        · refine .inl ⟨fun heq => hv ?_, .inr hmem⟩
          have hk : k ∈ rest.map Prod.fst := List.mem_map_of_mem (f := Prod.fst) hmem
          exact heq ▸ hk
      · rintro (⟨hne, ⟨rfl, -⟩ | hmem⟩ | ⟨rfl, ⟨vs₀, hmem, rfl⟩ | ⟨hnot, -⟩⟩)
        · exact absurd rfl hne
        · exact .inr hmem
        · rcases List.mem_cons.mp hmem with heq | hmem
          · exact .inl ⟨rfl, by rw [(Prod.mk.inj heq).2]⟩
          · exact absurd (List.mem_map_of_mem hmem) hv
        · exact absurd (by simp) hnot
    · rw [if_neg hvar, List.mem_cons, ih hrest, List.mem_cons, Prod.mk.injEq]
      constructor
      · rintro (⟨rfl, rfl⟩ | ⟨hne, hmem⟩ | ⟨rfl, ⟨vs₀, hmem, rfl⟩ | ⟨hnot, rfl⟩⟩)
        · exact .inl ⟨hvar, .inl ⟨rfl, rfl⟩⟩
        · exact .inl ⟨hne, .inr hmem⟩
        · exact .inr ⟨rfl, .inl ⟨vs₀, List.mem_cons_of_mem _ hmem, rfl⟩⟩
        · refine .inr ⟨rfl, .inr ⟨?_, rfl⟩⟩
          rw [List.map_cons, List.mem_cons]
          exact fun h => h.elim (fun heq => hvar heq.symm) hnot
      · rintro (⟨hne, ⟨rfl, rfl⟩ | hmem⟩ | ⟨rfl, ⟨vs₀, hmem, rfl⟩ | ⟨hnot, rfl⟩⟩)
        · exact .inl ⟨rfl, rfl⟩
        · exact .inr (.inl ⟨hne, hmem⟩)
        · rcases List.mem_cons.mp hmem with heq | hmem
          · exact absurd (Prod.mk.inj heq).1.symm hvar
          · exact .inr (.inr ⟨rfl, .inl ⟨vs₀, hmem, rfl⟩⟩)
        · refine .inr (.inr ⟨rfl, .inr ⟨fun hmem => hnot ?_, rfl⟩⟩)
          exact List.mem_cons_of_mem _ hmem

/-- The classes of the keys so far. -/
structure Grouped (m : VarCode) (done : List (Vid × Int)) (groups : VariableGroups) : Prop where
  nodup : (groups.map Prod.fst).Nodup
  registers : ∀ entry ∈ groups, inLvars m.lvars entry.1 = true
  classes : ∀ entry ∈ groups, ∀ version ∈ entry.2, ClassOf m entry.1 version
  apart : ∀ entry ∈ groups, entry.2.Pairwise Version.Apart
  covered : ∀ key ∈ done, inLvars m.lvars key.1 = true →
    ∃ vs, (key.1, vs) ∈ groups ∧ ∃ version ∈ vs, key.2 ∈ version.defs

theorem exists_component {v : Vid} {d : Int} :
    ∃ result, (chainLinks m.du m.ud v).component (chainFuel m.du m.ud) d = some result := by
  have hlocs {t : ChainTable} {i j : Int} (h : j ∈ t.locs v i) :
      j ∈ t.entries.flatMap Sigma.snd := by
    obtain ⟨l, hl⟩ := lookup_of_mem_locs h
    have hmem : j ∈ l := by
      rw [ChainTable.locs, hl] at h
      exact h
    exact List.mem_flatMap.mpr ⟨⟨(v, i), l⟩, AList.mem_lookup_iff.mp hl, hmem⟩
  have hdefs : ∀ u, ∀ e ∈ (chainLinks m.du m.ud v).defs u, e ∈ m.ud.entries.flatMap Sigma.snd :=
    fun u e he => hlocs (t := m.ud) he
  have huses : ∀ e, ∀ u ∈ (chainLinks m.du m.ud v).uses e, u ∈ m.du.entries.flatMap Sigma.snd :=
    fun e u hu => hlocs (t := m.du) hu
  refine Links.exists_component hdefs huses ?_
  unfold chainFuel
  omega

theorem Grouped.groupKey {done : List (Vid × Int)} {key : Vid × Int} {l : List Int}
    (h : Grouped m done groups) (hm : m.Wired) (hkey : m.du.lookup key = some l) :
    ∃ groups', VarSplit.groupKey m.lvars m.du m.ud groups key = some groups' ∧
      Grouped m (done ++ [key]) groups' := by
  obtain ⟨v, d⟩ := key
  have hdone {groups' : VariableGroups} (hold : ∀ key ∈ done,
      inLvars m.lvars key.1 = true →
        ∃ vs, (key.1, vs) ∈ groups' ∧ ∃ version ∈ vs, key.2 ∈ version.defs)
      (hnew : inLvars m.lvars v = true →
        ∃ vs, (v, vs) ∈ groups' ∧ ∃ version ∈ vs, d ∈ version.defs) :
      ∀ key ∈ done ++ [(v, d)], inLvars m.lvars key.1 = true →
        ∃ vs, (key.1, vs) ∈ groups' ∧ ∃ version ∈ vs, key.2 ∈ version.defs := by
    intro key hkey hin
    rcases List.mem_append.mp hkey with hkey | hkey
    · exact hold key hkey hin
    · obtain rfl := List.mem_singleton.mp hkey
      exact hnew hin
  unfold VarSplit.groupKey
  cases hin : inLvars m.lvars v with
  | false =>
    refine ⟨groups, by simp, { h with covered := hdone h.covered ?_ }⟩
    intro htrue
    rw [hin] at htrue
    cases htrue
  | true =>
    rw [if_neg (by simp)]
    split_ifs with htreated
    · refine ⟨groups, rfl, { h with covered := hdone h.covered fun _ => ?_ }⟩
      obtain ⟨⟨k, vs⟩, hmem, hk⟩ := List.any_eq_true.mp htreated
      obtain ⟨hk, hvs⟩ : k = v ∧ ∃ version ∈ vs, d ∈ version.defs := by simpa using hk
      exact ⟨vs, hk ▸ hmem, hvs⟩
    · obtain ⟨⟨defs, uses⟩, hcomponent⟩ := exists_component (m := m) (v := v) (d := d)
      obtain ⟨hclass, hd⟩ := classOf_component hm hkey hcomponent
      have hfresh : ∀ vs, (v, vs) ∈ groups → ∀ version ∈ vs, d ∉ version.defs := by
        intro vs hmem version hversion hmemd
        refine htreated (List.any_eq_true.mpr ⟨(v, vs), hmem, ?_⟩)
        simpa using ⟨version, hversion, hmemd⟩
      refine ⟨_, by rw [hcomponent]; rfl, ?_⟩
      constructor
      · exact nodup_appendVersion h.nodup
      · intro entry hentry
        rcases (mem_appendVersion h.nodup).mp hentry with ⟨-, hmem⟩ | ⟨heq, -⟩
        · exact h.registers _ hmem
        · rw [heq]
          exact hin
      · intro entry hentry version hversion
        rcases (mem_appendVersion h.nodup).mp hentry with
          ⟨-, hmem⟩ | ⟨heq, ⟨vs₀, hmem, hvs⟩ | ⟨-, hvs⟩⟩
        · exact h.classes _ hmem version hversion
        · rw [hvs] at hversion
          rcases List.mem_append.mp hversion with hversion | hversion
          · exact heq ▸ h.classes _ hmem version hversion
          · rw [heq, List.mem_singleton.mp hversion]
            exact hclass
        · rw [hvs] at hversion
          rw [heq, List.mem_singleton.mp hversion]
          exact hclass
      · intro entry hentry
        rcases (mem_appendVersion h.nodup).mp hentry with
          ⟨-, hmem⟩ | ⟨-, ⟨vs₀, hmem, hvs⟩ | ⟨-, hvs⟩⟩
        · exact h.apart _ hmem
        · rw [hvs]
          refine List.pairwise_append.mpr ⟨h.apart _ hmem, List.pairwise_singleton _ _, ?_⟩
          intro a ha b hb
          obtain rfl := List.mem_singleton.mp hb
          exact (h.classes _ hmem a ha).apart hm hclass ⟨d, hd, hfresh vs₀ hmem a ha⟩
        · rw [hvs]
          exact List.pairwise_singleton _ _
      · refine hdone (fun key hkey hin' => ?_) fun _ => ?_
        · obtain ⟨vs, hmem, version, hversion, hmemd⟩ := h.covered key hkey hin'
          by_cases heq : key.1 = v
          · refine ⟨vs ++ [⟨defs, uses⟩], (mem_appendVersion h.nodup).mpr (.inr ⟨heq, .inl
              ⟨vs, heq ▸ hmem, rfl⟩⟩), version, List.mem_append_left _ hversion, hmemd⟩
          · exact ⟨vs, (mem_appendVersion h.nodup).mpr (.inl ⟨heq, hmem⟩), version, hversion, hmemd⟩
        · by_cases hmem : v ∈ groups.map Prod.fst
          · obtain ⟨⟨k, vs⟩, hentry, rfl⟩ := List.mem_map.mp hmem
            exact ⟨vs ++ [⟨defs, uses⟩], (mem_appendVersion h.nodup).mpr (.inr ⟨rfl, .inl
              ⟨vs, hentry, rfl⟩⟩), ⟨defs, uses⟩, by simp, hd⟩
          · exact ⟨[⟨defs, uses⟩], (mem_appendVersion h.nodup).mpr (.inr ⟨rfl, .inr ⟨hmem, rfl⟩⟩),
              ⟨defs, uses⟩, by simp, hd⟩

theorem Grouped.groupKeys {done keys : List (Vid × Int)} (h : Grouped m done groups)
    (hm : m.Wired) (hkeys : ∀ key ∈ keys, ∃ l, m.du.lookup key = some l) :
    ∃ groups', keys.foldlM (VarSplit.groupKey m.lvars m.du m.ud) groups = some groups' ∧
      Grouped m (done ++ keys) groups' := by
  induction keys generalizing done groups with
  | nil => exact ⟨groups, rfl, by rwa [List.append_nil]⟩
  | cons key keys ih =>
    obtain ⟨l, hl⟩ := hkeys key List.mem_cons_self
    obtain ⟨groups₁, hrun, hgrouped⟩ := h.groupKey hm hl
    obtain ⟨groups₂, hrun₂, hgrouped₂⟩ :=
      ih hgrouped fun k hk => hkeys k (List.mem_cons_of_mem _ hk)
    refine ⟨groups₂, ?_, by simpa using hgrouped₂⟩
    rw [List.foldlM_cons, hrun]
    exact hrun₂

/-- `GroupVariables` puts each definition of a register in one class. -/
theorem groupVariables_spec (hm : m.Wired) :
    ∃ groups, groupVariables m.lvars m.du m.ud = some groups ∧ Grouped m m.du.keys groups := by
  have hstart : Grouped m [] [] := by
    constructor <;> simp
  have hperm := List.perm_insertionSort (fun a b => keyLe a b = true) m.du.keys
  have hkeys : ∀ key ∈ m.du.keys.insertionSort fun a b => keyLe a b,
      ∃ l, m.du.lookup key = some l := by
    intro key hkey
    have hmem : key ∈ m.du := AList.mem_keys.mpr (hperm.mem_iff.mp hkey)
    exact Option.isSome_iff_exists.mp (AList.lookup_isSome.mpr hmem)
  obtain ⟨groups, hrun, hgrouped⟩ := hstart.groupKeys hm hkeys
  refine ⟨groups, hrun, { hgrouped with covered := fun key hkey => ?_ }⟩
  exact hgrouped.covered key (by simpa using hperm.mem_iff.mpr hkey)

end Groups

end Dexllm.Dad.VarSplit
