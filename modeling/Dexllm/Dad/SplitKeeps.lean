import Dexllm.Dad.SplitGroups

/-!
`SplitVariables` keeps the data flow exactly where no conflated version is split: the parts
of a version that is one class share a null constant, whose use then reads a variable that
the constant does not write.
-/

namespace Dexllm.Dad.VarSplit

/-- The operands an instruction reads, in order. -/
def Ins.reads (ins : Ins) : List (Option Operand) := ins.slots.map fun v => ins.readAt v

/-- The variable a definition of a register writes; the incoming value of a parameter is in
the table of the registers. -/
def VarCode.writes (m : VarCode) (n : Nat) (d : Int) : Option Operand :=
  if d < 0 then (m.lvars.lookup n).map .variable else (m.locToIns d).bind Ins.written

/-- Every definition writes the variable that its uses read, two definitions of a use write
one variable, and the chains are the old ones under the new ids. -/
structure FlowKept (m m' : VarCode) : Prop where
  paired : ∀ n d u, u ∈ m.du.locs (.reg n) d → ∃ o, m'.writes n d = some (.variable o) ∧
    ∀ ins, m.locToIns u = some ins → ∃ ins', m'.locToIns u = some ins' ∧
      ∀ i : Nat, ins.slots[i]? = some (.reg n) → ins'.reads[i]? = some (some (.variable o))
  merged : ∀ n d d' u, u ∈ m.du.locs (.reg n) d → u ∈ m.du.locs (.reg n) d' →
    m'.writes n d = m'.writes n d'
  du : ∀ w i l, m'.du.lookup (w, i) = some l ↔ ∃ v, m.du.lookup (v, i) = some l ∧
    (if i < 0 then w = v else (m'.locToIns i).bind Ins.getLhs = some w)
  ud : ∀ w i l, m'.ud.lookup (w, i) = some l ↔ ∃ v, m.ud.lookup (v, i) = some l ∧
    ∃ ins ins', m.locToIns i = some ins ∧ m'.locToIns i = some ins' ∧
      ∃ k : Nat, ins.slots[k]? = some v ∧ ins'.slots[k]? = some w

/-- Some version is split, as the loop over the registers goes. -/
def Resplits (m : VarCode) : VariableGroups → Prop
  | [] => False
  | (var, versions) :: rest =>
    (∃ version ∈ versions, splitConflatedVersion m var version ≠ []) ∨
      Resplits (typeConflated m var versions) rest

section Read

variable {m m' : VarCode} {given : List (Nat × Nat)} {D U : Renaming} {L : Nat → Option Nat}
  {nb n o : Nat} {groups : VariableGroups} {d u : Int}

/-- A renamed definition writes its object. -/
theorem RenameInv.writes (h : RenameInv m m' given D U L nb) (hm : m.Wired) {l : List Int}
    (hkey : m.du.lookup (.reg n, d) = some l) (hD : D (.reg n, d) = some o) :
    m'.writes n d = some (.variable o) := by
  unfold VarCode.writes
  split_ifs with hneg
  · have hn : n < firstFree m.lvars := hm.old_du hkey n rfl
    rw [h.lvars n hn, (h.incoming n d o hneg hD).1]
    rfl
  · obtain ⟨ins, hins, hlhs⟩ := hm.defs _ _ _ hkey (by omega)
    obtain ⟨ins', hins', hrenamed⟩ := h.ins d ins hins
    rw [hins']
    exact hrenamed.written _ o hlhs hD

/-- A renamed use reads its object. -/
theorem RenameInv.reads (h : RenameInv m m' given D U L nb) (hU : U (.reg n, u) = some o)
    {ins : Ins} (hins : m.locToIns u = some ins) :
    ∃ ins', m'.locToIns u = some ins' ∧
      ∀ i : Nat, ins.slots[i]? = some (.reg n) → ins'.reads[i]? = some (some (.variable o)) := by
  obtain ⟨ins', hins', hrenamed⟩ := h.ins u ins hins
  refine ⟨ins', hins', fun i hi => ?_⟩
  have hread := hrenamed.reads _ (List.mem_of_getElem? hi) o hU
  rw [Ins.reads, List.getElem?_map, hrenamed.slots, List.getElem?_map, hi]
  simp only [Option.map_some, Renaming.name_of_some hU, hread]

theorem Renamed.untouched (h : Renamed m m' given D U L nb groups)
    (hn : ∀ versions, (Vid.reg n, versions) ∈ groups → versions.length = 1) :
    ¬(Vid.reg n).Touched given := by
  rintro ⟨k, o, hk, ho⟩
  obtain rfl := Vid.reg.inj hk
  obtain ⟨versions, hmem, hne⟩ := h.touched _ o ho
  exact hne (hn versions hmem)

/-- A register with one version keeps its variable. -/
theorem Renamed.kept (h : Renamed m m' given D U L nb groups) (hm : m.Wired)
    (hn : ∀ versions, (Vid.reg n, versions) ∈ groups → versions.length = 1)
    (hflow : u ∈ m.du.locs (.reg n) d) :
    ∃ o, m'.writes n d = some (.variable o) ∧
      ∀ ins, m.locToIns u = some ins → ∃ ins', m'.locToIns u = some ins' ∧
        ∀ i : Nat, ins.slots[i]? = some (.reg n) →
          ins'.reads[i]? = some (some (.variable o)) := by
  have huntouched := h.untouched hn
  obtain ⟨l, hkey⟩ := lookup_of_mem_locs hflow
  obtain ⟨l', hkey'⟩ := lookup_of_mem_locs ((hm.mirrored _ d u).mp hflow)
  obtain ⟨ins, hins, hslot⟩ := hm.uses _ _ _ hkey'
  obtain ⟨obj, hobj, -⟩ := hm.reads u ins n hins hslot
  refine ⟨obj, ?_, fun ins hins => ?_⟩
  · unfold VarCode.writes
    split_ifs with hneg
    · rw [h.inv.lvars n (hm.old_du hkey n rfl), h.lvars n hn, hobj]
      rfl
    · obtain ⟨def', hdef', hlhs⟩ := hm.defs _ _ _ hkey (by omega)
      obtain ⟨ins', hins', hrenamed⟩ := h.inv.ins d def' hdef'
      obtain ⟨obj', hobj', hwritten⟩ := hm.writes d def' n hdef' hlhs
      rw [hins']
      change ins'.written = _
      rw [hrenamed.kept _ hlhs huntouched, hwritten, Option.some.inj (hobj.symm.trans hobj')]
  · obtain ⟨ins', hins', hrenamed⟩ := h.inv.ins u ins hins
    refine ⟨ins', hins', fun i hi => ?_⟩
    have hmem : Vid.reg n ∈ ins.slots := List.mem_of_getElem? hi
    obtain ⟨obj', hobj', hread⟩ := hm.reads u ins n hins hmem
    have hname : U.name m'.objs u (.reg n) = .reg n :=
      Renaming.name_of_none (h.inv.withinU.none huntouched)
    rw [Ins.reads, List.getElem?_map, hrenamed.slots, List.getElem?_map, hi]
    simp only [Option.map_some, hname]
    rw [hrenamed.readsKept _ hmem huntouched, hread, Option.some.inj (hobj.symm.trans hobj')]

theorem RenameInv.du_image (h : RenameInv m m' given D U L nb) (hm : m.Wired) (w : Vid) (i : Int)
    (l : List Int) : m'.du.lookup (w, i) = some l ↔ ∃ v, m.du.lookup (v, i) = some l ∧
      (if i < 0 then w = v else (m'.locToIns i).bind Ins.getLhs = some w) := by
  rw [h.du]
  refine exists_congr fun v => and_congr_right fun hkey => ?_
  split_ifs with hneg
  · obtain ⟨n, rfl, -⟩ := hm.params v i l hkey hneg
    have hname : D.name m'.objs i (.reg n) = .reg n := by
      cases hD : D (.reg n, i) with
      | none => exact Renaming.name_of_none hD
      | some o => rw [Renaming.name_of_some hD, (h.incoming n i o hneg hD).2]
    rw [hname]
  · obtain ⟨ins, hins, hlhs⟩ := hm.defs _ _ _ hkey (by omega)
    obtain ⟨ins', hins', hrenamed⟩ := h.ins i ins hins
    rw [hins', Option.bind_some, hrenamed.lhs, hlhs, Option.map_some, Option.some.injEq]
    exact eq_comm

theorem RenameInv.ud_image (h : RenameInv m m' given D U L nb) (hm : m.Wired) (w : Vid) (i : Int)
    (l : List Int) : m'.ud.lookup (w, i) = some l ↔ ∃ v, m.ud.lookup (v, i) = some l ∧
      ∃ ins ins', m.locToIns i = some ins ∧ m'.locToIns i = some ins' ∧
        ∃ k : Nat, ins.slots[k]? = some v ∧ ins'.slots[k]? = some w := by
  rw [h.ud]
  refine exists_congr fun v => and_congr_right fun hkey => ?_
  obtain ⟨ins, hins, hslot⟩ := hm.uses _ _ _ hkey
  obtain ⟨ins', hins', hrenamed⟩ := h.ins i ins hins
  have hget (k : Nat) (hk : ins.slots[k]? = some v) :
      ins'.slots[k]? = some (U.name m'.objs i v) := by
    rw [hrenamed.slots, List.getElem?_map, hk]
    rfl
  constructor
  · rintro rfl
    obtain ⟨k, hk⟩ := List.mem_iff_getElem?.mp hslot
    exact ⟨ins, ins', hins, hins', k, hk, hget k hk⟩
  · rintro ⟨ins₁, ins₁', hins₁, hins₁', k, hk, hk'⟩
    obtain rfl := Option.some.inj (hins.symm.trans hins₁)
    obtain rfl := Option.some.inj (hins'.symm.trans hins₁')
    exact Option.some.inj (hk'.symm.trans (hget k hk))

end Read

section Parts

variable {m : VarCode} {n : Nat} {var : Vid} {version : Version} {versions : List Version}
  {u : Int} {groups : VariableGroups}

/-- The part of a conflated version with its references, and its null constants. -/
def refPart (m : VarCode) (var : Vid) (version : Version) : Version :=
  ⟨version.defs.filter fun d => regionOf m d = .r || regionOf m d = .n,
    version.uses.filter (reachedBy m var version.defs .r)⟩

/-- The part of a conflated version with its literals. -/
def literalPart (m : VarCode) (var : Vid) (version : Version) : Version :=
  ⟨version.defs.filter fun d => !(regionOf m d = .r || regionOf m d = .n),
    version.uses.filter (reachedBy m var version.defs .p)⟩

theorem split_spec (h : splitConflatedVersion m var version ≠ []) :
    conflated m version = true ∧ (∀ u ∈ version.uses, useClear m var version.defs u = true) ∧
      splitConflatedVersion m var version = [refPart m var version, literalPart m var version] := by
  unfold splitConflatedVersion at h ⊢
  split_ifs at h ⊢ with hconflated hclear
  · exact absurd rfl h
  · exact absurd rfl h
  · exact ⟨by simpa using hconflated, by simpa using hclear, rfl⟩

/-- A use of a split version is on one side. -/
theorem side_of_clear (h : useClear m var version.defs u = true) :
    reachedBy m var version.defs .r u = !reachedBy m var version.defs .p u := by
  unfold useClear at h
  cases hr : reachedBy m var version.defs .r u <;>
    cases hp : reachedBy m var version.defs .p u <;> simp [hr, hp] at h ⊢

theorem nonneg_of_conflated (h : conflated m version = true) {d : Int} (hd : d ∈ version.defs) :
    0 ≤ d := by
  by_contra hneg
  unfold conflated at h
  simp only [Bool.and_eq_true, List.all_eq_true, decide_eq_true_eq] at h
  refine h.1.1 d hd ?_
  unfold regionOf
  rw [if_pos (by omega)]

/-- A version with no more definitions and uses than another. -/
structure Version.Within (a b : Version) : Prop where
  defs : ∀ d ∈ a.defs, d ∈ b.defs
  uses : ∀ u ∈ a.uses, u ∈ b.uses

theorem Version.Within.isParam {a b : Version} (h : a.Within b) (hparam : a.isParam = true) :
    b.isParam = true := by
  obtain ⟨d, hd, hneg⟩ := List.any_eq_true.mp hparam
  exact List.any_eq_true.mpr ⟨d, h.defs d hd, hneg⟩

theorem Version.Apart.within {a b a' b' : Version} (h : a.Apart b) (ha : a'.Within a)
    (hb : b'.Within b) : a'.Apart b' := by
  refine ⟨fun d hd hd' => h.1 d (ha.defs d hd) (hb.defs d hd'),
    fun u hu hu' => h.2.1 u (ha.uses u hu) (hb.uses u hu'), fun hparam => ?_⟩
  have hfalse := h.2.2 (ha.isParam hparam)
  by_contra hne
  rw [hb.isParam (by simpa using hne)] at hfalse
  cases hfalse

theorem refPart_within : (refPart m var version).Within version :=
  ⟨fun _ hd => (List.mem_filter.mp hd).1, fun _ hu => (List.mem_filter.mp hu).1⟩

theorem literalPart_within : (literalPart m var version).Within version :=
  ⟨fun _ hd => (List.mem_filter.mp hd).1, fun _ hu => (List.mem_filter.mp hu).1⟩

theorem parts_apart (hconflated : conflated m version = true)
    (hclear : ∀ u ∈ version.uses, useClear m var version.defs u = true) :
    (refPart m var version).Apart (literalPart m var version) := by
  refine ⟨fun d hd hd' => ?_, fun u hu hu' => ?_, fun hparam => ?_⟩
  · have hr := (List.mem_filter.mp hd).2
    have hp := (List.mem_filter.mp hd').2
    rw [hr] at hp
    cases hp
  · obtain ⟨hmem, hr⟩ := List.mem_filter.mp hu
    have hp := (List.mem_filter.mp hu').2
    rw [side_of_clear (hclear u hmem), hp] at hr
    cases hr
  · obtain ⟨d, hd, hneg⟩ := List.any_eq_true.mp hparam
    have hpos := nonneg_of_conflated hconflated (refPart_within.defs d hd)
    have := of_decide_eq_true hneg
    omega

theorem mem_resplit {part : Version} (h : part ∈ resplit m var versions) :
    ∃ version ∈ versions, part.Within version ∧
      (part.defs.Sublist version.defs ∧ part.uses.Sublist version.uses) := by
  obtain ⟨version, hversion, hpart⟩ := List.mem_flatMap.mp h
  refine ⟨version, hversion, ?_⟩
  dsimp only at hpart
  split_ifs at hpart with hempty
  · obtain rfl := List.mem_singleton.mp hpart
    exact ⟨⟨fun _ hd => hd, fun _ hu => hu⟩, List.Sublist.refl _, List.Sublist.refl _⟩
  · obtain ⟨-, -, hparts⟩ := split_spec (by simpa using hempty)
    rw [hparts] at hpart
    rcases List.mem_cons.mp hpart with rfl | hpart
    · exact ⟨refPart_within, List.filter_sublist, List.filter_sublist⟩
    · obtain rfl := List.mem_singleton.mp hpart
      exact ⟨literalPart_within, List.filter_sublist, List.filter_sublist⟩

theorem resplit_apart (h : versions.Pairwise Version.Apart) :
    (resplit m var versions).Pairwise Version.Apart := by
  refine List.pairwise_flatMap.mpr ⟨fun version _ => ?_, h.imp fun hapart x hx y hy => ?_⟩
  · dsimp only
    split_ifs with hempty
    · exact List.pairwise_singleton _ _
    · obtain ⟨hconflated, hclear, hparts⟩ := split_spec (by simpa using hempty)
      rw [hparts]
      exact List.pairwise_pair.mpr (parts_apart hconflated hclear)
  · have hwithin {v part : Version}
        (hpart : part ∈ if (splitConflatedVersion m var v).isEmpty then [v]
          else splitConflatedVersion m var v) : part.Within v := by
      have hmem : part ∈ resplit m var [v] := by simpa [resplit] using hpart
      obtain ⟨v', hv', hwithin, -⟩ := mem_resplit hmem
      exact List.mem_singleton.mp hv' ▸ hwithin
    exact hapart.within (hwithin hx) (hwithin hy)

theorem resplit_pieces (hm : m.Wired) (h : ∀ version ∈ versions, ClassOf m (.reg n) version)
    {m₀ : VarCode} {part : Version} (hpart : part ∈ resplit m₀ (.reg n) versions) :
    Piece m n part := by
  obtain ⟨version, hversion, hwithin, hdefs, huses⟩ := mem_resplit hpart
  have hclass := h version hversion
  constructor
  · exact fun d hd => hclass.keys d (hwithin.defs d hd)
  · exact fun u hu => hclass.uses_keys hm (hwithin.uses u hu)
  · exact hclass.nodupDefs.sublist hdefs
  · exact hclass.nodupUses.sublist huses

/-- The parts of a class that is split share a null constant: it reaches a use of the
literals. -/
theorem exists_shared (hclass : ClassOf m var version) (m₀ : VarCode)
    (hud : m₀.ud = m.ud) (h : splitConflatedVersion m₀ var version ≠ []) :
    ∃ d ∈ (refPart m₀ var version).defs, ∃ u, u ∈ m.du.locs var d ∧
      u ∈ (literalPart m₀ var version).uses ∧ u ∉ (refPart m₀ var version).uses := by
  obtain ⟨hconflated, hclear, -⟩ := split_spec h
  obtain ⟨⟨hknown, hr⟩, hp⟩ :
      ((∀ d ∈ version.defs, regionOf m₀ d ≠ .u) ∧ ∃ d ∈ version.defs, regionOf m₀ d = .r) ∧
        ∃ d ∈ version.defs, regionOf m₀ d = .p := by
    simpa [conflated] using hconflated
  obtain ⟨dr, hdr, hregion⟩ := hr
  obtain ⟨dp, hdp, hregion'⟩ := hp
  have hlinked := (hclass.class_iff dr hdr dp).mp hdp
  have hcross : ∀ e, (Components.Links.Linked (chainLinks m.du m.ud var) dr e) →
      e ∈ (refPart m₀ var version).defs ∨ ∃ a ∈ (refPart m₀ var version).defs,
        ∃ b ∈ (literalPart m₀ var version).defs, (chainLinks m.du m.ud var).Joined a b := by
    intro e he
    induction he with
    | refl => exact .inl (List.mem_filter.mpr ⟨hdr, by simp [hregion]⟩)
    | @tail b c hb hjoined ih =>
      rcases ih with hmem | hfound
      · have hc : c ∈ version.defs := (hclass.class_iff dr hdr c).mpr (hb.tail hjoined)
        by_cases hside : (regionOf m₀ c = .r || regionOf m₀ c = .n : Bool) = true
        · exact .inl (List.mem_filter.mpr ⟨hc, hside⟩)
        · refine .inr ⟨b, hmem, c, List.mem_filter.mpr ⟨hc, ?_⟩, hjoined⟩
          simpa using hside
      · exact .inr hfound
  rcases hcross dp hlinked with hmem | ⟨a, ha, b, hb, u, hau, hbu⟩
  · have := (List.mem_filter.mp hmem).2
    simp [hregion'] at this
  · have hu : u ∈ version.uses := (hclass.uses_iff u).mpr ⟨a, refPart_within.defs a ha, hau⟩
    have hbp : regionOf m₀ b = .p := by
      obtain ⟨hbdef, hnot⟩ := List.mem_filter.mp hb
      have hu := hknown b hbdef
      cases hregion : regionOf m₀ b <;> simp_all
    have hreached : reachedBy m₀ var version.defs .p u = true := by
      unfold reachedBy
      rw [List.any_eq_true]
      refine ⟨b, ?_, by simpa [hbp] using literalPart_within.defs b hb⟩
      rw [hud]
      exact hbu
    refine ⟨a, ha, u, hau, List.mem_filter.mpr ⟨hu, hreached⟩, fun hmem => ?_⟩
    have hr := (List.mem_filter.mp hmem).2
    rw [side_of_clear (hclear u hu), hreached] at hr
    cases hr

end Parts

section Expanded

variable {m : VarCode} {var : Vid} {versions : List Version} {groups : VariableGroups}

theorem typeConflated_eq (m : VarCode) (var : Vid) (versions : List Version) :
    ∃ objs, typeConflated m var versions = { m with objs := objs } := by
  have hsame : ∃ objs, m = { m with objs := objs } := ⟨m.objs, rfl⟩
  unfold typeConflated
  dsimp only
  split_ifs
  · cases var with
    | named _ => exact hsame
    | reg n =>
      dsimp only
      cases m.lvars.lookup n with
      | none => exact hsame
      | some obj =>
        dsimp only
        split_ifs
        · exact ⟨_, rfl⟩
        · exact hsame
  · exact hsame

/-- The first loop changes types, and splits versions. -/
theorem expandVersions_spec (m : VarCode) (groups : VariableGroups) :
    (∃ objs, (expandVersions m groups).1 = { m with objs := objs }) ∧
    (expandVersions m groups).2.map Prod.fst = groups.map Prod.fst ∧
    ∀ entry ∈ (expandVersions m groups).2, ∃ versions objs, (entry.1, versions) ∈ groups ∧
      entry.2 = resplit { m with objs := objs } entry.1 versions := by
  induction groups generalizing m with
  | nil => exact ⟨⟨m.objs, rfl⟩, rfl, fun entry hentry => absurd hentry List.not_mem_nil⟩
  | cons entry rest ih =>
    obtain ⟨var, versions⟩ := entry
    obtain ⟨objs, hobjs⟩ := typeConflated_eq m var versions
    obtain ⟨⟨objs', hobjs'⟩, hkeys, hentries⟩ := ih (m := { m with objs := objs })
    rw [expandVersions, hobjs]
    refine ⟨⟨objs', hobjs'⟩, congrArg (var :: ·) hkeys, fun entry hentry => ?_⟩
    rcases List.mem_cons.mp hentry with rfl | hentry
    · exact ⟨versions, m.objs, List.mem_cons_self, rfl⟩
    · obtain ⟨vs, objs'', hmem, heq⟩ := hentries entry hentry
      exact ⟨vs, objs'', List.mem_cons_of_mem _ hmem, heq⟩

theorem resplit_eq_self (h : ∀ version ∈ versions, splitConflatedVersion m var version = []) :
    resplit m var versions = versions := by
  unfold resplit
  rw [List.flatMap_congr (g := fun version => [version]) fun version hversion => by
    simp [h version hversion]]
  simp

theorem expandVersions_eq_self (h : ¬Resplits m groups) : (expandVersions m groups).2 = groups := by
  induction groups generalizing m with
  | nil => rfl
  | cons entry rest ih =>
    obtain ⟨var, versions⟩ := entry
    obtain ⟨hversions, hrest⟩ := not_or.mp h
    have hself : resplit m var versions = versions := by
      refine resplit_eq_self fun version hversion => ?_
      by_contra hne
      exact hversions ⟨version, hversion, hne⟩
    rw [expandVersions]
    exact congrArg₂ (fun vs l => (var, vs) :: l) hself (ih hrest)

theorem exists_resplit (h : Resplits m groups) :
    ∃ var versions objs, (var, versions) ∈ groups ∧
      (var, resplit { m with objs := objs } var versions) ∈ (expandVersions m groups).2 ∧
      ∃ version ∈ versions, splitConflatedVersion { m with objs := objs } var version ≠ [] := by
  induction groups generalizing m with
  | nil => cases h
  | cons entry rest ih =>
    obtain ⟨var, versions⟩ := entry
    obtain ⟨objs, hobjs⟩ := typeConflated_eq m var versions
    rcases h with ⟨version, hversion, hne⟩ | hrest
    · exact ⟨var, versions, m.objs, List.mem_cons_self, List.mem_cons_self, version, hversion, hne⟩
    · rw [hobjs] at hrest
      obtain ⟨var', versions', objs', hmem, hmem', hsplit⟩ := ih hrest
      refine ⟨var', versions', objs', List.mem_cons_of_mem _ hmem, ?_, hsplit⟩
      rw [expandVersions, hobjs]
      exact List.mem_cons_of_mem _ hmem'

end Expanded

section Flow

variable {m : VarCode} {groups : VariableGroups}

theorem VarCode.Wired.retyped (hm : m.Wired) (objs : Nat → VarObj) :
    { m with objs := objs }.Wired :=
  ⟨hm.mirrored, hm.defs, hm.uses, hm.located, hm.shaped, hm.writes, hm.reads, hm.params,
    hm.incoming⟩

theorem renameInv_start (hm : m.Wired) :
    RenameInv m m [] (fun _ => none) (fun _ => none) m.lvars.lookup (firstFree m.lvars) := by
  have hname (i : Int) (v : Vid) : Renaming.name (fun _ => none) m.objs i v = v := rfl
  have hgiven {P : Prop} {e : Nat × Nat} (h : e ∈ ([] : List (Nat × Nat))) : P :=
    absurd h List.not_mem_nil
  constructor
  · exact ⟨fun _ _ h => hgiven h, fun _ _ _ _ h => hgiven h⟩
  · exact fun _ _ h => hgiven h
  · exact fun _ _ _ h => hgiven h
  · exact le_rfl
  · exact fun _ _ _ h => nomatch h
  · exact fun _ _ _ h => nomatch h
  · intro loc ins hins
    refine ⟨ins, hins, hm.shaped loc ins hins, ?_, (fun _ _ _ h => nomatch h), fun _ _ _ => rfl, ?_,
      (fun _ _ _ h => nomatch h), fun _ _ _ => rfl⟩
    · exact Option.map_id'.symm
    · exact (List.map_id' _).symm
  · exact fun w i l => ⟨fun h => ⟨w, h, rfl⟩, fun ⟨v, h, hw⟩ => by rw [hw]; exact h⟩
  · exact fun w i l => ⟨fun h => ⟨w, h, rfl⟩, fun ⟨v, h, hw⟩ => by rw [hw]; exact h⟩
  · exact fun _ _ => rfl
  · exact fun _ _ _ _ h => nomatch h

theorem inLvars_reg {lvars : AList fun _ : Nat => Nat} {v : Vid} (h : inLvars lvars v = true) :
    ∃ n, v = .reg n ∧ n ∈ lvars := by
  cases v with
  | reg n => exact ⟨n, rfl, AList.lookup_isSome.mp h⟩
  | named _ => cases h

theorem expandVersions_pieces (hm : m.Wired) {done : List (Vid × Int)}
    (h : Grouped m done groups) : Pieces m (expandVersions m groups).2 := by
  obtain ⟨-, hkeys, hentries⟩ := expandVersions_spec m groups
  constructor
  · rw [hkeys]
    exact h.nodup
  · intro entry hentry
    obtain ⟨versions, objs, hmem, -⟩ := hentries entry hentry
    exact inLvars_reg (h.registers (entry.1, versions) hmem)
  · intro n versions hentry part hpart
    obtain ⟨vs, objs, hmem, heq⟩ := hentries _ hentry
    dsimp only at heq
    rw [heq] at hpart
    exact resplit_pieces hm (h.classes _ hmem) hpart
  · intro entry hentry
    obtain ⟨vs, objs, hmem, heq⟩ := hentries _ hentry
    rw [heq]
    exact resplit_apart (h.apart _ hmem)

/-- The run gives every register with several versions an object for each. -/
theorem splitVariables_renamed (hm : m.Wired)
    (hgroups : groupVariables m.lvars m.du m.ud = some groups)
    (h : Grouped m m.du.keys groups) : ∃ m' nb given D U L objs, splitVariables m = some m' ∧
      Renamed { m with objs := objs } m' given D U L nb (expandVersions m groups).2 := by
  obtain ⟨⟨objs, hobjs⟩, -, -⟩ := expandVersions_spec m groups
  have hwired := hm.retyped objs
  have hstart : Renamed { m with objs := objs } { m with objs := objs } [] (fun _ => none)
      (fun _ => none) m.lvars.lookup (firstFree m.lvars) [] :=
    ⟨renameInv_start hwired, fun _ _ h => absurd h List.not_mem_nil,
      fun _ _ h => absurd h List.not_mem_nil, fun _ _ => rfl⟩
  have hpieces := expandVersions_pieces hm h
  have hpieces' : Pieces { m with objs := objs } ([] ++ (expandVersions m groups).2) :=
    ⟨hpieces.nodup, hpieces.registers, fun n vs hvs v hv =>
      ⟨(hpieces.pieces n vs hvs v hv).defs, (hpieces.pieces n vs hvs v hv).uses,
        (hpieces.pieces n vs hvs v hv).nodupDefs, (hpieces.pieces n vs hvs v hv).nodupUses⟩,
      hpieces.apart⟩
  obtain ⟨m', nb, given, D, U, L, hrun, hrenamed⟩ := hstart.renameVariables hwired hpieces'
  refine ⟨m', nb, given, D, U, L, objs, ?_, hrenamed⟩
  rw [splitVariables, hgroups, Option.bind_eq_bind, Option.bind_some]
  rcases hexpand : expandVersions m groups with ⟨m₁, groups₁⟩
  rw [hexpand] at hobjs hrun
  dsimp only at hobjs hrun ⊢
  rw [hobjs, hrun]
  rfl

/-- Without a split every definition and its uses go to one version. -/
theorem flowKept_of_not_resplits (hm : m.Wired) (h : Grouped m m.du.keys groups) {m' : VarCode}
    {objs : Nat → VarObj} {nb : Nat} {given : List (Nat × Nat)} {D U : Renaming}
    {L : Nat → Option Nat} (hrenamed : Renamed { m with objs := objs } m' given D U L nb groups) :
    FlowKept m m' := by
  have hwired := hm.retyped objs
  have hpaired : ∀ n d u, u ∈ m.du.locs (.reg n) d → ∃ o, m'.writes n d = some (.variable o) ∧
      ∀ ins, m.locToIns u = some ins → ∃ ins', m'.locToIns u = some ins' ∧
        ∀ i : Nat, ins.slots[i]? = some (.reg n) →
          ins'.reads[i]? = some (some (.variable o)) := by
    intro n d u hflow
    obtain ⟨l, hkey⟩ := lookup_of_mem_locs hflow
    by_cases hsingle : ∀ versions, (Vid.reg n, versions) ∈ groups → versions.length = 1
    · exact hrenamed.kept hwired hsingle hflow
    · obtain ⟨versions, hmem, hlength⟩ : ∃ versions, (Vid.reg n, versions) ∈ groups ∧
          versions.length ≠ 1 := by simpa using hsingle
      have hin : inLvars m.lvars (.reg n) = true := h.registers _ hmem
      obtain ⟨vs, hvs, version, hversion, hd⟩ := h.covered (.reg n, d)
        (AList.mem_keys.mp (mem_of_lookup hkey)) hin
      obtain rfl : vs = versions :=
        congrArg Prod.snd (List.inj_on_of_nodup_map h.nodup hvs hmem rfl)
      have hu : u ∈ version.uses :=
        ((h.classes _ hvs version hversion).uses_iff u).mpr ⟨d, hd, hflow⟩
      obtain ⟨o, hdefs, huses⟩ := (hrenamed.split n vs hvs hlength).given version hversion
      exact ⟨o, hrenamed.inv.writes hwired hkey (hdefs d hd), fun ins hins =>
        hrenamed.inv.reads (huses u hu) hins⟩
  refine ⟨hpaired, fun n d d' u hflow hflow' => ?_, hrenamed.inv.du_image hwired,
    hrenamed.inv.ud_image hwired⟩
  obtain ⟨o, hwrites, hreads⟩ := hpaired n d u hflow
  obtain ⟨o', hwrites', hreads'⟩ := hpaired n d' u hflow'
  obtain ⟨l, hkey⟩ := lookup_of_mem_locs ((hm.mirrored _ d u).mp hflow)
  obtain ⟨ins, hins, hslot⟩ := hm.uses _ _ _ hkey
  obtain ⟨i, hi⟩ := List.mem_iff_getElem?.mp hslot
  obtain ⟨ins₁, hins₁, hread⟩ := hreads ins hins
  obtain ⟨ins₂, hins₂, hread'⟩ := hreads' ins hins
  obtain rfl := Option.some.inj (hins₁.symm.trans hins₂)
  have heq := (hread i hi).symm.trans (hread' i hi)
  rw [hwrites, hwrites', Option.some.inj (Option.some.inj heq)]

instance symm_disjoint : Std.Symm fun a b : Version => ∀ d ∈ a.defs, d ∉ b.defs :=
  ⟨fun _ _ hab d hd hd' => hab d hd' hd⟩

/-- Where a version is split, a null constant no longer writes what its use reads. -/
theorem not_flowKept_of_resplits (hm : m.Wired) (h : Grouped m m.du.keys groups) {m' : VarCode}
    {objs : Nat → VarObj} {nb : Nat} {given : List (Nat × Nat)} {D U : Renaming}
    {L : Nat → Option Nat} (hsplits : Resplits m groups)
    (hrenamed : Renamed { m with objs := objs } m' given D U L nb (expandVersions m groups).2) :
    ¬FlowKept m m' := by
  intro hflow
  obtain ⟨var, versions, objs', hmem, hmem', version, hversion, hne⟩ := exists_resplit hsplits
  obtain ⟨n, rfl, -⟩ := inLvars_reg (h.registers _ hmem)
  have hclass : ClassOf m (.reg n) version := h.classes _ hmem version hversion
  obtain ⟨d, hd, u, hdu, hu, hnot⟩ := exists_shared hclass { m with objs := objs' } rfl hne
  obtain ⟨hconflated, hclear, hparts⟩ := split_spec hne
  have hparts' : ∀ part ∈ splitConflatedVersion { m with objs := objs' } (.reg n) version,
      part ∈ resplit { m with objs := objs' } (.reg n) versions := by
    intro part hpart
    refine List.mem_flatMap.mpr ⟨version, hversion, ?_⟩
    simpa [hne] using hpart
  have hrefs := hparts' _ (by rw [hparts]; exact List.mem_cons_self)
  have hliterals := hparts' _ (by rw [hparts]; exact List.mem_cons_of_mem _ List.mem_cons_self)
  have hapart : (resplit { m with objs := objs' } (.reg n) versions).Pairwise Version.Apart :=
    resplit_apart (h.apart _ hmem)
  have hdisjoint := (hapart.imp And.left).forall
  have hdifferent : refPart { m with objs := objs' } (.reg n) version ≠
      literalPart { m with objs := objs' } (.reg n) version := by
    intro heq
    exact hnot (heq ▸ hu)
  have hlength : (resplit { m with objs := objs' } (.reg n) versions).length ≠ 1 := by
    intro hone
    obtain ⟨part, hpart⟩ := List.length_eq_one_iff.mp hone
    rw [hpart] at hrefs hliterals
    exact hdifferent ((List.mem_singleton.mp hrefs).trans (List.mem_singleton.mp hliterals).symm)
  have htracks := hrenamed.split n _ hmem' hlength
  obtain ⟨o, hdefs, -⟩ := htracks.given _ hrefs
  obtain ⟨o', -, huses⟩ := htracks.given _ hliterals
  have hwired := hm.retyped objs
  obtain ⟨l, hkey⟩ := lookup_of_mem_locs hdu
  obtain ⟨l', hkey'⟩ := lookup_of_mem_locs ((hm.mirrored _ d u).mp hdu)
  obtain ⟨ins, hins, hslot⟩ := hm.uses _ _ _ hkey'
  obtain ⟨i, hi⟩ := List.mem_iff_getElem?.mp hslot
  obtain ⟨o₁, hwrites, hreads⟩ := hflow.paired n d u hdu
  obtain ⟨ins₁, hins₁, hread⟩ := hreads ins hins
  obtain ⟨ins₂, hins₂, hread'⟩ := hrenamed.inv.reads (huses u hu) hins
  obtain rfl := Option.some.inj (hins₁.symm.trans hins₂)
  have hsame : o = o' := by
    have hwrites' := hrenamed.inv.writes hwired hkey (hdefs d hd)
    have heq := (hread i hi).symm.trans (hread' i hi)
    rw [hwrites] at hwrites'
    cases hwrites'
    cases heq
    rfl
  obtain ⟨part, hpart, hdpart, -, hupart⟩ := htracks.defs d o (hdefs d hd)
  have hpartEq : part = refPart { m with objs := objs' } (.reg n) version := by
    by_contra hother
    exact hdisjoint hpart hrefs hother d hdpart hd
  exact hnot (hpartEq ▸ hupart u (hsame ▸ huses u hu))

/-- Some version of the method is split into references and literals. -/
def VarCode.Resplit (m : VarCode) : Prop :=
  ∃ groups, groupVariables m.lvars m.du m.ud = some groups ∧ Resplits m groups

/-- `SplitVariables` gives each definition and its uses one variable, gives the definitions
of a use one variable and leaves the chains under the new ids, exactly where it splits no
version that `GroupVariables` makes. -/
theorem split_variables_flow (m : VarCode) (hm : m.Wired) :
    ∃ m', splitVariables m = some m' ∧ (FlowKept m m' ↔ ¬m.Resplit) := by
  obtain ⟨groups, hgroups, hgrouped⟩ := groupVariables_spec hm
  obtain ⟨m', nb, given, D, U, L, objs, hrun, hrenamed⟩ :=
    splitVariables_renamed hm hgroups hgrouped
  refine ⟨m', hrun, ?_⟩
  have hresplit : m.Resplit ↔ Resplits m groups := by
    constructor
    · rintro ⟨groups', hgroups', hsplits⟩
      exact Option.some.inj (hgroups'.symm.trans hgroups) ▸ hsplits
    · exact fun hsplits => ⟨groups, hgroups, hsplits⟩
  rw [hresplit]
  constructor
  · exact fun hflow hsplits => not_flowKept_of_resplits hm hgrouped hsplits hrenamed hflow
  · intro hnot
    rw [expandVersions_eq_self hnot] at hrenamed
    exact flowKept_of_not_resplits hm hgrouped hrenamed

end Flow

section SharedNull

/-- `v0 = new Exception()`, `v0 = 0` and `v0 = 5`; `throw v0` after the first two, and
`return v0` after the last two. -/
def sharedNull : VarCode where
  objs := fun _ => { vid := .reg 0, type := "I" }
  nextObj := 1
  locToIns := fun loc => match loc with
    | 0 => some (.assign (some (.reg 0)) (AList.singleton (.reg 0) (.variable 0))
        (.form ⟨.newInstance "Ljava/lang/Exception;", [], ∅⟩))
    | 1 => some (.assign (some (.reg 0)) (AList.singleton (.reg 0) (.variable 0))
        (.operand (.constant (.named "c0") "I" 0)))
    | 2 => some (.assign (some (.reg 0)) (AList.singleton (.reg 0) (.variable 0))
        (.operand (.constant (.named "c5") "I" 5)))
    | 3 => some (.other ⟨.ref, [.reg 0], AList.singleton (.reg 0) (.variable 0)⟩)
    | 4 => some (.other ⟨.returnInstruction, [.reg 0], AList.singleton (.reg 0) (.variable 0)⟩)
    | _ => none
  lvars := AList.singleton 0 0
  du := ⟨[⟨(.reg 0, 0), [3]⟩, ⟨(.reg 0, 1), [3, 4]⟩, ⟨(.reg 0, 2), [4]⟩],
    by simp [List.NodupKeys, List.keys]⟩
  ud := ⟨[⟨(.reg 0, 3), [0, 1]⟩, ⟨(.reg 0, 4), [1, 2]⟩], by simp [List.NodupKeys, List.keys]⟩

theorem mem_locs {t : ChainTable} {v : Vid} {i j : Int} :
    j ∈ t.locs v i ↔ ∃ l, ⟨(v, i), l⟩ ∈ t.entries ∧ j ∈ l := by
  unfold ChainTable.locs
  cases hl : t.lookup (v, i) with
  | none =>
    refine iff_of_false (by simp) ?_
    rintro ⟨l, hmem, -⟩
    rw [Option.mem_def.mp (AList.mem_lookup_iff.mpr hmem)] at hl
    cases hl
  | some l =>
    constructor
    · exact fun hj => ⟨l, AList.mem_lookup_iff.mp hl, hj⟩
    · rintro ⟨l', hmem, hj⟩
      have hl' := Option.mem_def.mp (AList.mem_lookup_iff.mpr hmem)
      obtain rfl := Option.some.inj (hl.symm.trans hl')
      exact hj

/-- What the method has at a location. -/
theorem sharedNull_ins {loc : Int} {ins : Ins} (h : sharedNull.locToIns loc = some ins) :
    0 ≤ loc ∧ ins.Shaped ∧ (∀ v, ins.getLhs = some v →
      v = .reg 0 ∧ ins.written = some (.variable 0)) ∧
      ∀ v ∈ ins.slots, v = .reg 0 ∧ ins.readAt (.reg 0) = some (.variable 0) := by
  have hsingle : (AList.singleton (Vid.reg 0) (Operand.variable 0) : VarMap).lookup (.reg 0) =
      some (.variable 0) := rfl
  unfold sharedNull at h
  dsimp only at h
  split at h
  · cases h
    simp [Ins.Shaped, FlatForm.Shaped, Ins.getLhs, Ins.written, Ins.slots, hsingle]
  · cases h
    simp [Ins.Shaped, Ins.getLhs, Ins.written, Ins.slots, hsingle]
  · cases h
    simp [Ins.Shaped, Ins.getLhs, Ins.written, Ins.slots, hsingle]
  · cases h
    simp [Ins.Shaped, FlatForm.Shaped, FormClass.fixed, Ins.getLhs, Ins.slots, Ins.readAt, hsingle]
  · cases h
    simp [Ins.Shaped, FlatForm.Shaped, FormClass.fixed, Ins.getLhs, Ins.slots, Ins.readAt, hsingle]
  · cases h

theorem sharedNull_wired : sharedNull.Wired where
  mirrored v d u := by
    rw [mem_locs, mem_locs]
    by_cases hv : v = .reg 0
    · simp [sharedNull, hv]
      grind
    · simp [sharedNull, hv]
  defs v d l h hd := by
    have hmem := AList.mem_lookup_iff.mp (Option.mem_def.mpr h)
    have hcases : v = .reg 0 ∧ (d = 0 ∨ d = 1 ∨ d = 2) := by
      simp [sharedNull] at hmem
      tauto
    obtain ⟨rfl, rfl | rfl | rfl⟩ := hcases <;> exact ⟨_, rfl, rfl⟩
  uses v u l h := by
    have hmem := AList.mem_lookup_iff.mp (Option.mem_def.mpr h)
    have hcases : v = .reg 0 ∧ (u = 3 ∨ u = 4) := by
      simp [sharedNull] at hmem
      tauto
    obtain ⟨rfl, rfl | rfl⟩ := hcases <;> exact ⟨_, rfl, List.mem_cons_self⟩
  located loc ins h := (sharedNull_ins h).1
  shaped loc ins h := (sharedNull_ins h).2.1
  writes loc ins n h hlhs := by
    obtain ⟨hn, hwritten⟩ := (sharedNull_ins h).2.2.1 _ hlhs
    obtain rfl := Vid.reg.inj hn
    exact ⟨0, rfl, hwritten⟩
  reads loc ins n h hslot := by
    obtain ⟨hn, hread⟩ := (sharedNull_ins h).2.2.2 _ hslot
    obtain rfl := Vid.reg.inj hn
    exact ⟨0, rfl, hread⟩
  params v d l h hneg := by
    have hmem := AList.mem_lookup_iff.mp (Option.mem_def.mpr h)
    simp [sharedNull] at hmem
    omega
  incoming v d l d' l' h h' hneg hneg' := by
    have hmem := AList.mem_lookup_iff.mp (Option.mem_def.mpr h)
    simp [sharedNull] at hmem
    omega

theorem split_variables_flow_sharedNull : ∃ m', splitVariables sharedNull = some m' ∧
    (FlowKept sharedNull m' ↔ ¬sharedNull.Resplit) :=
  split_variables_flow sharedNull sharedNull_wired

/-- The constant zero writes the variable of the exception, and its use in the `return` reads
that of the literal. -/
theorem split_variables_loses : ∃ m', splitVariables sharedNull = some m' ∧
    ¬FlowKept sharedNull m' := by
  obtain ⟨m', hrun, hread⟩ : ∃ m', splitVariables sharedNull = some m' ∧
      (m'.writes 0 1, (m'.locToIns 4).map Ins.reads) =
        (some (.variable 1), some [some (.variable 2)]) := by
    have hrun : (splitVariables sharedNull).map (fun m' =>
        (m'.writes 0 1, (m'.locToIns 4).map Ins.reads)) =
        some (some (.variable 1), some [some (.variable 2)]) := by decide
    obtain ⟨m', hm', heq⟩ := Option.map_eq_some_iff.mp hrun
    exact ⟨m', hm', heq⟩
  refine ⟨m', hrun, fun hflow => ?_⟩
  obtain ⟨hwrites, hreads⟩ := Prod.mk.inj hread
  obtain ⟨o, hwrites', hreads'⟩ := hflow.paired 0 1 4 (by decide)
  obtain ⟨ins', hins', hread'⟩ := hreads' _ rfl
  rw [hins', Option.map_some, Option.some.injEq] at hreads
  have ho := hread' 0 rfl
  rw [hreads] at ho
  rw [hwrites] at hwrites'
  cases hwrites'
  cases ho

end SharedNull

end Dexllm.Dad.VarSplit
