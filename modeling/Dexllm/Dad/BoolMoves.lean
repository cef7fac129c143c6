import Dexllm.Lib.Association
import Dexllm.Lib.Spread
import Dexllm.Dad.FloatMoves

/-!
The re-types to `boolean`: a version used as one is a seed where its whole component of
moves can be boolean, and the type then spreads along the moves. A move that only one
constant reaches joins no component, but the type spreads backwards over it all the same.
-/

namespace Dexllm

open Association

namespace Dad

/-- The right-hand side of a definition: a version, a constant, or another with its type. -/
inductive BoolRhs where
  | ident (vid : Vid)
  | const (type : Text) (value : Int)
  | other (type : Text)

/-- A definition: its right-hand side, whether it is a move, and whether only one constant
reaches the source there (`OnlyAConstantReaches`). -/
structure BoolDef where
  rhs : Option BoolRhs
  move : Bool
  lone : Bool

/-- What the branches before the `Z` branch make of a version: they skip it, re-type it, or
leave it to the branches that follow. -/
inductive Earlier where
  | skipped
  | retyped (type : Text)
  | reached

/-- What the re-type branches know of a method. -/
structure BoolPass where
  defsOf : List (Vid × List BoolDef)
  nodup : (defsOf.map Prod.fst).Nodup
  /-- The Variable of a version, with its type. -/
  var : Vid → Option (VarKind × Text)
  declaredParams : List (Vid × Text)
  boolUse : Vid → Bool
  intUse : Vid → Bool
  intRequired : Vid → Bool
  primUse : Vid → Bool
  objectVids : Vid → Bool
  /-- The positions of `int_pos` and `num_pos`: whether only one constant reaches each. -/
  positions : Vid → List Bool
  earlier : Vid → Earlier
  /-- The re-type of the branches after the `Z` branch. -/
  later : Vid → Option Text

def typeZ : Text := ascii "Z"

/-- The version a definition copies. -/
def BoolDef.source (d : BoolDef) : Option Vid :=
  match d.rhs with
  | some (.ident sid) => some sid
  | _ => none

namespace BoolPass

variable (p : BoolPass)

abbrev defined (vid : Vid) : Option (List BoolDef × (VarKind × Text)) :=
  definedIn p.defsOf p.var vid

/-- The type of a version: a parameter that is never written has its declared one. -/
def typeOf (vid : Vid) : Text :=
  let own := ((p.var vid).map Prod.snd).getD []
  match p.defsOf.lookup vid with
  | none => (p.declaredParams.lookup vid).getD own
  | some _ => own

/-- The loop over definitions: `none` when one blocks, else whether a producer was reached. -/
def allBoolValued (valued : BoolRhs → Option Bool) (ds : List BoolDef) : Option Bool :=
  ds.foldl (fun ground d =>
    match ground, d.rhs with
    | some g, some r => (valued r).map (g || ·)
    | _, _ => none) (some false)

/-- `is_bool_valued`, for `fuel` versions inside each other. -/
def isBoolValued : (fuel : Nat) → List Vid → BoolRhs → Option Bool
  | 0, _, _ => none
  | fuel + 1, seen, rhs =>
    match rhs with
    | .ident sid =>
      if sid ∈ seen then some false
      else match p.defsOf.lookup sid with
        | none => if p.typeOf sid = typeZ then some true else none
        | some ds => allBoolValued (isBoolValued fuel (sid :: seen)) ds
    | .const type value =>
      if isNarrowInt type && (value = 0 || value = 1) then some true else none
    | .other type => if type = typeZ then some true else none

/-- `all_defs_boolean_valued`. A version inside another is one of `defs_of` that was not
seen, so that the fuel does not run out. -/
def allDefsBoolValued (vid : Vid) (ds : List BoolDef) : Bool :=
  allBoolValued (p.isBoolValued (p.defsOf.length + 1) [vid]) ds = some true

/-- `declared_param_is_boolean`. -/
def declaredParamIsBoolean (vid : Vid) (var : VarKind × Text) : Bool :=
  var.1 = .local || p.declaredParams.lookup vid = some typeZ

/-- `numeric_use`. -/
def numericUse (vid : Vid) : Bool :=
  (p.intUse vid || p.intRequired vid || p.primUse vid) &&
    ((p.positions vid).any (!·) || (p.positions vid).isEmpty)

/-- The moves that something other than one constant reaches, as (source, destination). -/
def flows : List (Vid × Vid) :=
  p.defsOf.flatMap fun e => e.2.filterMap fun d =>
    if d.move && !d.lone then d.source.map (·, e.1) else none

/-- `move_dests`. -/
def moveDests (src : Vid) : List Vid := (p.flows.filter fun e => e.1 = src).map Prod.snd

/-- `move_srcs`. -/
def moveSrcs (dst : Vid) : List Vid := (p.flows.filter fun e => e.2 = dst).map Prod.fst

/-- The members of the component of a version. -/
def members (vid : Vid) : List Vid :=
  Spread.spread true (fun v => p.moveDests v ++ p.moveSrcs v) (1 + 2 * p.flows.length) [vid] [vid]

/-- `member_ok`. -/
def memberOk (vid : Vid) : Bool :=
  if p.numericUse vid || p.objectVids vid then false
  else match p.defined vid with
    | none => false
    | some (ds, var) =>
      if var.2 = typeZ then true
      else isNarrowInt var.2 && var.1 ≠ .this && p.declaredParamIsBoolean vid var &&
        p.allDefsBoolValued vid ds

/-- `component_ok`. -/
def componentOk (vid : Vid) : Bool :=
  (p.members vid).length ≤ 100000 && (p.members vid).all p.memberOk

/-- The condition of the `Z` branch. -/
def isSeed (vid : Vid) (ds : List BoolDef) (var : VarKind × Text) : Bool :=
  isPrimDesc var.2 && var.2 ≠ typeZ && isNarrowInt var.2 && p.boolUse vid && !p.numericUse vid &&
    !p.objectVids vid && var.1 ≠ .this && p.declaredParamIsBoolean vid var &&
    p.allDefsBoolValued vid ds && p.componentOk vid

/-- The re-type of one version by the branches, and whether it is a seed. -/
def retypeOf (vid : Vid) : Option (Text × Bool) :=
  match p.defined vid with
  | none => none
  | some (ds, var) =>
    match p.earlier vid with
    | .skipped => none
    | .retyped type => some (type, false)
    | .reached => if p.isSeed vid ds var then some (typeZ, true) else (p.later vid).map (·, false)

/-- `retypes`, after the loop over the versions. -/
def retypes : List (Vid × Text) :=
  p.defsOf.filterMap fun e => (p.retypeOf e.1).map fun r => (e.1, r.1)

/-- `z_seeds`. -/
def zSeeds : List Vid := (p.defsOf.filter fun e => (p.retypeOf e.1).any Prod.snd).map Prod.fst

/-- The versions that the propagation looks at from one: those it copies, over any move, and
those it flows into. -/
def neighbours (vid : Vid) : List Vid :=
  ((p.defsOf.lookup vid).getD []).filterMap BoolDef.source ++ p.moveDests vid

/-- The guards of the propagation. -/
def passes (vid : Vid) : Bool :=
  vid ≠ [] && match p.defined vid with
    | none => false
    | some (ds, var) =>
      var.2 ≠ typeZ && isNarrowInt var.2 && !p.numericUse vid && !p.objectVids vid &&
        var.1 ≠ .this && p.declaredParamIsBoolean vid var && (p.retypes.lookup vid).isNone &&
        p.allDefsBoolValued vid ds

/-- `zed`: the seeds, and the versions that the propagation re-types. -/
def zed : List Vid :=
  Spread.spread false (fun v => (p.neighbours v).filter p.passes) p.defsOf.length p.zSeeds p.zSeeds

/-- `retypes`, after the propagation. -/
def finalRetypes : List (Vid × Text) :=
  p.retypes ++ (p.zed.drop p.zSeeds.length).map (·, typeZ)

/-- The version ends as a boolean, by its type or by its re-type. -/
def EndsZ (vid : Vid) : Prop := (p.finalRetypes.lookup vid).getD (p.typeOf vid) = typeZ

/-- No flow has one end re-typed to `Z` and another that is none, and no version is
re-typed twice. -/
structure Unsplit : Prop where
  flow : ∀ src dst, (src, dst) ∈ p.flows → src ∈ p.zed ∨ dst ∈ p.zed → p.EndsZ src ∧ p.EndsZ dst
  once : (p.finalRetypes.map Prod.fst).Nodup

/-- The two versions are the ends of a flow. -/
def Joined (v u : Vid) : Prop := (v, u) ∈ p.flows ∨ (u, v) ∈ p.flows

/-- The versions that a chain of moves joins to a seed, each of which passes the guards. -/
inductive Carried : Vid → Prop where
  | seed {v : Vid} (hseed : v ∈ p.zSeeds) : Carried v
  | step {v u : Vid} (h : Carried v) (hnext : u ∈ p.neighbours v) (hpass : p.passes u = true) :
      Carried u

/-- `Carried`, over flows alone. -/
inductive CarriedByFlows : Vid → Prop where
  | seed {v : Vid} (hseed : v ∈ p.zSeeds) : CarriedByFlows v
  | step {v u : Vid} (h : CarriedByFlows v) (hnext : p.Joined v u) (hpass : p.passes u = true) :
      CarriedByFlows u

/-- A version can be the other end of a flow: it is re-typed to `Z` by a branch, or it is
left alone by all of them and is a boolean already or passes the guards. -/
def Fits (vid : Vid) : Prop :=
  match p.retypes.lookup vid with
  | some type => type = typeZ
  | none => p.typeOf vid = typeZ ∨ p.passes vid = true

end BoolPass

section Maps

variable {p : BoolPass} {vid : Vid}

namespace BoolPass

theorem mem_flows {src dst : Vid} : (src, dst) ∈ p.flows ↔ ∃ ds, (dst, ds) ∈ p.defsOf ∧
    ∃ d ∈ ds, d.move = true ∧ d.lone = false ∧ d.source = some src := by
  simp only [flows, List.mem_flatMap, List.mem_filterMap, Prod.exists]
  constructor
  · rintro ⟨dst', ds, hds, d, hd, hflow⟩
    split at hflow
    · rename_i hmove
      obtain ⟨src', hsource, heq⟩ := Option.map_eq_some_iff.mp hflow
      obtain ⟨rfl, rfl⟩ := Prod.mk.inj heq
      simp only [Bool.and_eq_true, Bool.not_eq_true'] at hmove
      exact ⟨ds, hds, d, hd, hmove.1, hmove.2, hsource⟩
    · cases hflow
  · rintro ⟨ds, hds, d, hd, hmove, hlone, hsource⟩
    exact ⟨dst, ds, hds, d, hd, by simp [hmove, hlone, hsource]⟩

theorem mem_moveDests {src dst : Vid} : dst ∈ p.moveDests src ↔ (src, dst) ∈ p.flows :=
  mem_valuesOf

theorem mem_moveSrcs {src dst : Vid} : src ∈ p.moveSrcs dst ↔ (src, dst) ∈ p.flows :=
  mem_keysOf

/-- The propagation looks over both ends of a flow. -/
theorem Joined.mem_neighbours {v u : Vid} (h : p.Joined v u) : u ∈ p.neighbours v := by
  unfold neighbours
  obtain h | h := h
  · exact List.mem_append_right _ (mem_moveDests.mpr h)
  · obtain ⟨ds, hds, d, hd, -, -, hsource⟩ := mem_flows.mp h
    rw [lookup_of_mem p.nodup hds, Option.getD_some]
    exact List.mem_append_left _ (List.mem_filterMap.mpr ⟨d, hd, hsource⟩)

theorem nodup_retypes (p : BoolPass) : (p.retypes.map Prod.fst).Nodup := by
  have heq : p.retypes.map Prod.fst =
      (p.defsOf.map Prod.fst).filter fun v => (p.retypeOf v).isSome := by
    rw [retypes, List.map_filterMap, List.filter_map, ← List.filterMap_eq_map,
      List.filterMap_filter]
    refine List.filterMap_congr fun e _ => ?_
    cases hretype : p.retypeOf e.1 <;> simp [hretype]
  rw [heq]
  exact p.nodup.sublist List.filter_sublist

theorem retypes_lookup : p.retypes.lookup vid = (p.retypeOf vid).map Prod.fst := by
  cases hretype : p.retypeOf vid with
  | none =>
    rw [Option.map_none, lookup_eq_none_iff]
    rintro e he rfl
    obtain ⟨e', -, heq⟩ := List.mem_filterMap.mp he
    obtain ⟨r, hr, rfl⟩ := Option.map_eq_some_iff.mp heq
    rw [hretype] at hr
    cases hr
  | some r =>
    refine lookup_of_mem p.nodup_retypes (List.mem_filterMap.mpr ?_)
    have hkey : ∃ ds, (vid, ds) ∈ p.defsOf := by
      unfold retypeOf at hretype
      split at hretype
      · cases hretype
      · rename_i ds var hdefined
        exact ⟨ds, mem_of_lookup (definedIn_eq_some.mp hdefined).1⟩
    obtain ⟨ds, hds⟩ := hkey
    exact ⟨(vid, ds), hds, by simp [hretype]⟩

end BoolPass

end Maps

namespace BoolPass

section Zed

variable {p : BoolPass} {vid : Vid}

theorem seed_spec (h : vid ∈ p.zSeeds) : p.retypes.lookup vid = some typeZ ∧
    ∃ ds var, p.defined vid = some (ds, var) ∧ p.isSeed vid ds var = true := by
  obtain ⟨e, he, rfl⟩ := List.mem_map.mp h
  obtain ⟨r, hr, hseed⟩ := (Option.any_eq_true _ _).mp (List.mem_filter.mp he).2
  rw [retypes_lookup, hr]
  unfold retypeOf at hr
  split at hr
  · cases hr
  rename_i ds var hdefined
  split at hr
  · cases hr
  · obtain rfl := Option.some.inj hr
    cases hseed
  · split at hr
    · rename_i hok
      obtain rfl := Option.some.inj hr
      exact ⟨rfl, ds, var, hdefined, hok⟩
    · obtain ⟨type, -, rfl⟩ := Option.map_eq_some_iff.mp hr
      cases hseed

theorem mem_keys_of_passes (h : p.passes vid = true) : vid ∈ p.defsOf.map Prod.fst := by
  unfold passes at h
  split at h
  · simp at h
  · rename_i ds var hdefined
    exact List.mem_map_of_mem (mem_of_lookup (definedIn_eq_some.mp hdefined).1)

theorem lookup_of_passes (h : p.passes vid = true) : p.retypes.lookup vid = none := by
  unfold passes at h
  split at h
  · simp at h
  · simp only [Bool.and_eq_true, Option.isNone_iff_eq_none] at h
    exact h.2.1.2

theorem nodup_zSeeds (p : BoolPass) : p.zSeeds.Nodup :=
  p.nodup.sublist (List.filter_sublist.map _)

theorem mem_zed : vid ∈ p.zed ↔ p.Carried vid := by
  have hspread : vid ∈ p.zed ↔ ∃ s ∈ p.zSeeds,
      Spread.Reaches (fun v => (p.neighbours v).filter p.passes) s vid :=
    Spread.mem_spread_iff p.nodup_zSeeds ((List.filter_sublist.map Prod.fst).subset)
      (fun v _ u hu => mem_keys_of_passes (List.mem_filter.mp hu).2) (by rw [List.length_map])
  rw [hspread]
  clear hspread
  constructor
  · rintro ⟨s, hs, hreach⟩
    induction hreach with
    | refl => exact .seed hs
    | tail _ hstep ih =>
      obtain ⟨hnext, hpass⟩ := List.mem_filter.mp hstep
      exact .step ih hnext hpass
  · intro hcarried
    induction hcarried with
    | seed hseed => exact ⟨_, hseed, .refl⟩
    | step _ hnext hpass ih =>
      obtain ⟨s, hs, hreach⟩ := ih
      exact ⟨s, hs, hreach.tail (List.mem_filter.mpr ⟨hnext, hpass⟩)⟩

/-- What the propagation adds passes its guards. -/
theorem passes_of_mem_zed (h : vid ∈ p.zed) (hseed : vid ∉ p.zSeeds) : p.passes vid = true := by
  cases mem_zed.mp h with
  | seed hmem => exact absurd hmem hseed
  | step _ _ hpass => exact hpass

theorem mem_drop_zed : vid ∈ p.zed.drop p.zSeeds.length ↔ vid ∈ p.zed ∧ vid ∉ p.zSeeds := by
  have hnodup : p.zed.Nodup := Spread.nodup_spread p.nodup_zSeeds
  obtain ⟨new, hnew⟩ : ∃ new, p.zed = p.zSeeds ++ new := Spread.exists_spread_eq_append
  rw [hnew, List.drop_left, List.mem_append]
  rw [hnew] at hnodup
  constructor
  · exact fun h => ⟨.inr h, fun hseed => (List.nodup_append.mp hnodup).2.2 vid hseed vid h rfl⟩
  · exact fun h => h.1.resolve_left h.2

/-- The type that a version ends with. -/
theorem endsZ_iff : p.EndsZ vid ↔
    match p.retypes.lookup vid with
    | some type => type = typeZ
    | none => p.typeOf vid = typeZ ∨ vid ∈ p.zed := by
  unfold EndsZ finalRetypes
  rw [List.lookup_append]
  cases hlookup : p.retypes.lookup vid with
  | some type => rw [Option.some_or, Option.getD_some]
  | none =>
    have hseed : vid ∉ p.zSeeds := fun h => by
      rw [(seed_spec h).1] at hlookup
      cases hlookup
    rw [Option.none_or]
    cases hnew : ((p.zed.drop p.zSeeds.length).map (·, typeZ)).lookup vid with
    | some type =>
      obtain ⟨v, hv, heq⟩ := List.mem_map.mp (mem_of_lookup hnew)
      obtain ⟨rfl, rfl⟩ := Prod.mk.inj heq
      exact ⟨fun _ => .inr (mem_drop_zed.mp hv).1, fun _ => rfl⟩
    | none =>
      rw [lookup_eq_none_iff] at hnew
      refine (or_iff_left fun hmem => ?_).symm
      exact hnew (vid, typeZ) (List.mem_map_of_mem (mem_drop_zed.mpr ⟨hmem, hseed⟩)) rfl

theorem endsZ_of_mem_zed (h : vid ∈ p.zed) : p.EndsZ vid := by
  rw [endsZ_iff]
  by_cases hseed : vid ∈ p.zSeeds
  · rw [(seed_spec hseed).1]
  · rw [lookup_of_passes (passes_of_mem_zed h hseed)]
    exact .inr h

/-- No version is re-typed twice. -/
theorem nodup_finalRetypes (p : BoolPass) : (p.finalRetypes.map Prod.fst).Nodup := by
  have hnodup : p.zed.Nodup := Spread.nodup_spread p.nodup_zSeeds
  rw [finalRetypes, List.map_append, List.map_map]
  refine List.nodup_append.mpr ⟨p.nodup_retypes, ?_, ?_⟩
  · rw [show Prod.fst ∘ (fun v : Vid => (v, typeZ)) = id from rfl, List.map_id]
    exact hnodup.sublist (List.drop_sublist _ _)
  · rintro a ha b hb rfl
    obtain ⟨e, he, rfl⟩ := List.mem_map.mp ha
    obtain ⟨v, hv, heq⟩ := List.mem_map.mp hb
    obtain ⟨hzed, hseed⟩ := mem_drop_zed.mp hv
    have hnone := lookup_of_passes (passes_of_mem_zed hzed hseed)
    exact lookup_eq_none_iff.mp hnone e he heq.symm

end Zed

section Main

variable {p : BoolPass} {v u : Vid}

/-- The members of a component are those that flows join to it. -/
theorem mem_members : u ∈ p.members v ↔ Relation.ReflTransGen p.Joined v u := by
  have hspread : u ∈ p.members v ↔ ∃ s ∈ [v],
      Spread.Reaches (fun w => p.moveDests w ++ p.moveSrcs w) s u := by
    have hstart : [v] ⊆ v :: (p.flows.map Prod.snd ++ p.flows.map Prod.fst) := by simp
    refine Spread.mem_spread_iff (List.nodup_singleton v) hstart
      (fun w _ x hx => List.mem_cons_of_mem _ ?_) ?_
    · obtain hx | hx := List.mem_append.mp hx
      · exact List.mem_append_left _ (List.mem_map_of_mem (mem_moveDests.mp hx))
      · exact List.mem_append_right _ (List.mem_map_of_mem (mem_moveSrcs.mp hx))
    · simp only [List.length_cons, List.length_append, List.length_map]
      omega
  have hjoined (w x : Vid) : x ∈ p.moveDests w ++ p.moveSrcs w ↔ p.Joined w x := by
    rw [List.mem_append, mem_moveDests, mem_moveSrcs, Joined]
  simp only [List.mem_singleton, exists_eq_left, Spread.Reaches, hjoined] at hspread
  exact hspread

/-- A version that flows alone join to a seed was checked with it: only a re-type by another
branch takes it out. -/
theorem fits_of_joined (hcarried : p.CarriedByFlows v) (hjoined : p.Joined v u) (hu : u ≠ [])
    (hfree : p.retypes.lookup u = none) : p.Fits u := by
  have hmember : ∃ s ∈ p.zSeeds, v ∈ p.members s := by
    clear hjoined
    induction hcarried with
    | seed hseed => exact ⟨_, hseed, mem_members.mpr .refl⟩
    | step _ hnext _ ih =>
      obtain ⟨s, hs, hv⟩ := ih
      exact ⟨s, hs, mem_members.mpr ((mem_members.mp hv).tail hnext)⟩
  obtain ⟨s, hs, hv⟩ := hmember
  obtain ⟨-, ds, var, -, hseed⟩ := seed_spec hs
  have hok : p.memberOk u = true := by
    simp only [isSeed, componentOk, Bool.and_eq_true, List.all_eq_true] at hseed
    exact hseed.2.2 u (mem_members.mpr ((mem_members.mp hv).tail hjoined))
  unfold memberOk at hok
  split at hok
  · cases hok
  rename_i hguard
  split at hok
  · cases hok
  rename_i ds' var' hdefined
  obtain ⟨hds, -, hvar⟩ := definedIn_eq_some.mp hdefined
  rw [Fits, hfree]
  dsimp only
  by_cases hz : var'.2 = typeZ
  · exact .inl (by simp [typeOf, hds, hvar, hz])
  · rw [if_neg hz] at hok
    refine .inr ?_
    simp only [Bool.or_eq_true, not_or, Bool.not_eq_true] at hguard
    simp only [Bool.and_eq_true] at hok
    simp [passes, hdefined, hu, hz, hguard.1, hguard.2, hok.1.1.1, hok.1.2, hok.2, hfree]
    simpa using hok.1.1.2

/-- The re-types to `Z` split no flow, and re-type no version twice, exactly where every
version that a flow joins to a version carried from a seed fits; and one that does not is
re-typed by another branch, or joined to a version that only a move not counted as a flow
carries. -/
theorem unsplit_iff (p : BoolPass) :
    (p.Unsplit ↔ ∀ v u, p.Carried v → p.Joined v u → p.Fits u) ∧
      ∀ v u, p.CarriedByFlows v → p.Joined v u → u ≠ [] → p.retypes.lookup u = none → p.Fits u := by
  refine ⟨⟨fun h v u hcarried hjoined => ?_, fun h => ⟨fun src dst hflow hzed => ?_,
    p.nodup_finalRetypes⟩⟩, fun v u => fits_of_joined⟩
  · have hends : p.EndsZ u := by
      obtain hflow | hflow := hjoined
      · exact (h.flow v u hflow (.inl (mem_zed.mpr hcarried))).2
      · exact (h.flow u v hflow (.inr (mem_zed.mpr hcarried))).1
    rw [endsZ_iff] at hends
    unfold Fits
    cases hlookup : p.retypes.lookup u with
    | some type =>
      rw [hlookup] at hends
      exact hends
    | none =>
      rw [hlookup] at hends
      refine hends.imp_right fun hmem => passes_of_mem_zed hmem fun hseed => ?_
      rw [(seed_spec hseed).1] at hlookup
      cases hlookup
  · have hother {v u : Vid} (hv : v ∈ p.zed) (hjoined : p.Joined v u) : p.EndsZ u := by
      have hcarried := mem_zed.mp hv
      have hfits := h v u hcarried hjoined
      rw [endsZ_iff]
      unfold Fits at hfits
      cases hlookup : p.retypes.lookup u with
      | some type =>
        rw [hlookup] at hfits
        exact hfits
      | none =>
        rw [hlookup] at hfits
        exact hfits.imp_right fun hpass =>
          mem_zed.mpr (.step hcarried hjoined.mem_neighbours hpass)
    obtain hsrc | hdst := hzed
    · exact ⟨endsZ_of_mem_zed hsrc, hother hsrc (.inl hflow)⟩
    · exact ⟨hother hdst (.inr hflow), endsZ_of_mem_zed hdst⟩

/-- A flag that is 0 where it is moved into the returned version, and either 0 or 1 where it
is moved into an index. -/
def sharedFlag : BoolPass where
  defsOf := [
    ([0x61], [⟨some (.const (ascii "I") 0), false, false⟩,
      ⟨some (.const (ascii "I") 1), false, false⟩]),
    ([0x62], [⟨some (.ident [0x61]), true, true⟩]),
    ([0x63], [⟨some (.ident [0x61]), true, false⟩])]
  nodup := by decide
  var _ := some (.local, ascii "I")
  declaredParams := []
  boolUse vid := vid = [0x62]
  intUse vid := vid = [0x63]
  intRequired _ := false
  primUse _ := false
  objectVids _ := false
  positions vid := if vid = [0x63] then [false] else []
  earlier _ := .reached
  later _ := none

theorem sharedFlag_split : ¬∀ p : BoolPass, p.Unsplit := by
  intro hall
  have hflow := ((hall sharedFlag).flow [0x61] [0x63] (by decide) (.inl (by decide))).2
  exact absurd hflow (by unfold EndsZ; decide)

end Main

end BoolPass

end Dad

end Dexllm
