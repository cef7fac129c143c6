import Dexllm.CallSites
import Dexllm.Flow.BuildersAgree
import Dexllm.Flow.InvokeSites
import Dexllm.Lib.Keyed

/-!
The call-graph queries agree: a walk over the body of a method and a look into
the caller index list the same calls, and no call is listed twice.
-/

namespace Dexllm

open Guarded Bytes Keyed

section Parse

variable {api cls name proto : List UInt8}

theorem parse_text {p : MethodParts} (hp : p.WellFormed) :
    parseApiDescriptor p.text = some (p.cls, p.name, p.proto) := by
  have harrow : splitArrow p.text = some (p.cls, p.name ++ p.proto) :=
    splitArrow_append fun hmem => hp.cls.not_punctuation hmem (by decide)
  have hparen : splitParen (p.name ++ p.proto) = some (p.name, p.proto) :=
    splitParen_append hp.name.not_paren
  have hproto : p.proto ≠ [] := List.cons_ne_nil _ _
  simp only [parseApiDescriptor, harrow, hparen]
  exact if_pos ⟨hp.cls.ne_nil, hp.name.1, hproto⟩

theorem text_of_parse (h : parseApiDescriptor api = some (cls, name, proto)) :
    api = cls ++ 0x2d :: 0x3e :: (name ++ proto) := by
  unfold parseApiDescriptor at h
  split at h
  · cases h
  rename_i cls' rest harrow
  split at h
  · cases h
  rename_i name' proto' hparen
  split at h
  · obtain ⟨rfl, hrest⟩ := Prod.mk.inj (Option.some.inj h)
    obtain ⟨rfl, rfl⟩ := Prod.mk.inj hrest
    rw [eq_of_splitArrow harrow, eq_of_splitParen hparen]
  · cases h

end Parse

section Item

variable {v : Verifier} {item : DexItem} {methodHandleCount t t' : Nat}
  {text api cls name proto : List UInt8}

section

variable (hl : Loaded v item) (hintra : v.IntraOk methodHandleCount)
include hl hintra

theorem describes_iff : item.Describes t text ↔ t < v.header.methodIdsSize ∧
    (partsOf v item (methodIdAt v.image (v.methodIdAddr t))).text = text := by
  rw [DexItem.Describes, hl.reader.header]
  constructor
  · rintro ⟨ht, hbuild⟩
    rw [buildMethodDescriptor_eq hl hintra ht] at hbuild
    exact ⟨ht, Except.ok.inj hbuild⟩
  · rintro ⟨ht, rfl⟩
    exact ⟨ht, buildMethodDescriptor_eq hl hintra ht⟩

theorem buildProtoDescriptor_eq (ht : t < v.header.methodIdsSize) :
    (do let pr ← item.reader.protoId (methodIdAt v.image (v.methodIdAddr t)).protoIdx
        item.buildProtoDescriptor pr) =
      .ok (partsOf v item (methodIdAt v.image (v.methodIdAddr t))).proto := by
  have hm := hintra.method t ht
  have hproto := hintra.proto _ hm.proto
  have hret := hl.typeNameOrEmpty hproto.returnType
  have hparams := (hl.paramDescriptors_eq hproto (hl.protoParams _ hm.proto)).1
  rw [protoId_eq hl hintra hm.proto, bind_ok, DexItem.buildProtoDescriptor, hparams, bind_ok,
    hret.2, bind_ok]
  rfl

theorem classMethods_eq (classIdx : Nat) :
    item.classMethods classIdx = .ok ((List.range v.header.methodIdsSize).filter fun i =>
      (methodIdAt v.image (v.methodIdAddr i)).classIdx = classIdx) := by
  have hloop (n : Nat) (hn : n ≤ v.header.methodIdsSize) :
      (loop n [] fun i methods => do
        let m ← item.reader.methodId i
        pure (if m.classIdx = classIdx then methods ++ [i] else methods)) =
      .ok ((List.range n).filter fun i =>
        (methodIdAt v.image (v.methodIdAddr i)).classIdx = classIdx) := by
    induction n with
    | zero => rfl
    | succ n ih =>
      rw [loop_succ, ih (by omega), bind_ok, methodId_eq hl hintra (by omega), bind_ok,
        List.range_succ, List.filter_append]
      by_cases hclass : (methodIdAt v.image (v.methodIdAddr n)).classIdx = classIdx
      · simp [hclass, pure, Except.pure]
      · simp [hclass, pure, Except.pure]
  rw [DexItem.classMethods, hl.reader.header]
  exact hloop _ (Nat.le_refl _)

theorem findNamed_eq (methods : List Nat) (hmethods : ∀ i ∈ methods, i < v.header.methodIdsSize) :
    item.findNamed name proto methods = .ok (methods.find? fun i =>
      let p := partsOf v item (methodIdAt v.image (v.methodIdAddr i))
      p.name = name ∧ p.proto = proto) := by
  induction methods with
  | nil => rfl
  | cons i methods ih =>
    have hi := hmethods i List.mem_cons_self
    have hrest := ih fun j hj => hmethods j (List.mem_cons_of_mem i hj)
    have hparts := (describeMethod_eq hl hintra (hintra.method i hi)).2
    obtain ⟨pr, hread, hbuild⟩ := bind_eq_ok.mp (buildProtoDescriptor_eq hl hintra hi)
    rw [DexItem.findNamed, methodId_eq hl hintra hi, bind_ok, vectorAt_eq_ok.mpr hparts.name,
      bind_ok, List.find?_cons]
    by_cases hname : (partsOf v item (methodIdAt v.image (v.methodIdAddr i))).name = name
    · rw [if_neg (not_not.mpr hname), hread, bind_ok, hbuild, bind_ok]
      by_cases hproto : (partsOf v item (methodIdAt v.image (v.methodIdAddr i))).proto = proto
      · simp [hname, hproto, pure, Except.pure]
      · simp [hproto, hrest]
    · simp [hname, hrest]

variable (hinter : v.InterOk)
include hinter

theorem parts_of_describes (h : item.Describes t text) :
    let p := partsOf v item (methodIdAt v.image (v.methodIdAddr t))
    PartsOf v item (methodIdAt v.image (v.methodIdAddr t)) p ∧ p.WellFormed ∧ p.text = text := by
  obtain ⟨ht, htext⟩ := (describes_iff hl hintra).mp h
  have hparts := (describeMethod_eq hl hintra (hintra.method t ht)).2
  exact ⟨hparts, hparts.wellFormed hl hintra hinter ht, htext⟩

/-- Two methods of a dex that print alike are one. -/
theorem describes_unique (h : item.Describes t text) (h' : item.Describes t' text) : t = t' := by
  obtain ⟨hparts, hwell, htext⟩ := parts_of_describes hl hintra hinter h
  obtain ⟨hparts', hwell', htext'⟩ := parts_of_describes hl hintra hinter h'
  have heq := MethodParts.text_injective hwell hwell' (htext.trans htext'.symm)
  have ht := ((describes_iff hl hintra).mp h).1
  have ht' := ((describes_iff hl hintra).mp h').1
  exact PartsOf.unique hl hintra hinter ht ht' hparts (heq ▸ hparts')

theorem parse_of_describes (h : item.Describes t text) :
    parseApiDescriptor text = some
      ((partsOf v item (methodIdAt v.image (v.methodIdAddr t))).cls,
        (partsOf v item (methodIdAt v.image (v.methodIdAddr t))).name,
        (partsOf v item (methodIdAt v.image (v.methodIdAddr t))).proto) := by
  obtain ⟨-, hwell, htext⟩ := parts_of_describes hl hintra hinter h
  rw [← htext]
  exact parse_text hwell

/-- Resolving an API in a dex finds the method that prints as it, if there is
one. -/
theorem resolveApi_spec (hparse : parseApiDescriptor api = some (cls, name, proto)) :
    ∃ r, item.resolveApi cls name proto = .ok r ∧ ∀ t, r = some t ↔ item.Describes t api := by
  have hclass {t : Nat} (h : item.Describes t api) :
      let p := partsOf v item (methodIdAt v.image (v.methodIdAddr t))
      item.typeNames[(methodIdAt v.image (v.methodIdAddr t)).classIdx]? = some cls ∧
        p.name = name ∧ p.proto = proto := by
    have hparts := (parts_of_describes hl hintra hinter h).1
    have hsame := Option.some.inj ((parse_of_describes hl hintra hinter h).symm.trans hparse)
    obtain ⟨hcls, hrest⟩ := Prod.mk.inj hsame
    obtain ⟨hname, hproto⟩ := Prod.mk.inj hrest
    exact ⟨hcls ▸ hparts.cls, hname, hproto⟩
  unfold DexItem.resolveApi
  cases hidx : item.typeNames.findIdx? (· == cls) with
  | none =>
    refine ⟨none, rfl, fun t => ?_⟩
    have hnot : ¬item.Describes t api := by
      intro h
      have hmem := List.mem_of_getElem? (hclass h).1
      have hnone := List.findIdx?_eq_none_iff.mp hidx cls hmem
      simp at hnone
    simp [hnot]
  | some typeIdx =>
    obtain ⟨hlt, htype, -⟩ := List.findIdx?_eq_some_iff_getElem.mp hidx
    have htype : item.typeNames[typeIdx]? = some cls := by
      rw [List.getElem?_eq_getElem hlt, eq_of_beq htype]
    have hmethods := classMethods_eq hl hintra typeIdx
    generalize hlist : ((List.range v.header.methodIdsSize).filter fun i =>
      decide ((methodIdAt v.image (v.methodIdAddr i)).classIdx = typeIdx)) = methods at hmethods
    have hmem {i : Nat} : i ∈ methods ↔ i < v.header.methodIdsSize ∧
        (methodIdAt v.image (v.methodIdAddr i)).classIdx = typeIdx := by
      rw [← hlist, List.mem_filter, List.mem_range, decide_eq_true_eq]
    have hrun := @findNamed_eq _ _ _ name proto hl hintra methods fun i hi => (hmem.mp hi).1
    generalize hfind : methods.find? _ = found at hrun
    have hsound {t : Nat} (h : found = some t) : item.Describes t api := by
      rw [h] at hfind
      obtain ⟨ht, hown⟩ := hmem.mp (List.mem_of_find?_eq_some hfind)
      have htest := List.find?_some hfind
      simp only [decide_eq_true_eq] at htest
      obtain ⟨hname, hproto⟩ := htest
      have hparts := (describeMethod_eq hl hintra (hintra.method t ht)).2
      have hcls := hparts.cls
      rw [hown, htype] at hcls
      apply (describes_iff hl hintra).mpr
      refine ⟨ht, ?_⟩
      rw [text_of_parse hparse, MethodParts.text, ← Option.some.inj hcls, hname, hproto]
      rfl
    refine ⟨found, ?_, fun t => ⟨hsound, fun h => ?_⟩⟩
    · simp only [hmethods, bind_ok, hrun]
    · obtain ⟨hget, hname, hproto⟩ := hclass h
      have ht := ((describes_iff hl hintra).mp h).1
      have hown := hl.typeName_unique hinter hget htype
      cases found with
      | none =>
        have hfail := List.find?_eq_none.mp hfind t (hmem.mpr ⟨ht, hown⟩)
        exact absurd (decide_eq_true ⟨hname, hproto⟩) hfail
      | some t' => rw [describes_unique hl hintra hinter (hsound rfl) h]

end

end Item

section Session

variable {kit : DexKit} {codes : MethodCodes} {callers : CallerIds}
  {api cls name proto : List UInt8}

theorem CodeSession.checked (h : CodeSession kit codes) {dexId : Nat} {item : DexItem}
    (hitem : kit.dexItems[dexId]? = some item) :
    ∃ v methodHandleCount, Loaded v item ∧ v.IntraOk methodHandleCount ∧ v.InterOk ∧
      (∃ image headerOff, openVerifier image headerOff true = .ok v) ∧
        CodesOk v (codes dexId) := by
  obtain ⟨image, headerOff, st, hok, hload, hcodes⟩ := h.strict dexId item hitem
  obtain ⟨v, methodHandleCount, deviations, haccepted⟩ := accepted_of_verifyDex hok
  exact ⟨v, methodHandleCount, loaded_of_loadDexItem haccepted hload, haccepted.intraOk,
    haccepted.interOk, ⟨image, headerOff, haccepted.opened⟩,
    codesOk_of_methodCodes haccepted hload hcodes⟩

section Unique

variable (h : CodeSession kit codes)
include h

theorem CodeSession.unique {dexId t t' : Nat} {item : DexItem} {text : List UInt8}
    (hitem : kit.dexItems[dexId]? = some item) (ht : item.Describes t text)
    (ht' : item.Describes t' text) : t = t' := by
  obtain ⟨v, methodHandleCount, hl, hintra, hinter, -, -⟩ := h.checked hitem
  exact describes_unique hl hintra hinter ht ht'

theorem CodeSession.resolves {dexId : Nat} {item : DexItem}
    (hitem : kit.dexItems[dexId]? = some item)
    (hparse : parseApiDescriptor api = some (cls, name, proto)) :
    ∃ r, item.resolveApi cls name proto = .ok r ∧ ∀ t, r = some t ↔ item.Describes t api := by
  obtain ⟨v, methodHandleCount, hl, hintra, hinter, -, -⟩ := h.checked hitem
  exact resolveApi_spec hl hintra hinter hparse

/-- Every method of the table prints. -/
theorem CodeSession.describes {dexId t : Nat} {item : DexItem}
    (hitem : kit.dexItems[dexId]? = some item) (ht : t < item.reader.header.methodIdsSize) :
    ∃ text, item.Describes t text := by
  obtain ⟨v, methodHandleCount, hl, hintra, -, -, -⟩ := h.checked hitem
  rw [hl.reader.header] at ht
  exact ⟨_, (describes_iff hl hintra).mpr ⟨ht, rfl⟩⟩

/-- A body of the session is one the strict verifier accepted. -/
theorem CodeSession.code {dexId m : Nat} {item : DexItem} {c : CodeItem}
    (hitem : kit.dexItems[dexId]? = some item)
    (hcode : item.getMethodCode (codes dexId) m = some c) :
    c.Decodes ∧ c.codeBytes < 2 ^ 32 ∧ m < item.reader.header.methodIdsSize ∧
      ∀ site ∈ c.enumerateInvokeSites, site.methodIdx < item.reader.header.methodIdsSize := by
  obtain ⟨v, methodHandleCount, hl, -, -, ⟨image, headerOff, hopen⟩, hcodes⟩ := h.checked hitem
  have hstrict : v.checkInsns = true := (post_of_ok (wp_openVerifier _ _ _) hopen).2.2.2
  unfold DexItem.getMethodCode at hcode
  obtain ⟨a, ha, hitemCode⟩ := Option.map_eq_some_iff.mp hcode
  rw [List.getD_eq_getElem?_getD] at ha
  have hget : (codes dexId)[m]? = some (some a) := by
    cases hm : (codes dexId)[m]? with
    | none => simp [hm] at ha
    | some code =>
      rw [hm, Option.getD_some] at ha
      rw [ha]
  obtain ⟨off, rfl, haccept⟩ := hcodes.2 m a hget
  have hc : c = v.codeItem off := by
    rw [← hitemCode, DexItem.codeItem, Verifier.codeItem, hl.reader.image]
  have hdecodes : c.Decodes := hc ▸ Verifier.decodes_of_verifyCodeItem hstrict haccept
  obtain ⟨hm, -⟩ := List.getElem?_eq_some_iff.mp hget
  refine ⟨hdecodes, hc ▸ Verifier.codeBytes_lt hopen haccept, ?_, fun site hsite => ?_⟩
  · rw [hl.reader.header, ← hcodes.1]
    exact hm
  · rw [CodeItem.enumerateInvokeSites_eq hdecodes] at hsite
    obtain ⟨k, hk, hsite⟩ := List.mem_flatMap.mp hsite
    rw [hl.reader.header]
    subst hc
    exact Verifier.callee_lt hstrict haccept hk (Option.mem_toList.mp hsite)

theorem CodeSession.invokes {o m t : Nat} (hinvokes : kit.Invokes codes o m t) :
    ∃ item, kit.dexItems[o]? = some item ∧ m < item.reader.header.methodIdsSize ∧
      ∃ text, item.Describes t text := by
  obtain ⟨item, hitem, site, hsite, rfl⟩ := hinvokes
  unfold DexKit.sitesOf at hsite
  split at hsite
  · simp at hsite
  · rename_i c hcode
    obtain ⟨-, -, hm, hcallee⟩ := h.code hitem hcode
    exact ⟨item, hitem, hm, h.describes hitem (hcallee site hsite)⟩

end Unique

section Collect

variable (h : CodeSession kit codes) (hparse : parseApiDescriptor api = some (cls, name, proto))
include h hparse

theorem callerRef_spec {i target : Nat} {item : DexItem} (hitem : kit.dexItems[i]? = some item)
    (htarget : item.Describes target api) (caller : Nat × Nat) :
    ∃ r, kit.callerRef cls name proto i target caller = .ok r ∧ ∀ ref, r = some ref ↔
      (ref.dexId, ref.callerIdx) = caller ∧ ∃ origin, kit.dexItems[ref.dexId]? = some origin ∧
        origin.Describes ref.localTarget api := by
  obtain ⟨o, m⟩ := caller
  unfold DexKit.callerRef
  by_cases hown : o = i
  · subst hown
    refine ⟨_, if_pos rfl, fun ref => ?_⟩
    constructor
    · rintro ⟨⟩
      exact ⟨rfl, item, hitem, htarget⟩
    · obtain ⟨dexId, callerIdx, localTarget⟩ := ref
      rintro ⟨⟨⟩, origin, horigin, hdescribes⟩
      obtain rfl := Option.some.inj (hitem.symm.trans horigin)
      have heq : localTarget = target := h.unique hitem hdescribes htarget
      rw [heq]
  · cases horigin : kit.dexItems[o]? with
    | none =>
      refine ⟨none, if_neg hown, fun ref => ?_⟩
      constructor
      · rintro ⟨⟩
      · obtain ⟨dexId, callerIdx, localTarget⟩ := ref
        rintro ⟨⟨⟩, origin, horigin', -⟩
        cases horigin.symm.trans horigin'
    | some origin =>
      obtain ⟨r, hr, hfound⟩ := h.resolves horigin hparse
      have hrun : (do
          let found ← origin.resolveApi cls name proto
          pure (found.map fun target => (⟨o, m, target⟩ : CallerRef))) =
          .ok (r.map fun t => ⟨o, m, t⟩) := by
        rw [hr]
        rfl
      refine ⟨_, (if_neg hown).trans hrun, fun ref => ?_⟩
      rw [Option.map_eq_some_iff]
      constructor
      · rintro ⟨t, ht, rfl⟩
        exact ⟨rfl, origin, horigin, (hfound t).mp ht⟩
      · obtain ⟨dexId, callerIdx, localTarget⟩ := ref
        rintro ⟨⟨⟩, origin', horigin', hdescribes⟩
        obtain rfl := Option.some.inj (horigin.symm.trans horigin')
        exact ⟨localTarget, (hfound _).mpr hdescribes, rfl⟩

/-- The callers one index lists, each once. -/
theorem callersIn_spec {i : Nat} {item : DexItem} (hitem : kit.dexItems[i]? = some item) :
    ∃ refs, kit.callersIn callers cls name proto i = .ok refs ∧
      (∀ ref, ref ∈ refs ↔ (∃ target, item.Describes target api ∧
        (ref.dexId, ref.callerIdx) ∈ (callers i).getD target []) ∧
        ∃ origin, kit.dexItems[ref.dexId]? = some origin ∧
          origin.Describes ref.localTarget api) ∧
      (refs.map fun ref => (ref.dexId, ref.callerIdx)).Nodup := by
  obtain ⟨r, hr, hfound⟩ := h.resolves hitem hparse
  unfold DexKit.callersIn
  rw [vectorAt_eq_ok.mpr hitem, bind_ok, hr, bind_ok]
  cases r with
  | none =>
    refine ⟨[], rfl, fun ref => ?_, List.nodup_nil⟩
    constructor
    · intro hmem
      simp at hmem
    · rintro ⟨⟨target, hdescribes, -⟩, -⟩
      cases (hfound target).mpr hdescribes
  | some target =>
    have htarget := (hfound target).mp rfl
    obtain ⟨g, hg, hrun⟩ := @exists_mapM _ _ _ (kit.callerRef cls name proto i target)
      (DexKit.sortedCallers callers i target) fun caller _ => by
        obtain ⟨r, hr, -⟩ := callerRef_spec h hparse hitem htarget caller
        exact ⟨r, hr⟩
    have hspec (caller : Nat × Nat) (hcaller : caller ∈ DexKit.sortedCallers callers i target)
        (ref : CallerRef) : g caller = some ref ↔ (ref.dexId, ref.callerIdx) = caller ∧
          ∃ origin, kit.dexItems[ref.dexId]? = some origin ∧
            origin.Describes ref.localTarget api := by
      obtain ⟨r, hr, hiff⟩ := callerRef_spec h hparse hitem htarget caller
      rw [hg caller hcaller] at hr
      rw [Except.ok.inj hr]
      exact hiff ref
    have hsorted {caller : Nat × Nat} : caller ∈ DexKit.sortedCallers callers i target ↔
        caller ∈ (callers i).getD target [] := by
      rw [DexKit.sortedCallers, List.mem_insertionSort, List.mem_dedup]
    refine ⟨(DexKit.sortedCallers callers i target).filterMap g, ?_, fun ref => ?_, ?_⟩
    · simp only [hrun, bind_ok, List.filterMap_map]
      rfl
    · rw [List.mem_filterMap]
      constructor
      · rintro ⟨caller, hcaller, href⟩
        obtain ⟨rfl, horigin⟩ := (hspec caller hcaller ref).mp href
        exact ⟨⟨target, htarget, hsorted.mp hcaller⟩, horigin⟩
      · rintro ⟨⟨target', htarget', hcaller⟩, horigin⟩
        obtain rfl := h.unique hitem htarget' htarget
        exact ⟨_, hsorted.mpr hcaller, (hspec _ (hsorted.mpr hcaller) ref).mpr ⟨rfl, horigin⟩⟩
    · apply nodup_filterMap
      · intro caller hcaller ref href
        exact ((hspec caller hcaller ref).mp href).1
      · exact ((List.perm_insertionSort _ _).nodup_iff).mpr (List.nodup_dedup _)

/-- `CollectApiCallers` returns each method that calls the target, once, with
the target's index in its own dex. -/
theorem collectApiCallers_spec (hindex : CallerIndex kit codes callers) :
    ∃ refs, kit.collectApiCallers callers cls name proto = .ok refs ∧
      (∀ ref, ref ∈ refs ↔ (∃ origin, kit.dexItems[ref.dexId]? = some origin ∧
        origin.Describes ref.localTarget api) ∧
        kit.Invokes codes ref.dexId ref.callerIdx ref.localTarget) ∧
      (refs.map fun ref => (ref.dexId, ref.callerIdx)).Nodup := by
  obtain ⟨home, hhome, hlists⟩ := hindex.moved
  -- where the index lists a call: in the dex its callee's list went to
  have hlisted {i target : Nat} {item : DexItem} (hitem : kit.dexItems[i]? = some item)
      (htarget : item.Describes target api) {o m : Nat}
      (hmem : (o, m) ∈ (callers i).getD target []) : ∃ t origin, home o t = (i, target) ∧
        kit.Invokes codes o m t ∧ kit.dexItems[o]? = some origin ∧ origin.Describes t api := by
    obtain ⟨t, hgone, hinvokes⟩ := (hlists i target o m).mp hmem
    obtain ⟨origin, horigin, -, text, htext⟩ := h.invokes hinvokes
    obtain ⟨item', hitem', htext'⟩ := hhome o t origin text horigin htext
    rw [hgone] at hitem' htext'
    obtain rfl := Option.some.inj (hitem.symm.trans hitem')
    have hsame : text = api := Except.ok.inj (htext'.2.symm.trans htarget.2)
    exact ⟨t, origin, hgone, hinvokes, horigin, hsame ▸ htext⟩
  have hitems {i : Nat} (hi : i < kit.dexItems.length) :
      kit.dexItems[i]? = some kit.dexItems[i] := List.getElem?_eq_getElem hi
  obtain ⟨g, hg, hrun⟩ := @exists_mapM _ _ _ (kit.callersIn callers cls name proto)
    (List.range kit.dexItems.length) fun i hi => by
      obtain ⟨refs, hrefs, -⟩ := @callersIn_spec _ _ callers _ _ _ _ h hparse _ _
        (hitems (List.mem_range.mp hi))
      exact ⟨refs, hrefs⟩
  have hspec {i : Nat} (hi : i < kit.dexItems.length) : (∀ ref, ref ∈ g i ↔
      (∃ target, kit.dexItems[i].Describes target api ∧
        (ref.dexId, ref.callerIdx) ∈ (callers i).getD target []) ∧
        ∃ origin, kit.dexItems[ref.dexId]? = some origin ∧
          origin.Describes ref.localTarget api) ∧
      ((g i).map fun ref => (ref.dexId, ref.callerIdx)).Nodup := by
    obtain ⟨refs, hrefs, hmem, hnodup⟩ := @callersIn_spec _ _ callers _ _ _ _ h hparse _ _
      (hitems hi)
    rw [hg i (List.mem_range.mpr hi)] at hrefs
    rw [← Except.ok.inj hrefs] at hmem hnodup
    exact ⟨hmem, hnodup⟩
  refine ⟨_, by rw [DexKit.collectApiCallers, hrun, bind_ok]; rfl, fun ref => ?_, ?_⟩
  · rw [List.mem_insertionSort, ← List.flatMap_def, List.mem_flatMap]
    constructor
    · rintro ⟨i, hi, href⟩
      have hi := List.mem_range.mp hi
      obtain ⟨⟨target, htarget, hmem⟩, origin, horigin, hdescribes⟩ := ((hspec hi).1 ref).mp href
      obtain ⟨t, origin', -, hinvokes, horigin', ht⟩ := hlisted (hitems hi) htarget hmem
      obtain rfl := Option.some.inj (horigin.symm.trans horigin')
      obtain rfl := h.unique horigin hdescribes ht
      exact ⟨⟨origin, horigin, hdescribes⟩, hinvokes⟩
    · rintro ⟨⟨origin, horigin, hdescribes⟩, hinvokes⟩
      obtain ⟨item, hitem, htext⟩ := hhome _ _ origin api horigin hdescribes
      obtain ⟨hi, hget⟩ := List.getElem?_eq_some_iff.mp hitem
      have hlists' := (hlists _ _ _ _).mpr ⟨ref.localTarget, rfl, hinvokes⟩
      refine ⟨_, List.mem_range.mpr hi, ((hspec hi).1 ref).mpr ⟨⟨_, hget.symm ▸ htext, hlists'⟩,
        origin, horigin, hdescribes⟩⟩
  · apply (((List.perm_insertionSort _ _).map _).nodup_iff).mpr
    rw [← List.flatMap_def, List.map_flatMap, List.nodup_flatMap]
    refine ⟨fun i hi => (hspec (List.mem_range.mp hi)).2, ?_⟩
    apply List.Pairwise.imp_of_mem _ List.nodup_range
    intro i j hi hj hij caller hcaller hcaller'
    obtain ⟨ref, href, rfl⟩ := List.mem_map.mp hcaller
    obtain ⟨ref', href', heq⟩ := List.mem_map.mp hcaller'
    have hi := List.mem_range.mp hi
    have hj := List.mem_range.mp hj
    obtain ⟨⟨target, htarget, hmem⟩, -⟩ := ((hspec hi).1 ref).mp href
    obtain ⟨⟨target', htarget', hmem'⟩, -⟩ := ((hspec hj).1 ref').mp href'
    rw [heq] at hmem'
    obtain ⟨t, origin, hgone, -, horigin, ht⟩ := hlisted (hitems hi) htarget hmem
    obtain ⟨t', origin', hgone', -, horigin', ht'⟩ := hlisted (hitems hj) htarget' hmem'
    obtain rfl := Option.some.inj (horigin.symm.trans horigin')
    rw [h.unique horigin ht ht', hgone'] at hgone
    exact hij (congrArg Prod.fst hgone).symm

end Collect

section Rows

variable (h : CodeSession kit codes)
include h

/-- A method is shadowed when another dex declares its class. -/
theorem CodeSession.shadowed {dexId m : Nat} {item : DexItem} {text : List UInt8}
    (hitem : kit.dexItems[dexId]? = some item) (hm : item.Describes m text)
    (hparse : parseApiDescriptor text = some (cls, name, proto)) :
    kit.isShadowedMethod dexId item m =
      .ok ((kit.getClassDeclaredPair cls).any fun owner => owner.1 ≠ dexId) := by
  obtain ⟨v, methodHandleCount, hl, hintra, hinter, -, -⟩ := h.checked hitem
  have hlt := ((describes_iff hl hintra).mp hm).1
  have hparts := (parts_of_describes hl hintra hinter hm).1
  have hsame := Option.some.inj ((parse_of_describes hl hintra hinter hm).symm.trans hparse)
  have hcls : item.typeNames[(methodIdAt v.image (v.methodIdAddr m)).classIdx]? = some cls :=
    (Prod.mk.inj hsame).1 ▸ hparts.cls
  rw [DexKit.isShadowedMethod, hl.reader.header, if_neg (by omega),
    methodId_eq hl hintra hlt, bind_ok]
  simp only [hcls]
  cases kit.getClassDeclaredPair cls with
  | none => rfl
  | some owner => rfl

/-- Both walks over a body list the same calls. -/
theorem CodeSession.sites {σ : Type} {walk : CodeItem → List σ} {site : σ → InvokeSite}
    (hwalk : ∀ c : CodeItem, c.Decodes → (walk c).map site = c.enumerateInvokeSites)
    {dexId m : Nat} {item : DexItem} (hitem : kit.dexItems[dexId]? = some item) :
    (DexKit.sitesOf codes walk item dexId m).map site =
      DexKit.sitesOf codes CodeItem.enumerateInvokeSites item dexId m := by
  unfold DexKit.sitesOf
  cases hcode : item.getMethodCode (codes dexId) m with
  | none => rfl
  | some c => exact hwalk c (h.code hitem hcode).1

/-- The rows of a caller: its calls of the target, in order. -/
theorem CodeSession.rows {σ : Type} {walk : CodeItem → List σ} {site : σ → InvokeSite}
    (hwalk : ∀ c : CodeItem, c.Decodes → (walk c).map site = c.enumerateInvokeSites)
    (api : List UInt8) {ref : CallerRef} {item : DexItem} {text : List UInt8}
    (hitem : kit.dexItems[ref.dexId]? = some item) (hm : item.Describes ref.callerIdx text)
    (hparse : parseApiDescriptor text = some (cls, name, proto)) :
    ∃ rows, kit.rowsOf codes walk site api ref = .ok rows ∧ rows.map (·.1) =
      ((DexKit.sitesOf codes CodeItem.enumerateInvokeSites item ref.dexId ref.callerIdx).filter
        fun s => s.methodIdx = ref.localTarget).map fun s =>
          ⟨ref.dexId, ref.callerIdx, text, api, Verifier.toS4 s.bytecodeOffset, s.opcode,
            (kit.getClassDeclaredPair cls).any fun owner => owner.1 ≠ ref.dexId⟩ := by
  refine ⟨_, by rw [DexKit.rowsOf, vectorAt_eq_ok.mpr hitem, bind_ok, hm.2, bind_ok,
    h.shadowed hitem hm hparse, bind_ok]; rfl, ?_⟩
  rw [← h.sites hwalk hitem, List.filter_map, List.map_map, List.map_map]
  rfl

end Rows

section Offsets

variable {c : CodeItem}

/-- The calls of a body are at different offsets. -/
theorem offsets_nodup (hc : c.Decodes) (hsize : c.codeBytes < 2 ^ 32) :
    (c.enumerateInvokeSites.map fun s => Verifier.toS4 s.bytecodeOffset).Nodup := by
  have hoff {k : Nat} (hk : k ∈ c.boundaries) {s : InvokeSite} (hs : c.siteAt k = some s) :
      s.bytecodeOffset = 2 * k ∧ 2 * k < 2 ^ 32 := by
    have hlt := CodeItem.boundary_lt hk
    rw [CodeItem.codeBytes] at hsize
    unfold CodeItem.siteAt at hs
    split at hs
    · obtain rfl := Option.some.inj hs
      exact ⟨Nat.mod_eq_of_lt (by omega), by omega⟩
    · cases hs
  have hsites : c.enumerateInvokeSites = c.boundaries.filterMap c.siteAt := by
    rw [CodeItem.enumerateInvokeSites_eq hc, List.filterMap_eq_flatMap_toList]
  have hkeys : ((c.boundaries.filterMap c.siteAt).map fun s => s.bytecodeOffset / 2).Nodup := by
    apply nodup_filterMap
    · intro k hk s hs
      have := hoff hk hs
      omega
    · exact hc.boundaries_pairwise.imp Nat.ne_of_lt
  rw [hsites]
  unfold List.Nodup at hkeys ⊢
  rw [List.pairwise_map] at hkeys ⊢
  apply List.Pairwise.imp_of_mem _ hkeys
  intro s s' hs hs' hne heq
  obtain ⟨k, hk, hs⟩ := List.mem_filterMap.mp hs
  obtain ⟨k', hk', hs'⟩ := List.mem_filterMap.mp hs'
  have hlow := hoff hk hs
  have hlow' := hoff hk' hs'
  unfold Verifier.toS4 at heq
  split at heq <;> split at heq <;> omega

end Offsets

/-- The callers of an API and the rows of each: its calls of the target, in the
order of its body. -/
structure CallerRows (kit : DexKit) (codes : MethodCodes) (api : List UInt8)
    (refs : List CallerRef) (rowsFor : CallerRef → List CallSite) : Prop where
  mem : ∀ ref, ref ∈ refs ↔ (∃ origin, kit.dexItems[ref.dexId]? = some origin ∧
    origin.Describes ref.localTarget api) ∧
    kit.Invokes codes ref.dexId ref.callerIdx ref.localTarget
  nodup : (refs.map fun ref => (ref.dexId, ref.callerIdx)).Nodup
  rows : ∀ ref ∈ refs, ∃ item text cls name proto, kit.dexItems[ref.dexId]? = some item ∧
    item.Describes ref.callerIdx text ∧ parseApiDescriptor text = some (cls, name, proto) ∧
    rowsFor ref = ((DexKit.sitesOf codes CodeItem.enumerateInvokeSites item ref.dexId
      ref.callerIdx).filter fun s => s.methodIdx = ref.localTarget).map fun s =>
        ⟨ref.dexId, ref.callerIdx, text, api, Verifier.toS4 s.bytecodeOffset, s.opcode,
          (kit.getClassDeclaredPair cls).any fun owner => owner.1 ≠ ref.dexId⟩

/-- The rows of an API are those of its callers, whatever walk finds the calls. -/
theorem callRows_spec (h : CodeSession kit codes) (hindex : CallerIndex kit codes callers)
    (hparse : parseApiDescriptor api = some (cls, name, proto)) :
    ∃ refs rowsFor, CallerRows kit codes api refs rowsFor ∧
      ∀ {σ : Type} (walk : CodeItem → List σ) (site : σ → InvokeSite),
        (∀ c : CodeItem, c.Decodes → (walk c).map site = c.enumerateInvokeSites) →
        ∃ rows, kit.callRows codes callers walk site api = .ok rows ∧
          rows.map (·.1) = refs.flatMap rowsFor := by
  obtain ⟨refs, hrefs, hmem, hnodup⟩ := collectApiCallers_spec h hparse hindex
  have hcaller (ref : CallerRef) (href : ref ∈ refs) : ∃ item text cls name proto,
      kit.dexItems[ref.dexId]? = some item ∧ item.Describes ref.callerIdx text ∧
        parseApiDescriptor text = some (cls, name, proto) := by
    obtain ⟨item, hitem, hm, -⟩ := h.invokes ((hmem ref).mp href).2
    obtain ⟨text, htext⟩ := h.describes hitem hm
    obtain ⟨v, methodHandleCount, hl, hintra, hinter, -, -⟩ := h.checked hitem
    exact ⟨item, text, _, _, _, hitem, htext, parse_of_describes hl hintra hinter htext⟩
  refine ⟨refs, fun ref => match kit.rowsOf codes CodeItem.enumerateInvokeSites id api ref with
    | .ok rows => rows.map (·.1)
    | .error _ => [], ⟨hmem, hnodup, fun ref href => ?_⟩, fun {σ} walk site hwalk => ?_⟩
  · obtain ⟨item, text, cls, name, proto, hitem, htext, htextParse⟩ := hcaller ref href
    obtain ⟨rows, hrows, heq⟩ := @CodeSession.rows _ _ _ _ _ h InvokeSite
      CodeItem.enumerateInvokeSites id (fun c _ => List.map_id _) api _ _ _ hitem htext htextParse
    refine ⟨item, text, cls, name, proto, hitem, htext, htextParse, ?_⟩
    simp only [hrows]
    exact heq
  · obtain ⟨g, hg, hrun⟩ := @exists_mapM _ _ _ (kit.rowsOf codes walk site api) refs
      fun ref href => by
        obtain ⟨item, text, cls, name, proto, hitem, htext, htextParse⟩ := hcaller ref href
        obtain ⟨rows, hrows, -⟩ := h.rows hwalk api hitem htext htextParse
        exact ⟨rows, hrows⟩
    refine ⟨(refs.map g).flatten, ?_, ?_⟩
    · simp only [DexKit.callRows, hparse, hrefs, bind_ok, hrun]
      rfl
    · rw [← List.flatMap_def, List.map_flatMap]
      apply List.flatMap_congr
      intro ref href
      obtain ⟨item, text, cls, name, proto, hitem, htext, htextParse⟩ := hcaller ref href
      obtain ⟨rows, hrows, heq⟩ := h.rows hwalk api hitem htext htextParse
      obtain ⟨rows', hrows', heq'⟩ := @CodeSession.rows _ _ _ _ _ h InvokeSite
        CodeItem.enumerateInvokeSites id (fun c _ => List.map_id _) api _ _ _ hitem htext
        htextParse
      rw [hg ref href] at hrows
      simp only [hrows']
      rw [heq', Except.ok.inj hrows, heq]

/-- Where a call is in its body, as the rows have it. -/
def InvokeSite.place (s : InvokeSite) : Int × Nat := (Verifier.toS4 s.bytecodeOffset, s.opcode)

section Forward

variable {method : List UInt8} {dexId m : Nat} (h : CodeSession kit codes)
include h

/-- A resolved method is one of the dex that declares its class. -/
theorem resolveMethod_spec (hmethod : kit.resolveMethod method = .ok (some (dexId, m))) :
    ∃ item cls name proto typeIdx, kit.dexItems[dexId]? = some item ∧
      parseApiDescriptor method = some (cls, name, proto) ∧
      kit.getClassDeclaredPair cls = some (dexId, typeIdx) ∧ item.Describes m method := by
  unfold DexKit.resolveMethod at hmethod
  split at hmethod
  · cases hmethod
  rename_i cls name proto hparse
  split at hmethod
  · cases hmethod
  rename_i dexId' typeIdx hclass
  obtain ⟨item, hitem, hmethod⟩ := bind_eq_ok.mp hmethod
  obtain ⟨found, hfound, hmethod⟩ := bind_eq_ok.mp hmethod
  have hitem := vectorAt_eq_ok.mp hitem
  obtain ⟨r, hr, hspec⟩ := h.resolves hitem hparse
  obtain rfl := Except.ok.inj (hfound.symm.trans hr)
  obtain ⟨m', hm', heq⟩ := Option.map_eq_some_iff.mp (Except.ok.inj hmethod)
  obtain ⟨rfl, rfl⟩ := Prod.mk.inj heq
  exact ⟨item, cls, name, proto, typeIdx, hitem, hparse, hclass, (hspec m').mp hm'⟩

/-- The rows of a method for a callee are the calls in its body of the method
that prints as the callee. -/
theorem findCallSitesFromMethod_spec {item : DexItem} (hitem : kit.dexItems[dexId]? = some item)
    (hm : item.Describes m method)
    (hmethod : kit.resolveMethod method = .ok (some (dexId, m))) :
    ∃ rows, kit.findCallSitesFromMethod codes method = .ok rows ∧ ∀ callee,
      (rows.filter fun row => row.calleeDescriptor = callee).map CallSite.place =
        ((DexKit.sitesOf codes CodeItem.enumerateInvokeSites item dexId m).filter fun s =>
          (item.buildMethodDescriptor s.methodIdx).toOption = some callee).map
            InvokeSite.place := by
  have hsites := @CodeSession.sites _ _ h InvokeSiteWithArgs (·.analyzeInvokes 0) (·.toInvokeSite)
    (fun c hc => CodeItem.analyzeInvokes_sites hc 0) dexId m item hitem
  generalize hlist : DexKit.sitesOf codes (·.analyzeInvokes 0) item dexId m = sites at hsites
  have hcallee (s : InvokeSiteWithArgs) (hs : s ∈ sites) :
      ∃ text, item.Describes s.methodIdx text := by
    have hmem : s.toInvokeSite ∈
        DexKit.sitesOf codes CodeItem.enumerateInvokeSites item dexId m := by
      rw [← hsites]
      exact List.mem_map_of_mem hs
    obtain ⟨item', hitem', -, htext⟩ := h.invokes ⟨item, hitem, _, hmem, rfl⟩
    obtain rfl := Option.some.inj (hitem.symm.trans hitem')
    exact htext
  obtain ⟨g, hg, hrun⟩ := @exists_mapM _ CallSite ⟨⟨0, 0, [], [], 0, 0, false⟩⟩
    (fun s : InvokeSiteWithArgs => do
      let callee ← item.buildMethodDescriptor s.methodIdx
      pure { callerDexId := dexId, callerMethodIdx := m, callerDescriptor := method
             calleeDescriptor := callee, bytecodeOffset := Verifier.toS4 s.bytecodeOffset
             invokeOpcode := s.opcode }) sites fun s hs => by
      obtain ⟨text, htext⟩ := hcallee s hs
      exact ⟨_, by rw [htext.2, bind_ok]; rfl⟩
  refine ⟨sites.map g, ?_, fun callee => ?_⟩
  · simp only [DexKit.findCallSitesFromMethod, hmethod, bind_ok, vectorAt_eq_ok.mpr hitem, hm.2,
      hlist]
    exact hrun
  · rw [← hsites, List.filter_map, List.filter_map, List.map_map, List.map_map]
    have hrow (s : InvokeSiteWithArgs) (hs : s ∈ sites) :
        (g s).place = s.toInvokeSite.place ∧
          item.buildMethodDescriptor s.methodIdx = .ok (g s).calleeDescriptor := by
      obtain ⟨text, htext, heq⟩ := bind_eq_ok.mp (hg s hs)
      rw [← Except.ok.inj heq]
      exact ⟨rfl, htext⟩
    have hfilter : (sites.filter ((fun row : CallSite => row.calleeDescriptor = callee) ∘ g)) =
        sites.filter ((fun s : InvokeSite =>
          (item.buildMethodDescriptor s.methodIdx).toOption = some callee) ∘ (·.toInvokeSite)) := by
      apply List.filter_congr
      intro s hs
      simp only [Function.comp, (hrow s hs).2, Except.toOption, Option.some.injEq]
    rw [hfilter]
    apply List.map_congr_left
    intro s hs
    exact (hrow s (List.mem_filter.mp hs).1).1

end Forward

/-- The calls of `item`'s method `m` that go to `callee`, by what they print as
and by the index of the callee. -/
theorem filter_callee (h : CodeSession kit codes) {dexId m t : Nat} {item : DexItem}
    {callee : List UInt8} (hitem : kit.dexItems[dexId]? = some item)
    (ht : item.Describes t callee) :
    ((DexKit.sitesOf codes CodeItem.enumerateInvokeSites item dexId m).filter fun s =>
      (item.buildMethodDescriptor s.methodIdx).toOption = some callee) =
    (DexKit.sitesOf codes CodeItem.enumerateInvokeSites item dexId m).filter fun s =>
      s.methodIdx = t := by
  apply List.filter_congr
  intro s hs
  obtain ⟨item', hitem', -, text, htext⟩ := h.invokes ⟨item, hitem, s, hs, rfl⟩
  obtain rfl := Option.some.inj (hitem.symm.trans hitem')
  rw [htext.2]
  simp only [Except.toOption, Option.some.injEq, decide_eq_decide]
  constructor
  · rintro rfl
    exact h.unique hitem htext ht
  · intro heq
    rw [heq] at htext
    exact Except.ok.inj (htext.2.symm.trans ht.2)

section Reverse

variable {callee method : List UInt8} {refs : List CallerRef}
  {rowsFor : CallerRef → List CallSite} (h : CodeSession kit codes)
  (hrows : CallerRows kit codes callee refs rowsFor)
include h hrows

/-- No instruction has two rows. -/
theorem CallerRows.instruction_nodup :
    ((refs.flatMap rowsFor).map CallSite.instruction).Nodup := by
  rw [List.map_flatMap, List.nodup_flatMap]
  constructor
  · intro ref href
    obtain ⟨item, text, cls, name, proto, hitem, -, -, hrow⟩ := hrows.rows ref href
    rw [hrow, List.map_map]
    have hoffsets : ((DexKit.sitesOf codes CodeItem.enumerateInvokeSites item ref.dexId
        ref.callerIdx).map fun s => Verifier.toS4 s.bytecodeOffset).Nodup := by
      unfold DexKit.sitesOf
      split
      · exact List.nodup_nil
      · rename_i c hcode
        obtain ⟨hc, hsize, -⟩ := h.code hitem hcode
        exact offsets_nodup hc hsize
    apply List.Nodup.of_map (fun i : Nat × Nat × Int => i.2.2)
    rw [List.map_map]
    exact hoffsets.sublist (List.filter_sublist.map _)
  · have hkeys := List.pairwise_map.mp hrows.nodup
    apply hkeys.imp_of_mem
    intro ref ref' href href' hne i hi hi'
    obtain ⟨row, hrow, rfl⟩ := List.mem_map.mp hi
    obtain ⟨row', hrow', heq⟩ := List.mem_map.mp hi'
    have hkey {ref : CallerRef} (href : ref ∈ refs) {row : CallSite} (hrow : row ∈ rowsFor ref) :
        row.callerDexId = ref.dexId ∧ row.callerMethodIdx = ref.callerIdx := by
      obtain ⟨item, text, cls, name, proto, -, -, -, heq⟩ := hrows.rows ref href
      rw [heq] at hrow
      obtain ⟨s, -, rfl⟩ := List.mem_map.mp hrow
      exact ⟨rfl, rfl⟩
    obtain ⟨hdex, hm⟩ := hkey href hrow
    obtain ⟨hdex', hm'⟩ := hkey href' hrow'
    obtain ⟨hsame, hrest⟩ := Prod.mk.inj heq
    apply hne
    rw [← hdex, ← hm, ← hdex', ← hm', hsame, (Prod.mk.inj hrest).1]

/-- The rows of a resolved method that are not shadowed are those of the caller
in the dex that declares its class. -/
theorem CallerRows.filter_caller {dexId m typeIdx : Nat} {item : DexItem}
    (hitem : kit.dexItems[dexId]? = some item) (hm : item.Describes m method)
    (hparse : parseApiDescriptor method = some (cls, name, proto))
    (hclass : kit.getClassDeclaredPair cls = some (dexId, typeIdx)) :
    ((refs.flatMap rowsFor).filter fun row =>
      row.callerDescriptor = method ∧ row.shadowed = false).map CallSite.place =
    ((DexKit.sitesOf codes CodeItem.enumerateInvokeSites item dexId m).filter fun s =>
      (item.buildMethodDescriptor s.methodIdx).toOption = some callee).map InvokeSite.place := by
  -- a row of another caller prints another method, or is shadowed
  have hother (ref : CallerRef) (href : ref ∈ refs)
      (hne : (ref.dexId, ref.callerIdx) ≠ (dexId, m)) :
      ((rowsFor ref).filter fun row => row.callerDescriptor = method ∧ row.shadowed = false) =
        [] := by
    obtain ⟨origin, text, cls', name', proto', horigin, htext, hparse', hrow⟩ :=
      hrows.rows ref href
    rw [hrow, List.filter_eq_nil_iff]
    intro row hmem hkept
    obtain ⟨s, -, rfl⟩ := List.mem_map.mp hmem
    simp only [decide_eq_true_eq] at hkept
    obtain ⟨rfl, hshadow⟩ := hkept
    obtain ⟨rfl, -⟩ := Prod.mk.inj (Option.some.inj (hparse.symm.trans hparse'))
    simp only [hclass, Option.any_some, decide_eq_false_iff_not, not_not] at hshadow
    subst hshadow
    obtain rfl := Option.some.inj (hitem.symm.trans horigin)
    exact hne (Prod.ext rfl (h.unique hitem htext hm))
  rw [List.filter_flatMap]
  by_cases hcaller : ∃ ref ∈ refs, (ref.dexId, ref.callerIdx) = (dexId, m)
  · obtain ⟨ref, href, hkey⟩ := hcaller
    rw [flatMap_of_key href hrows.nodup fun ref' href' hne =>
      hother ref' href' (hkey ▸ hne)]
    obtain ⟨hdex, hidx⟩ := Prod.mk.inj hkey
    obtain ⟨origin, text, cls', name', proto', horigin, htext, hparse', hrow⟩ :=
      hrows.rows ref href
    obtain ⟨⟨origin', horigin', htarget⟩, -⟩ := (hrows.mem ref).mp href
    rw [hdex] at horigin horigin' hrow
    rw [hidx] at htext hrow
    obtain rfl := Option.some.inj (hitem.symm.trans horigin)
    obtain rfl := Option.some.inj (hitem.symm.trans horigin')
    obtain rfl := Except.ok.inj (hm.2.symm.trans htext.2)
    obtain ⟨rfl, -⟩ := Prod.mk.inj (Option.some.inj (hparse.symm.trans hparse'))
    rw [filter_callee h hitem htarget, hrow]
    have hall : ∀ row ∈ ((DexKit.sitesOf codes CodeItem.enumerateInvokeSites item dexId m).filter
        fun s => s.methodIdx = ref.localTarget).map fun s => (⟨dexId, m, method, callee,
          Verifier.toS4 s.bytecodeOffset, s.opcode,
          (kit.getClassDeclaredPair cls).any fun owner => owner.1 ≠ dexId⟩ : CallSite),
        decide (row.callerDescriptor = method ∧ row.shadowed = false) = true := by
      intro row hmem
      obtain ⟨s, -, rfl⟩ := List.mem_map.mp hmem
      simp [hclass]
    rw [List.filter_eq_self.mpr hall, List.map_map]
    rfl
  · have hnone : refs.flatMap (fun ref => (rowsFor ref).filter fun row =>
        row.callerDescriptor = method ∧ row.shadowed = false) = [] := by
      apply List.flatMap_eq_nil_iff.mpr
      intro ref href
      exact hother ref href fun hkey => hcaller ⟨ref, href, hkey⟩
    rw [hnone]
    symm
    rw [List.map_nil, List.map_eq_nil_iff, List.filter_eq_nil_iff]
    intro s hs hkept
    obtain ⟨item', hitem', -, text, htext⟩ := h.invokes ⟨item, hitem, s, hs, rfl⟩
    obtain rfl := Option.some.inj (hitem.symm.trans hitem')
    simp only [htext.2, Except.toOption, Option.some.injEq, decide_eq_true_eq] at hkept
    subst hkept
    exact hcaller ⟨⟨dexId, m, s.methodIdx⟩, (hrows.mem _).mpr ⟨⟨item, hitem, htext⟩,
      item, hitem, s, hs, rfl⟩, rfl⟩

end Reverse

/-- The three queries agree on a callee: `ResolveCallArgs` has the rows of
`FindCallSitesToApi` whatever the depth, no instruction has two of them, and of
a method that `FindCallSitesFromMethod` resolves both walks list the same calls
of the callee, in the same order. -/
def DexKit.QueriesAgree (kit : DexKit) (codes : MethodCodes) (callers : CallerIds)
    (callee : List UInt8) : Prop :=
  ∃ rev, kit.findCallSitesToApi codes callers callee = .ok rev ∧
    (rev.map CallSite.instruction).Nodup ∧
    (∀ depth, ∃ resolved, kit.resolveCallArgs codes callers callee depth = .ok resolved ∧
      resolved.map (·.toCallSite) = rev) ∧
    ∀ method dexId m, kit.resolveMethod method = .ok (some (dexId, m)) →
      ∃ fwd, kit.findCallSitesFromMethod codes method = .ok fwd ∧
        (fwd.filter fun row => row.calleeDescriptor = callee).map CallSite.place =
          (rev.filter fun row =>
            row.callerDescriptor = method ∧ row.shadowed = false).map CallSite.place

/-- The three queries agree on every callee, in every session of strictly
verified dexes. -/
theorem call_queries_agree (h : CodeSession kit codes) (hindex : CallerIndex kit codes callers)
    (callee : List UInt8) : kit.QueriesAgree codes callers callee := by
  cases hparse : parseApiDescriptor callee with
  | none =>
    refine ⟨[], by simp only [DexKit.findCallSitesToApi, DexKit.callRows, hparse]; rfl,
      List.nodup_nil, fun depth => ⟨[], ?_, rfl⟩, fun method dexId m hmethod => ?_⟩
    · simp only [DexKit.resolveCallArgs, DexKit.callRows, hparse]
      rfl
    · obtain ⟨item, cls, name, proto, typeIdx, hitem, -, -, hm⟩ := resolveMethod_spec h hmethod
      obtain ⟨fwd, hfwd, hplaces⟩ := findCallSitesFromMethod_spec h hitem hm hmethod
      refine ⟨fwd, hfwd, ?_⟩
      rw [hplaces callee, List.filter_nil, List.map_nil, List.map_eq_nil_iff,
        List.filter_eq_nil_iff]
      intro s hs hkept
      obtain ⟨item', hitem', -, text, htext⟩ := h.invokes ⟨item, hitem, s, hs, rfl⟩
      obtain rfl := Option.some.inj (hitem.symm.trans hitem')
      obtain ⟨v, methodHandleCount, hl, hintra, hinter, -, -⟩ := h.checked hitem
      simp only [htext.2, Except.toOption, Option.some.injEq, decide_eq_true_eq] at hkept
      subst hkept
      rw [parse_of_describes hl hintra hinter htext] at hparse
      cases hparse
  | some parts =>
    obtain ⟨cls, name, proto⟩ := parts
    obtain ⟨refs, rowsFor, hrows, hwalks⟩ := callRows_spec h hindex hparse
    obtain ⟨rows, hrun, hrev⟩ := hwalks CodeItem.enumerateInvokeSites id
      fun c _ => List.map_id _
    refine ⟨refs.flatMap rowsFor, ?_, hrows.instruction_nodup h, fun depth => ?_,
      fun method dexId m hmethod => ?_⟩
    · rw [DexKit.findCallSitesToApi, hrun, bind_ok, hrev]
      rfl
    · obtain ⟨resolved, hrun', hrev'⟩ := hwalks (·.analyzeInvokes depth)
        InvokeSiteWithArgs.toInvokeSite fun c hc => CodeItem.analyzeInvokes_sites hc depth
      refine ⟨_, by rw [DexKit.resolveCallArgs, hrun', bind_ok]; rfl, ?_⟩
      rw [List.map_map, ← hrev']
      rfl
    · obtain ⟨item, cls', name', proto', typeIdx, hitem, hparse', hclass, hm⟩ :=
        resolveMethod_spec h hmethod
      obtain ⟨fwd, hfwd, hplaces⟩ := findCallSitesFromMethod_spec h hitem hm hmethod
      refine ⟨fwd, hfwd, ?_⟩
      rw [hplaces callee, hrows.filter_caller h hitem hm hparse' hclass]

/-- The session of one dex alone, and its code pointers. -/
def soloKit (dex : Memory) : Run (DexKit × List (Option Nat)) := do
  let item ← loadDexItem dex 0
  let codes ← item.methodCodes
  let table ← declareAll [item] [0] []
  pure (⟨[item], table⟩, codes)

theorem codeSession_soloKit {dex : Memory} {pointers : List (Option Nat)}
    (hok : (verifyDex dex true 0 {}).1.ok = true) (hkit : soloKit dex = .ok (kit, pointers)) :
    CodeSession kit fun _ => pointers := by
  obtain ⟨item, hload, hkit⟩ := bind_eq_ok.mp hkit
  obtain ⟨codes, hcodes, hkit⟩ := bind_eq_ok.mp hkit
  obtain ⟨table, htable, hkit⟩ := bind_eq_ok.mp hkit
  obtain ⟨rfl, rfl⟩ := Prod.mk.inj (Except.ok.inj hkit)
  refine ⟨⟨by simp, ?_, [0], List.Perm.refl _, htable⟩, ?_⟩
  · intro item' hitem'
    obtain rfl := List.mem_singleton.mp hitem'
    exact ⟨dex, 0, true, {}, hok, hload⟩
  · intro dexId item' hitem'
    obtain rfl := List.mem_singleton.mp (List.mem_of_getElem? hitem')
    exact ⟨dex, 0, {}, hok, hload, hcodes⟩

/-- `spacedDex` with a body for `a()V`, which calls `a()V`. -/
def callDex : Memory :=
  ((spacedDex.set 32 92).set 188 80).set 189 1 ++
    [0, 0, 0, 0, 0, 0, 0, 0, 0, 0, 0, 0, 4, 0, 0, 0, 0x71, 0, 0, 0, 0, 0, 0x0E, 0] ++
    [0, 0, 2, 0, 0, 1, 0xB8, 2, 1, 1, 0, 0]

/-- The session of `callDex` alone, and its code pointers. -/
def callKit : Run (DexKit × List (Option Nat)) := do
  let item ← loadDexItem callDex 0
  let codes ← item.methodCodes
  let table ← declareAll [item] [0] []
  pure (⟨[item], table⟩, codes)

/-- The caller index of `callDex`: method 0 calls method 0. -/
def selfCallers : CallerIds := fun i => if i = 0 then [[(0, 0)], []] else []

set_option maxRecDepth 20000 in
theorem callDex_runs : (verifyDex callDex true 0 {}).1.ok = true ∧
    (do
      let (kit, pointers) ← callKit
      let item ← vectorAt kit.dexItems 0
      let rows ← kit.findCallSitesFromMethod (fun _ => pointers) plainMethod
      pure ((kit.dexItems.length, pointers, (item.codeItem 312).enumerateInvokeSites), rows)) =
      .ok ((1, [some 312, none], [⟨0, 0, 0x71⟩]),
        [⟨0, 0, plainMethod, plainMethod, 0, 0x71, false⟩]) := by
  decide

theorem codeSession_callKit {pointers : List (Option Nat)}
    (hkit : callKit = .ok (kit, pointers)) : CodeSession kit fun _ => pointers :=
  codeSession_soloKit callDex_runs.1 hkit

theorem callerIndex_callKit {pointers : List (Option Nat)}
    (hkit : callKit = .ok (kit, pointers)) :
    CallerIndex kit (fun _ => pointers) selfCallers := by
  obtain ⟨-, hrun⟩ := callDex_runs
  rw [hkit, bind_ok] at hrun
  obtain ⟨item, hitem, hrun⟩ := bind_eq_ok.mp hrun
  obtain ⟨rows, -, hrun⟩ := bind_eq_ok.mp hrun
  obtain ⟨hlength, hrest⟩ := Prod.mk.inj (Prod.mk.inj (Except.ok.inj hrun)).1
  obtain ⟨rfl, hsites⟩ := Prod.mk.inj hrest
  have hitem := vectorAt_eq_ok.mp hitem
  have hinvokes {o m t : Nat} : kit.Invokes (fun _ => [some 312, none]) o m t ↔
      o = 0 ∧ m = 0 ∧ t = 0 := by
    constructor
    · rintro ⟨item', hitem', site, hsite, rfl⟩
      obtain ⟨ho, -⟩ := List.getElem?_eq_some_iff.mp hitem'
      obtain rfl : o = 0 := by omega
      obtain rfl := Option.some.inj (hitem.symm.trans hitem')
      match m with
      | 0 =>
        have hmem : site ∈ [⟨0, 0, 0x71⟩] := hsites ▸ hsite
        rw [List.mem_singleton.mp hmem]
        exact ⟨rfl, rfl, rfl⟩
      | 1 => simp [DexKit.sitesOf, DexItem.getMethodCode] at hsite
      | m + 2 => simp [DexKit.sitesOf, DexItem.getMethodCode] at hsite
    · rintro ⟨rfl, rfl, rfl⟩
      have hmem : ⟨0, 0, 0x71⟩ ∈ (item.codeItem 312).enumerateInvokeSites := by simp [hsites]
      exact ⟨item, hitem, ⟨0, 0, 0x71⟩, hmem, rfl⟩
  refine ⟨fun o t => (o, t), fun o t item text hitem htext => ⟨item, hitem, htext⟩, ?_⟩
  intro i target o m
  constructor
  · intro hmem
    unfold selfCallers at hmem
    split at hmem
    · match target with
      | 0 =>
        obtain ⟨rfl, rfl⟩ := Prod.mk.inj (List.mem_singleton.mp hmem)
        exact ⟨0, by simp [*], hinvokes.mpr ⟨rfl, rfl, rfl⟩⟩
      | 1 => simp at hmem
      | target + 2 => simp at hmem
    · simp at hmem
  · rintro ⟨t, hhome, hcalls⟩
    obtain ⟨rfl, rfl⟩ := Prod.mk.inj hhome
    obtain ⟨rfl, rfl, rfl⟩ := hinvokes.mp hcalls
    simp [selfCallers]

/-- In `callDex` the call in the body of `a()V` is found by all three. -/
theorem call_queries_agree_callKit : ∃ kit pointers, callKit = .ok (kit, pointers) ∧
    kit.findCallSitesFromMethod (fun _ => pointers) plainMethod =
      .ok [⟨0, 0, plainMethod, plainMethod, 0, 0x71, false⟩] ∧
    kit.QueriesAgree (fun _ => pointers) selfCallers plainMethod := by
  obtain ⟨-, hrun⟩ := callDex_runs
  obtain ⟨⟨kit, pointers⟩, hkit, hrun⟩ := bind_eq_ok.mp hrun
  obtain ⟨item, -, hrun⟩ := bind_eq_ok.mp hrun
  obtain ⟨rows, hrows, hrun⟩ := bind_eq_ok.mp hrun
  obtain ⟨-, rfl⟩ := Prod.mk.inj (Except.ok.inj hrun)
  exact ⟨kit, pointers, hkit, hrows,
    call_queries_agree (codeSession_callKit hkit) (callerIndex_callKit hkit) plainMethod⟩

end Session

end Dexllm
