import Dexllm.ClassHierarchy
import Dexllm.Lib.Worklist
import Dexllm.StaticInitReturns

/-!
When `IsAssignable` is exact. The climb follows the declared superclasses and
interfaces of every class it meets, so it answers by reachability, as long as
the class_info of no declared class throws on its way through the static
initializers.
-/

namespace Dexllm

open Guarded Bytes

/-- A class or array descriptor. -/
def IsReference (descriptor : Text) : Prop :=
  descriptor.head? = some 0x4c ∨ descriptor.head? = some 0x5b

/-- A class descriptor. -/
def IsClass (descriptor : Text) : Prop := descriptor.head? = some 0x4c

/-- The superclass or an interface of a class_def. -/
def DexItem.DeclaresSupertype (item : DexItem) (cd : ClassDef) (super : Text) : Prop :=
  (cd.superclassIdx ≠ kNoIndex ∧ item.typeNames[cd.superclassIdx]? = some super) ∨
    (cd.interfacesOff ≠ 0 ∧
      ∃ type ∈ typeListAt item.reader.image (item.reader.base + cd.interfacesOff),
        item.typeNames[type]? = some super)

namespace DexKit

variable (kit : DexKit)

/-- The class_def that the dex declaring a class resolves it to. -/
def DefinesClass (name : Text) (item : DexItem) (cd : ClassDef) : Prop :=
  ∃ dexId typeIdx c, kit.getClassDeclaredPair name = some (dexId, typeIdx) ∧
    kit.dexItems[dexId]? = some item ∧ c < item.reader.header.classDefsSize ∧
    item.reader.classDef c = .ok cd ∧ cd.classIdx = typeIdx

/-- The declared superclass or interface relation. -/
def Supertype (sub super : Text) : Prop :=
  ∃ item cd, kit.DefinesClass sub item cd ∧ item.DeclaresSupertype cd super

/-- What `IsAssignable` is to say. -/
def Assignable (sub super : Text) : Prop :=
  sub = super ∨ (IsReference sub ∧ super = javaLangObject) ∨
    (IsClass sub ∧ Relation.TransGen kit.Supertype sub super)

/-- `IsAssignable` ends and says whether `sub` is assignable to `super`. -/
def AssignableExact (texts : FloatTexts) (sub super : Text) : Prop :=
  ∃ answer, (∃ rounds, ∀ fuel ≥ rounds,
      kit.isAssignable texts fuel sub super = .ok (some answer)) ∧
    (answer = true ↔ kit.Assignable sub super)

/-- The static initializers of every declared class can be reached. -/
def InitializersReachable : Prop :=
  ∀ name item cd, kit.DefinesClass name item cd → item.InitializersReachable cd

end DexKit

section Loading

variable {v : Verifier} {item : DexItem} {image : Memory} {headerOff methodHandleCount : Nat}

/-- What loading a dex has read of one class_def. -/
structure ClassRead (v : Verifier) (r : Reader) (c : Nat) : Prop where
  classDef : r.classDef c = .ok (classDefAt v.image (v.classDefAddr c))
  interfaces : (classDefAt v.image (v.classDefAddr c)).interfacesOff ≠ 0 →
    (classDefAt v.image (v.classDefAddr c)).interfacesOff < 2 ^ 31
  classData : (classDefAt v.image (v.classDefAddr c)).classDataOff ≠ 0 →
    (classDefAt v.image (v.classDefAddr c)).classDataOff < 2 ^ 31

theorem offset_of_dataPtr {r : Reader} {off bytes p : Nat} (h : r.dataPtr off bytes = .ok p) :
    off < 2 ^ 31 := by
  obtain ⟨_, hcheck, _⟩ := bind_eq_ok.mp h
  exact (slicerCheck_eq_ok.mp hcheck).1

/-- One round of `InitBaseCache` over the class_defs. -/
theorem classRead_of_cacheClassDef {r : Reader} (hr : ReaderOf v r)
    (hintra : v.IntraOk methodHandleCount) {c : Nat} {ids ids' : List (List Nat)}
    (h : cacheClassDef r c ids = .ok ids') : ClassRead v r c := by
  obtain ⟨cd, hcd, h⟩ := bind_eq_ok.mp h
  obtain ⟨_, hinterfaces, h⟩ := bind_eq_ok.mp h
  have hview : cd = classDefAt v.image (v.classDefAddr c) := by
    have hspec : wp (r.classDef c) fun cd => cd = classDefAt v.image (v.classDefAddr c) := by
      apply wp_sectionAt hr (hr.header ▸ hintra.tables.classDefs)
      intro _
      rw [hr.header]
      rfl
    rw [hcd] at hspec
    exact hspec
  subst hview
  refine ⟨hcd, fun hne => ?_, fun hne => ?_⟩
  · rw [readInterfaces, if_pos hne] at hinterfaces
    obtain ⟨p, hptr, _⟩ := bind_eq_ok.mp hinterfaces
    exact offset_of_dataPtr hptr
  · rw [if_neg hne] at h
    obtain ⟨_, _, h⟩ := bind_eq_ok.mp h
    obtain ⟨_, hread, _⟩ := bind_eq_ok.mp h
    obtain ⟨p, hptr, _⟩ := bind_eq_ok.mp hread
    exact offset_of_dataPtr hptr

theorem classRead_of_load {checkInsns : Bool} {st : VerifyImageState} {deviations : List String}
    (haccepted : Accepted image headerOff checkInsns st v methodHandleCount deviations)
    (hload : loadDexItem image headerOff = .ok item) {c : Nat}
    (hc : c < v.header.classDefsSize) : ClassRead v item.reader c := by
  have hl := loaded_of_loadDexItem haccepted hload
  obtain ⟨r, _, hinit⟩ := bind_eq_ok.mp hload
  simp only [initBaseCache, bind_eq_ok] at hinit
  obtain ⟨_, _, _, _, _, _, _, _, _, hclasses, hitem⟩ := hinit
  obtain rfl := Except.ok.inj hitem
  have hr : ReaderOf v r := hl.reader
  rw [hr.header] at hclasses
  have hall := loop_invariant (fun j _ => ∀ i < j, ClassRead v r i) hclasses
    (fun i hi => absurd hi (Nat.not_lt_zero i)) fun j ids ids' _ hinv hround i hi => by
      rcases Nat.lt_succ_iff_lt_or_eq.mp hi with hlt | rfl
      · exact hinv i hlt
      · exact classRead_of_cacheClassDef hr haccepted.intraOk hround
  exact hall c hc

theorem headerValidated_of_load {checkInsns : Bool} {st : VerifyImageState}
    {deviations : List String}
    (haccepted : Accepted image headerOff checkInsns st v methodHandleCount deviations)
    (hload : loadDexItem image headerOff = .ok item) : HeaderValidated v.header := by
  have hl := loaded_of_loadDexItem haccepted hload
  obtain ⟨r, hopen, hinit⟩ := bind_eq_ok.mp hload
  simp only [initBaseCache, bind_eq_ok] at hinit
  obtain ⟨_, _, _, _, _, _, _, _, _, _, hitem⟩ := hinit
  obtain rfl := Except.ok.inj hitem
  rw [← hl.reader.header]
  exact headerValidated_of_openReader hopen

/-- The number of class_defs is a 32-bit number. -/
theorem classDefsSize_lt_of_load {checkInsns : Bool} {st : VerifyImageState}
    {deviations : List String}
    (haccepted : Accepted image headerOff checkInsns st v methodHandleCount deviations)
    (hload : loadDexItem image headerOff = .ok item) : v.header.classDefsSize < 2 ^ 32 := by
  have hl := loaded_of_loadDexItem haccepted hload
  obtain ⟨r, hopen, hinit⟩ := bind_eq_ok.mp hload
  simp only [initBaseCache, bind_eq_ok] at hinit
  obtain ⟨_, _, _, _, _, _, _, _, _, _, hitem⟩ := hinit
  obtain rfl := Except.ok.inj hitem
  simp only [openReader, bind_eq_ok] at hopen
  obtain ⟨header, hread, _, _, _, _, _, _, _, _, _, _, _, _, _, _, _, _, _, _, hr⟩ := hopen
  rw [← hl.reader.header, ← Except.ok.inj hr, ← (read_eq_ok.mp hread).2]
  exact u4At_lt _ _

end Loading

/-- A dex of a session: what verifying and loading it have established. -/
structure ItemOk (v : Verifier) (methodHandleCount : Nat) (item : DexItem) : Prop where
  loaded : Loaded v item
  intra : v.IntraOk methodHandleCount
  inter : v.InterOk
  listed : v.MapListed
  header : HeaderValidated v.header
  read : ∀ c, c < v.header.classDefsSize → ClassRead v item.reader c
  count : v.header.classDefsSize < 2 ^ 32

theorem Session.itemOk {kit : DexKit} (h : Session kit) {item : DexItem}
    (hitem : item ∈ kit.dexItems) : ∃ v methodHandleCount, ItemOk v methodHandleCount item := by
  obtain ⟨image, headerOff, checkInsns, st, hok, hload⟩ := h.verified item hitem
  obtain ⟨v, methodHandleCount, deviations, haccepted⟩ := accepted_of_verifyDex hok
  exact ⟨v, methodHandleCount, loaded_of_loadDexItem haccepted hload, haccepted.intraOk,
    haccepted.interOk, Verifier.mapListed_of_checkMap haccepted.map,
    headerValidated_of_load haccepted hload, fun c hc => classRead_of_load haccepted hload hc,
    classDefsSize_lt_of_load haccepted hload⟩

section Class

variable {v : Verifier} {item : DexItem} {methodHandleCount c : Nat}
  (h : ItemOk v methodHandleCount item)

include h

theorem classDef_eq (hc : c < v.header.classDefsSize) :
    item.reader.classDef c = .ok (classDefAt v.image (v.classDefAddr c)) := (h.read c hc).classDef

/-- `type_def_idx` has each class_def at its type. -/
theorem getTypeDefIdx_eq (hc : c < v.header.classDefsSize) :
    item.getTypeDefIdx (classDefAt v.image (v.classDefAddr c)).classIdx = .ok c := by
  have htable : ∃ table, item.typeDefIdxs = .ok table ∧
      table.length = v.header.typeIdsSize ∧ ∀ i < v.header.classDefsSize,
        table[(classDefAt v.image (v.classDefAddr i)).classIdx]? = some i := by
    rw [DexItem.typeDefIdxs, h.loaded.reader.header]
    refine exists_loop (fun j (table : List Nat) => table.length = v.header.typeIdsSize ∧ ∀ i < j,
      table[(classDefAt v.image (v.classDefAddr i)).classIdx]? = some i)
      ⟨List.length_replicate, fun i hi => absurd hi (Nat.not_lt_zero i)⟩ ?_
    rintro j table hj ⟨hlen, hall⟩
    have hcls : (classDefAt v.image (v.classDefAddr j)).classIdx < table.length :=
      hlen ▸ (h.intra.classDef j hj).cls
    obtain ⟨old, _, hold⟩ := vectorAt_eq hcls
    refine ⟨_, by rw [classDef_eq h hj, bind_ok, hold, bind_ok]; rfl,
      by rw [List.length_set, hlen], fun i hi => ?_⟩
    rcases Nat.lt_succ_iff_lt_or_eq.mp hi with hlt | rfl
    · rw [List.getElem?_set_ne fun heq => h.inter.classDefDistinct j i hlt hj heq.symm]
      exact hall i hlt
    · exact List.getElem?_set_self hcls
  obtain ⟨table, hrun, _, hall⟩ := htable
  rw [DexItem.getTypeDefIdx, hrun, bind_ok]
  exact vectorAt_eq_ok.mpr (hall c hc)

/-- The superclass of a class_def of the dex. -/
theorem superclassName_spec (hc : c < v.header.classDefsSize) :
    ∃ name, item.superclassName (classDefAt v.image (v.classDefAddr c)) = .ok name ∧
      ∀ super, (name ≠ [] ∧ name = super ↔
        (classDefAt v.image (v.classDefAddr c)).superclassIdx ≠ kNoIndex ∧
          item.typeNames[(classDefAt v.image (v.classDefAddr c)).superclassIdx]? = some super) := by
  rw [DexItem.superclassName]
  by_cases hsome : (classDefAt v.image (v.classDefAddr c)).superclassIdx ≠ kNoIndex
  · have hlt := (h.intra.classDef c hc).superclass hsome
    obtain ⟨hget, hvector⟩ := h.loaded.typeNameOrEmpty hlt
    rw [if_pos hsome, hvector, hget]
    refine ⟨_, rfl, fun super => ?_⟩
    rw [Option.some.injEq]
    have hne := typeName_ne_nil h.loaded h.intra h.inter hlt
    exact ⟨fun hname => ⟨hsome, hname.2⟩, fun hname => ⟨hne, hname.2⟩⟩
  · rw [if_neg hsome]
    refine ⟨[], rfl, fun super => ⟨fun hname => absurd rfl hname.1, ?_⟩⟩
    exact fun hname => absurd hname.1 hsome

/-- The interfaces of a class_def of the dex. -/
theorem interfaceNames_spec (hc : c < v.header.classDefsSize) :
    ∃ names, item.interfaceNames (classDefAt v.image (v.classDefAddr c)).interfacesOff =
        .ok names ∧
      ∀ super, (super ∈ names ↔ (classDefAt v.image (v.classDefAddr c)).interfacesOff ≠ 0 ∧
        ∃ type ∈ typeListAt item.reader.image
            (item.reader.base + (classDefAt v.image (v.classDefAddr c)).interfacesOff),
          item.typeNames[type]? = some super) := by
  have hlist := (h.intra.classDef c hc).interfaces
  have hsmall := (h.read c hc).interfaces
  generalize (classDefAt v.image (v.classDefAddr c)).interfacesOff = off at hlist hsmall
  rw [DexItem.interfaceNames]
  by_cases hsome : off ≠ 0
  · obtain ⟨hspan, hindex⟩ := hlist hsome
    have hend := v.endOfFile_le
    have hptr := @dataPtr_eq _ _ h.loaded.reader _ 4 (hsmall hsome) hsome
    have hsize : readU4 item.reader.image (v.offsetToPtr off) =
        .ok (u4At v.image (v.offsetToPtr off)) := by
      rw [h.loaded.reader.image]
      exact read_of_le (by omega)
    have hname : ∀ i, i < u4At v.image (v.offsetToPtr off) → (do
        let typeIdx ← readU2 v.image (v.offsetToPtr off + 4 + i * 2)
        vectorAt item.typeNames typeIdx) =
          .ok (item.typeNameOrEmpty (u2At v.image (v.offsetToPtr off + 4 + i * 2))) := by
      intro i hi
      have hentry : readU2 v.image (v.offsetToPtr off + 4 + i * 2) =
          .ok (u2At v.image (v.offsetToPtr off + 4 + i * 2)) := read_of_le (by omega)
      rw [hentry, bind_ok]
      exact (h.loaded.typeNameOrEmpty (hindex i hi)).2
    have hroom : v.offsetToPtr off + 4 ≤ v.image.length := by omega
    have hmin : min (u4At v.image (v.offsetToPtr off))
        ((v.image.length - (v.offsetToPtr off + 4)) / 2) = u4At v.image (v.offsetToPtr off) := by
      omega
    rw [if_pos hsome, hptr, bind_ok, hsize, bind_ok]
    simp only [h.loaded.reader.image, hroom, if_true, hmin]
    rw [collect_eq hname]
    refine ⟨_, rfl, fun super => ?_⟩
    rw [typeListAt, typeEntries_eq_map, h.loaded.reader.base]
    simp only [List.mem_map, List.mem_range, Nat.zero_add]
    constructor
    · rintro ⟨i, hi, rfl⟩
      exact ⟨hsome, _, ⟨i, hi, rfl⟩, (h.loaded.typeNameOrEmpty (hindex i hi)).1⟩
    · rintro ⟨_, _, ⟨i, hi, rfl⟩, hget⟩
      refine ⟨i, hi, Option.some.inj ?_⟩
      rw [← hget]
      exact (h.loaded.typeNameOrEmpty (hindex i hi)).1.symm
  · rw [if_neg hsome]
    exact ⟨[], rfl, fun super => by simp [hsome]⟩

/-- The classes a `ClassInfo` leads to. -/
def ClassInfo.supertypes (info : ClassInfo) : List Text :=
  (if info.superclass = [] then [] else [info.superclass]) ++ info.interfaces

/-- The `ClassInfo` of a class_def of the dex: its supertypes are the declared
ones, and it throws exactly when its static initializers do. -/
theorem classInfo_spec (texts : FloatTexts) (dexId typeIdx : Nat)
    (hc : c < v.header.classDefsSize) :
    (item.InitializersReachable (classDefAt v.image (v.classDefAddr c)) ↔
      ∃ info, item.classInfo texts dexId typeIdx (classDefAt v.image (v.classDefAddr c)) =
        .ok info) ∧
    ∀ info, item.classInfo texts dexId typeIdx (classDefAt v.image (v.classDefAddr c)) =
      .ok info → ∀ super, super ∈ info.supertypes ↔
        item.DeclaresSupertype (classDefAt v.image (v.classDefAddr c)) super := by
  obtain ⟨superclass, hsuper, hsuperIff⟩ := superclassName_spec h hc
  obtain ⟨names, hnames, hnamesIff⟩ := interfaceNames_spec h hc
  have hsmall := (h.read c hc).classData
  obtain ⟨fields, hfields, _⟩ := parseClassFieldOrder_length h.loaded hsmall
  rw [← staticInit_returns h.loaded h.intra h.inter h.listed h.header texts hsmall,
    DexItem.classInfo, hsuper, bind_ok, hnames, bind_ok, hfields, bind_ok, staticInit, hfields,
    bind_ok]
  cases decodeStaticInitMap texts item (classDefAt v.image (v.classDefAddr c)) fields.staticIds with
  | error e => exact ⟨by simp, fun info hinfo => by cases hinfo⟩
  | ok init =>
    refine ⟨⟨fun _ => ⟨_, rfl⟩, fun _ => ⟨_, rfl⟩⟩, fun info hinfo super => ?_⟩
    obtain rfl := Except.ok.inj hinfo
    rw [DexItem.DeclaresSupertype, ← hsuperIff, ← hnamesIff, ClassInfo.supertypes, List.mem_append]
    refine or_congr ?_ Iff.rfl
    by_cases hnone : superclass = []
    · simp [hnone]
    · simp [hnone, eq_comm]

end Class

/-- Every declared class has a class_def, whose type has its name. -/
theorem Session.definesClass {kit : DexKit} (h : Session kit) {name : Text} {dexId typeIdx : Nat}
    (hclass : kit.getClassDeclaredPair name = some (dexId, typeIdx)) :
    ∃ item cd, kit.DefinesClass name item cd ∧ item.typeNames[cd.classIdx]? = some name := by
  have hentries : Entries (fun name dexId typeIdx => ∃ item c cd,
      kit.dexItems[dexId]? = some item ∧ c < item.reader.header.classDefsSize ∧
        item.reader.classDef c = .ok cd ∧ cd.classIdx = typeIdx ∧
        item.typeNames[cd.classIdx]? = some name) kit.classTable :=
    h.entries fun dexId c item cd name hitem hc hcd hname =>
      ⟨item, c, cd, hitem, hc, hcd, rfl, hname⟩
  obtain ⟨item, c, cd, hitem, hc, hcd, htype, hname⟩ := hentries name dexId typeIdx hclass
  exact ⟨item, cd, ⟨dexId, typeIdx, c, hclass, hitem, hc, hcd, htype⟩, hname⟩

section Climb

variable {kit : DexKit} (h : Session kit) (texts : FloatTexts)

include h

/-- A declared class is a class descriptor. -/
theorem Session.isClass {name : Text} {item : DexItem} {cd : ClassDef}
    (hdefines : kit.DefinesClass name item cd) : IsClass name := by
  obtain ⟨dexId, typeIdx, c, hclass, hitem, hc, hcd, htype⟩ := hdefines
  obtain ⟨item', cd', ⟨_, _, c', hclass', hitem', hc', hcd', htype'⟩, hname⟩ :=
    h.definesClass hclass
  obtain ⟨rfl, rfl⟩ := Prod.mk.inj (Option.some.inj (hclass.symm.trans hclass'))
  obtain rfl := Option.some.inj (hitem.symm.trans hitem')
  obtain ⟨v, methodHandleCount, hok⟩ := h.itemOk (List.mem_of_getElem? hitem)
  rw [hok.loaded.reader.header] at hc'
  obtain rfl : classDefAt v.image (v.classDefAddr c') = cd' :=
    Except.ok.inj ((classDef_eq hok hc').symm.trans hcd')
  have htypeLt := (hok.intra.classDef c' hc').cls
  obtain ⟨first, rest, hdesc, _, hfirst⟩ := (hok.inter.classDefValid c' hc').cls
  have htext := hok.loaded.string _ _ (hok.loaded.typeName _ _ hname)
  have hne := (hok.inter.isDescriptor hok.intra htypeLt htext).ne_nil
  obtain ⟨us, tail, hcontent, _⟩ := htext
  simp only [Verifier.typeDesc, Verifier.descriptorIdx_eq hok.intra.tables htypeLt, bind_ok,
    hcontent] at hdesc
  obtain ⟨b, name, rfl⟩ := List.exists_cons_of_ne_nil hne
  obtain ⟨rfl, _⟩ := List.cons.inj (Except.ok.inj hdesc)
  have hbyte : b.toNat = 0x4c := by simpa using hfirst
  rw [IsClass, List.head?_cons, Option.some.injEq]
  exact UInt8.toNat_inj.mp hbyte

/-- `GetClassInfo` of a declared class. -/
theorem Session.getClassInfo_spec {name : Text} {item : DexItem} {cd : ClassDef}
    (hdefines : kit.DefinesClass name item cd) :
    (item.InitializersReachable cd ↔ ∃ r, kit.getClassInfo texts name = .ok r) ∧
    ∀ r, kit.getClassInfo texts name = .ok r → ∃ info, r = some info ∧
      ∀ super, super ∈ info.supertypes ↔ item.DeclaresSupertype cd super := by
  obtain ⟨dexId, typeIdx, c, hclass, hitem, hc, hcd, htype⟩ := hdefines
  obtain ⟨v, methodHandleCount, hok⟩ := h.itemOk (List.mem_of_getElem? hitem)
  rw [hok.loaded.reader.header] at hc
  obtain rfl : classDefAt v.image (v.classDefAddr c) = cd :=
    Except.ok.inj ((classDef_eq hok hc).symm.trans hcd)
  obtain ⟨hreturns, hsupertypes⟩ := classInfo_spec hok texts (dexId % 2 ^ 16) typeIdx hc
  have hidx : item.getTypeDefIdx typeIdx = .ok c := htype ▸ getTypeDefIdx_eq hok hc
  have hrun : kit.getClassInfo texts name = (do
      let info ← item.classInfo texts (dexId % 2 ^ 16) typeIdx
        (classDefAt v.image (v.classDefAddr c))
      pure (some info)) := by
    have hno : c ≠ kNoIndex := by
      have hcount := hok.count
      rw [kNoIndex]
      omega
    rw [DexKit.getClassInfo, hclass]
    simp only [vectorAt_eq_ok.mpr hitem, bind_ok, hidx, hok.loaded.reader.header, hcd]
    rw [if_neg hno, if_neg (by omega)]
  rw [hreturns, hrun]
  cases hinfo : item.classInfo texts (dexId % 2 ^ 16) typeIdx
      (classDefAt v.image (v.classDefAddr c)) with
  | error e => exact ⟨by simp, fun r hr => by cases hr⟩
  | ok info =>
    refine ⟨⟨fun _ => ⟨_, rfl⟩, fun _ => ⟨_, rfl⟩⟩, fun r hr => ?_⟩
    obtain rfl := Except.ok.inj hr
    exact ⟨info, rfl, hsupertypes info hinfo⟩

omit h in
/-- A class that is not declared has no `ClassInfo`. -/
theorem getClassInfo_of_undeclared {name : Text} (hnone : kit.getClassDeclaredPair name = none) :
    kit.getClassInfo texts name = .ok none := by
  rw [DexKit.getClassInfo, hnone]
  rfl

end Climb

section Search

variable {kit : DexKit} {texts : FloatTexts} {super : Text}

/-- The classes `GetClassInfo` leads to. -/
def DexKit.supertypes (kit : DexKit) (texts : FloatTexts) (name : Text) : List Text :=
  match kit.getClassInfo texts name with
  | .ok (some info) => info.supertypes
  | _ => []

/-- The interface loop stops at `super` and keeps everything else. -/
theorem pushInterfaces_eq (super : Text) (interfaces stack : List Text) :
    DexKit.pushInterfaces super interfaces stack =
      if super ∈ interfaces then none else some (interfaces.reverse ++ stack) := by
  induction interfaces generalizing stack with
  | nil => rfl
  | cons iface interfaces ih =>
    rw [DexKit.pushInterfaces]
    by_cases hsame : iface = super
    · rw [if_pos hsame, if_pos (by simp [hsame])]
    · have hne : ¬super = iface := fun heq => hsame heq.symm
      rw [if_neg hsame, ih]
      by_cases hmem : super ∈ interfaces
      · rw [if_pos hmem, if_pos (List.mem_cons_of_mem _ hmem)]
      · rw [if_neg hmem, if_neg (by simp [hne, hmem]), List.reverse_cons, List.append_assoc]
        rfl

/-- A class pushes its supertypes unless `super` is one of them. -/
theorem pushSupertypes_eq (super : Text) (info : ClassInfo) (stack : List Text) :
    DexKit.pushSupertypes super info stack =
      if super ∈ info.supertypes then none else some (info.supertypes.reverse ++ stack) := by
  rw [DexKit.pushSupertypes, ClassInfo.supertypes]
  by_cases hnone : info.superclass = []
  · rw [if_pos hnone, if_pos hnone, pushInterfaces_eq, List.nil_append]
  · rw [if_neg hnone, if_neg hnone]
    by_cases hsame : info.superclass = super
    · rw [if_pos hsame, if_pos (by simp [hsame])]
    · have hne : ¬super = info.superclass := fun heq => hsame heq.symm
      rw [if_neg hsame, pushInterfaces_eq]
      by_cases hmem : super ∈ info.interfaces
      · rw [if_pos hmem, if_pos (by simp [hmem])]
      · rw [if_neg hmem, if_neg (by simp [hne, hmem]), List.reverse_append, List.append_assoc]
        rfl

/-- The climb is the search along the supertypes, as long as no class_info
throws. -/
theorem climb_eq_search (hreturns : ∀ name, ∃ r, kit.getClassInfo texts name = .ok r)
    (fuel : Nat) (seen stack : List Text) : kit.climb texts super fuel seen stack =
      .ok (Worklist.search (kit.supertypes texts) super fuel seen stack) := by
  induction fuel generalizing seen stack with
  | zero => rfl
  | succ fuel ih =>
    cases stack with
    | nil => rfl
    | cons cur stack =>
      rw [DexKit.climb, Worklist.search]
      by_cases hseen : cur ∈ seen
      · rw [if_pos hseen, if_pos hseen, ih]
      · rw [if_neg hseen, if_neg hseen]
        obtain ⟨r, hr⟩ := hreturns cur
        rw [hr, bind_ok]
        cases r with
        | none =>
          have hnone : kit.supertypes texts cur = [] := by rw [DexKit.supertypes, hr]
          rw [hnone, if_neg (by simp)]
          exact ih (cur :: seen) stack
        | some info =>
          have hsome : kit.supertypes texts cur = info.supertypes := by
            rw [DexKit.supertypes, hr]
          simp only [hsome, pushSupertypes_eq]
          by_cases hmem : super ∈ info.supertypes
          · rw [if_pos hmem, if_pos hmem]
            rfl
          · rw [if_neg hmem, if_neg hmem]
            exact ih (cur :: seen) _

end Search

section Exact

variable {kit : DexKit} (h : Session kit) {texts : FloatTexts}

include h

theorem getClassInfo_returns (hreachable : kit.InitializersReachable) (name : Text) :
    ∃ r, kit.getClassInfo texts name = .ok r := by
  cases hclass : kit.getClassDeclaredPair name with
  | none => exact ⟨none, getClassInfo_of_undeclared texts hclass⟩
  | some pair =>
    obtain ⟨item, cd, hdefines, _⟩ := h.definesClass hclass
    exact (h.getClassInfo_spec texts hdefines).1.mp (hreachable name item cd hdefines)

/-- The supertypes the climb sees are the declared ones. -/
theorem mem_supertypes_iff (hreachable : kit.InitializersReachable) {name super : Text} :
    super ∈ kit.supertypes texts name ↔ kit.Supertype name super := by
  obtain ⟨r, hr⟩ := getClassInfo_returns h hreachable name
  constructor
  · intro hmem
    cases hclass : kit.getClassDeclaredPair name with
    | none =>
      rw [DexKit.supertypes, getClassInfo_of_undeclared texts hclass] at hmem
      cases hmem
    | some pair =>
      obtain ⟨item, cd, hdefines, _⟩ := h.definesClass hclass
      obtain ⟨info, rfl, hinfo⟩ := (h.getClassInfo_spec texts hdefines).2 r hr
      simp only [DexKit.supertypes, hr] at hmem
      exact ⟨item, cd, hdefines, (hinfo super).mp hmem⟩
  · rintro ⟨item, cd, hdefines, hdeclares⟩
    obtain ⟨info, rfl, hinfo⟩ := (h.getClassInfo_spec texts hdefines).2 r hr
    simp only [DexKit.supertypes, hr]
    exact (hinfo super).mpr hdeclares

theorem reaches_iff (hreachable : kit.InitializersReachable) {sub super : Text} :
    Worklist.Reaches (kit.supertypes texts) sub super ↔
      Relation.TransGen kit.Supertype sub super := by
  have hsame : (fun a b => b ∈ kit.supertypes texts a) = kit.Supertype := by
    funext a b
    exact propext (mem_supertypes_iff h hreachable)
  rw [Worklist.Reaches, hsame]

omit h in
/-- Only declared classes have supertypes, and there are finitely many. -/
theorem exists_vertices (texts : FloatTexts) : ∃ vertices : List Text, vertices.Nodup ∧
    ∀ name, kit.supertypes texts name ≠ [] → name ∈ vertices := by
  refine ⟨(kit.classTable.map Prod.fst).dedup, List.nodup_dedup _, fun name hname => ?_⟩
  rw [List.mem_dedup]
  cases hclass : kit.getClassDeclaredPair name with
  | none =>
    rw [DexKit.supertypes, getClassInfo_of_undeclared texts hclass] at hname
    exact absurd rfl hname
  | some pair =>
    obtain ⟨l, l', htable, _⟩ := List.lookup_eq_some_iff.mp hclass
    rw [htable]
    simp

/-- No class has a supertype without a name. -/
theorem Session.supertype_ne_nil {sub super : Text} (hsub : kit.Supertype sub super) :
    super ≠ [] := by
  obtain ⟨item, cd, ⟨dexId, _, _, _, hitem, _⟩, hdeclares⟩ := hsub
  obtain ⟨v, methodHandleCount, hok⟩ := h.itemOk (List.mem_of_getElem? hitem)
  obtain ⟨i, hget⟩ : ∃ i : Nat, item.typeNames[i]? = some super := by
    rcases hdeclares with ⟨_, hget⟩ | ⟨_, type, _, hget⟩
    · exact ⟨_, hget⟩
    · exact ⟨_, hget⟩
  obtain ⟨hlt, _⟩ := List.getElem?_eq_some_iff.mp hget
  rw [hok.loaded.typeCount] at hlt
  have hname := (hok.loaded.typeNameOrEmpty hlt).1
  rw [hget] at hname
  rw [Option.some.inj hname]
  exact typeName_ne_nil hok.loaded hok.intra hok.inter hlt

/-- The climb from a class descriptor is exact when every class_info returns. -/
theorem climb_exact (hreachable : kit.InitializersReachable) (sub super : Text) :
    ∃ answer, (∃ rounds, ∀ fuel ≥ rounds,
        kit.climb texts super fuel [] [sub] = .ok (some answer)) ∧
      (answer = true ↔ Relation.TransGen kit.Supertype sub super) := by
  obtain ⟨vertices, hnodup, hall⟩ := @exists_vertices kit texts
  obtain ⟨answer, hsearch, hreaches⟩ :=
    @Worklist.search_spec _ _ (kit.supertypes texts) super sub vertices hnodup hall
  refine ⟨answer, ⟨Worklist.cost (kit.supertypes texts) vertices [] + 2, fun fuel hfuel => ?_⟩,
    by rw [hreaches, reaches_iff h hreachable]⟩
  rw [climb_eq_search (getClassInfo_returns h hreachable), hsearch fuel (by omega)]

/-- `IsAssignable` is exact when every class_info returns. -/
theorem assignableExact_of_reachable (hreachable : kit.InitializersReachable) (sub super : Text) :
    kit.AssignableExact texts sub super := by
  have hat (answer : Bool) (hrun : ∀ fuel, kit.isAssignable texts fuel sub super =
      .ok (some answer)) (hiff : answer = true ↔ kit.Assignable sub super) :
      kit.AssignableExact texts sub super := ⟨answer, ⟨0, fun fuel _ => hrun fuel⟩, hiff⟩
  by_cases hsame : sub = super
  · refine hat true (fun fuel => ?_) ⟨fun _ => .inl hsame, fun _ => rfl⟩
    rw [DexKit.isAssignable, if_pos hsame]
    rfl
  by_cases hempty : sub = [] ∨ super = []
  · refine hat false (fun fuel => ?_) ⟨fun hf => (nomatch hf), fun hassign => ?_⟩
    · rw [DexKit.isAssignable, if_neg hsame, if_pos hempty]
      rfl
    · exfalso
      rcases hempty with rfl | rfl
      · rcases hassign with heq | ⟨href, _⟩ | ⟨hclass, _⟩
        · exact hsame heq
        · rcases href with href | href
          · cases href
          · cases href
        · cases hclass
      · rcases hassign with heq | ⟨_, hobject⟩ | ⟨_, hreach⟩
        · exact hsame heq
        · exact absurd hobject (by decide)
        · obtain ⟨_, _, hlast⟩ := Relation.TransGen.tail'_iff.mp hreach
          exact h.supertype_ne_nil hlast rfl
  by_cases href : IsReference sub
  swap
  · refine hat false (fun fuel => ?_) ⟨fun hf => (nomatch hf), fun hassign => ?_⟩
    · rw [DexKit.isAssignable, if_neg hsame, if_neg hempty,
        if_pos (show ¬(sub.head? = some 0x4c ∨ sub.head? = some 0x5b) from href)]
      rfl
    · rcases hassign with heq | ⟨href', _⟩ | ⟨hclass, _⟩
      · exact absurd heq hsame
      · exact absurd href' href
      · exact absurd (.inl hclass) href
  have hpast (fuel : Nat) : kit.isAssignable texts fuel sub super =
      if super = javaLangObject then pure (some true)
      else if sub.head? = some 0x5b then pure (some false)
      else kit.climb texts super fuel [] [sub] := by
    have hkind : ¬¬(sub.head? = some 0x4c ∨ sub.head? = some 0x5b) := not_not.mpr href
    rw [DexKit.isAssignable, if_neg hsame, if_neg hempty, if_neg hkind]
  by_cases hobject : super = javaLangObject
  · refine hat true (fun fuel => ?_) ⟨fun _ => .inr (.inl ⟨href, hobject⟩), fun _ => rfl⟩
    rw [hpast, if_pos hobject]
    rfl
  by_cases harray : sub.head? = some 0x5b
  · refine hat false (fun fuel => ?_) ⟨fun hf => (nomatch hf), fun hassign => ?_⟩
    · rw [hpast, if_neg hobject, if_pos harray]
      rfl
    · rcases hassign with heq | ⟨_, hobject'⟩ | ⟨hclass, _⟩
      · exact absurd heq hsame
      · exact absurd hobject' hobject
      · rw [IsClass, harray] at hclass
        exact absurd (Option.some.inj hclass) (by decide)
  obtain ⟨answer, ⟨rounds, hrun⟩, hreach⟩ := climb_exact h hreachable sub super
  refine ⟨answer, ⟨rounds, fun fuel hfuel => ?_⟩, ?_⟩
  · rw [hpast, if_neg hobject, if_neg harray, hrun fuel hfuel]
  · have hclass : IsClass sub := href.resolve_right harray
    rw [hreach]
    constructor
    · exact fun hr => .inr (.inr ⟨hclass, hr⟩)
    · rintro (heq | ⟨_, hobject'⟩ | ⟨_, hr⟩)
      · exact absurd heq hsame
      · exact absurd hobject' hobject
      · exact hr

/-- A class whose initializers cannot be reached makes `IsAssignable` throw. -/
theorem not_assignableExact {name super : Text} {item : DexItem} {cd : ClassDef}
    (hdefines : kit.DefinesClass name item cd) (hthrow : ¬item.InitializersReachable cd)
    (hsame : name ≠ super) (hsuper : super ≠ []) (hobject : super ≠ javaLangObject) :
    ¬kit.AssignableExact texts name super := by
  rintro ⟨answer, ⟨rounds, hrun⟩, _⟩
  have hclass : name.head? = some 0x4c := h.isClass hdefines
  have hinfo : ¬∃ r, kit.getClassInfo texts name = .ok r :=
    fun hr => hthrow ((h.getClassInfo_spec texts hdefines).1.mpr hr)
  have hlast := hrun (rounds + 1) (Nat.le_succ rounds)
  have hempty : ¬(name = [] ∨ super = []) := by
    rintro (rfl | rfl)
    · cases hclass
    · exact hsuper rfl
  have harray : ¬name.head? = some 0x5b := by
    rw [hclass]
    decide
  rw [DexKit.isAssignable, if_neg hsame, if_neg hempty, if_neg (not_not.mpr (.inl hclass)),
    if_neg hobject, if_neg harray, DexKit.climb, if_neg (by simp)] at hlast
  obtain ⟨r, hr, _⟩ := bind_eq_ok.mp hlast
  exact hinfo ⟨r, hr⟩

/-- For every session, `IsAssignable` is exact on all descriptors exactly when
the static initializers of every declared class can be reached. -/
theorem assignable_exact_iff :
    (∀ sub super, kit.AssignableExact texts sub super) ↔ kit.InitializersReachable := by
  constructor
  · intro hexact name item cd hdefines
    by_contra hthrow
    refine not_assignableExact h hdefines hthrow ?_ ?_ ?_ (hexact name (0x78 :: name))
    · intro heq
      have hlength := congrArg List.length heq
      simp at hlength
    · simp
    · exact fun heq => absurd (List.cons.inj heq).1 (by decide)
  · exact fun hreachable => assignableExact_of_reachable h hreachable

end Exact

theorem assignable_exact_iff_spacedKit : ∃ kit, spacedKit = .ok kit ∧ ∀ texts,
    ((∀ sub super, kit.AssignableExact texts sub super) ↔ kit.InitializersReachable) := by
  obtain ⟨kit, hkit, _⟩ := bind_eq_ok.mp spacedDex_runs.2
  exact ⟨kit, hkit, fun texts => assignable_exact_iff (session_spacedKit hkit)⟩

section Huge

/-- A dex of class `LA;` with one static field and its static_values at 2^31, up
to the byte before its zeros. -/
def hugeLow : Memory := [
  100, 101, 120, 10, 48, 51, 53, 0, 0, 0, 0, 0, 0, 0, 0, 0, 0, 0, 0, 0, 0, 0, 0, 0,
  0, 0, 0, 0, 0, 0, 0, 0, 0, 1, 0, 128, 112, 0, 0, 0, 120, 86, 52, 18, 0, 0, 0, 0,
  0, 0, 0, 0, 180, 0, 0, 0, 2, 0, 0, 0, 112, 0, 0, 0, 1, 0, 0, 0, 120, 0, 0, 0,
  0, 0, 0, 0, 0, 0, 0, 0, 1, 0, 0, 0, 124, 0, 0, 0, 0, 0, 0, 0, 0, 0, 0, 0,
  1, 0, 0, 0, 132, 0, 0, 0, 0, 0, 0, 0, 0, 0, 0, 0, 170, 0, 0, 0, 175, 0, 0, 0,
  0, 0, 0, 0, 0, 0, 0, 0, 1, 0, 0, 0, 0, 0, 0, 0, 1, 0, 0, 0, 255, 255, 255, 255,
  0, 0, 0, 0, 255, 255, 255, 255, 0, 0, 0, 0, 164, 0, 0, 0, 0, 0, 0, 128, 1, 0, 0, 0,
  0, 8, 3, 76, 65, 59, 0, 1, 97, 0, 0, 0, 6, 0, 0, 0, 0, 0, 0, 0, 1, 0, 0, 0,
  0, 0, 0, 0, 1, 0, 0, 0, 2, 0, 0, 0, 112, 0, 0, 0, 2, 0, 0, 0, 1, 0, 0, 0,
  120, 0, 0, 0, 4, 0, 0, 0, 1, 0, 0, 0, 124, 0, 0, 0, 6, 0, 0, 0, 1, 0, 0, 0,
  132, 0, 0, 0, 0, 16, 0, 0, 1, 0, 0, 0, 180, 0, 0, 0]

theorem exists_hugeTail : ∃ tail : Memory, tail = List.replicate (2 ^ 31) 0 := ⟨_, rfl⟩

/-- The zeros of the dex. No evaluation spells them out. -/
noncomputable def hugeTail : Memory := Classical.choose exists_hugeTail

theorem hugeTail_eq : hugeTail = List.replicate (2 ^ 31) 0 := Classical.choose_spec exists_hugeTail

noncomputable def hugeDex : Memory := hugeLow ++ hugeTail

set_option maxRecDepth 20000 in
theorem hugeLow_length : hugeLow.length = 256 := by decide

theorem hugeDex_length : hugeDex.length = 256 + 2 ^ 31 := by
  rw [hugeDex, List.length_append, hugeTail_eq, List.length_replicate, hugeLow_length]

def hugeHeader : Header where
  magic := [0x64, 0x65, 0x78, 0x0a, 0x30, 0x33, 0x35, 0]
  checksum := 0
  fileSize := 256 + 2 ^ 31
  headerSize := kV40Size
  endianTag := kEndianConstant
  linkSize := 0
  linkOff := 0
  mapOff := 180
  stringIdsSize := 2
  stringIdsOff := 112
  typeIdsSize := 1
  typeIdsOff := 120
  protoIdsSize := 0
  protoIdsOff := 0
  fieldIdsSize := 1
  fieldIdsOff := 124
  methodIdsSize := 0
  methodIdsOff := 0
  classDefsSize := 1
  classDefsOff := 132
  dataSize := 0
  dataOff := 0

def hugeClassDef : ClassDef := ⟨0, 1, kNoIndex, 0, kNoIndex, 0, 164, 2 ^ 31⟩

/-- The verifier of the dex, once its data range is known. -/
noncomputable def hugeVerifier : Verifier :=
  ⟨hugeDex, 0, hugeHeader, ⟨0, 256 + 2 ^ 31, by rw [hugeDex_length]; decide⟩, true⟩

noncomputable def hugeReader : Reader := ⟨hugeDex, 0, 256 + 2 ^ 31, hugeHeader⟩

noncomputable def hugeItem : DexItem :=
  ⟨hugeReader, [[0x4c, 0x41, 0x3b], [0x61]], [[0x4c, 0x41, 0x3b]], [[]]⟩

noncomputable def hugeKit : DexKit := ⟨[hugeItem], [([0x4c, 0x41, 0x3b], (0, 0))]⟩

set_option maxRecDepth 20000 in
/-- The parts of the run that read only the first bytes of the dex. -/
theorem hugeDex_runs : headerAt hugeDex 0 = hugeHeader ∧
    hugeVerifier.checkSections = .ok () ∧
    (hugeVerifier.checkMap (VerifyImageState.seed {} hugeDex.length)).1 = .ok 0 ∧
    (forUpTo 2 fun i => do
      let off ← hugeVerifier.stringDataOff i
      hugeVerifier.verifyStringData off) = .ok () ∧
    (forUpTo 1 fun i => do
      let descriptor ← hugeVerifier.descriptorIdx i
      failIf (2 ≤ descriptor) "type_id.descriptor_idx out of range") = .ok () ∧
    forUpTo 1 hugeVerifier.checkIntraFieldId = .ok () ∧
    hugeVerifier.readClassDef 0 = .ok hugeClassDef ∧
    hugeVerifier.verifyClassData 164 = .ok () ∧
    hugeVerifier.checkInterSection = .ok [] ∧
    hugeReader.validateSections = .ok () ∧
    collect 2 (readPoolString hugeReader) = .ok hugeItem.strings ∧
    collect 1 (readTypeName hugeReader hugeItem.strings) = .ok hugeItem.typeNames ∧
    loop 1 (List.replicate 1 []) (cacheClassDef hugeReader) = .ok hugeItem.classMethodIds ∧
    hugeReader.classDef 0 = .ok hugeClassDef ∧
    declareAll hugeKit.dexItems [0] [] = .ok hugeKit.classTable ∧
    (readULEB128 hugeDex (164 + kClassWindow) 164).1 ≠ 0 := by
  decide

theorem readHeader_hugeDex : read kV40Size headerAt hugeDex 0 = .ok hugeHeader := by
  rw [read_of_le, hugeDex_runs.1]
  rw [hugeDex_length]
  decide

theorem openVerifier_hugeDex : openVerifier hugeDex 0 true = .ok hugeVerifier := by
  have havail : ¬hugeDex.length - 0 < kV40Size := by
    rw [hugeDex_length]
    decide
  have hrange : computeDataRange hugeDex 0 (Nat.zero_le _) hugeHeader =
      .ok hugeVerifier.range := by
    have hmin : min hugeHeader.fileSize (hugeDex.length - 0) = 256 + 2 ^ 31 := by
      rw [hugeDex_length]
      decide
    have hversion : ¬(kV41Size ≤ hugeDex.length - 0 ∧ kV41Size ≤ hugeHeader.headerSize) :=
      fun h => absurd h.2 (by decide)
    rw [computeDataRange, if_neg hversion]
    simp only [hmin]
    rfl
  rw [openVerifier, dif_pos (Nat.zero_le _), failIf, if_neg havail, bind_ok, readHeader_hugeDex,
    bind_ok, hrange]
  rfl

theorem checkHeader_hugeVerifier : hugeVerifier.checkHeader = .ok () := by
  obtain ⟨_, hsections, _⟩ := hugeDex_runs
  have havail : ¬hugeVerifier.avail < hugeVerifier.header.fileSize := by
    rw [Verifier.avail, show hugeVerifier.image.length = _ from hugeDex_length]
    decide
  simp only [Verifier.checkHeader, bind_eq_ok, failIf_eq_ok]
  exact ⟨(), by decide, (), by decide, (), by decide, (), havail, (), by decide, (), by decide,
    (), rfl, hsections⟩

theorem byteAt_hugeDex {a : Nat} (h : 256 ≤ a) : byteAt hugeDex a = 0 := by
  have htail : hugeLow.length ≤ a := by rwa [hugeLow_length]
  rw [byteAt, hugeDex, List.getD_eq_getElem?_getD, List.getElem?_append_right htail, hugeTail_eq,
    List.getElem?_replicate]
  split <;> rfl

/-- The array of static values is empty. -/
theorem checkStaticValues_hugeVerifier : hugeVerifier.checkStaticValues 0 (2 ^ 31) = .ok () := by
  have hread : readU1 hugeVerifier.image (hugeVerifier.offsetToPtr (2 ^ 31)) = .ok 0 := by
    rw [readU1, read_of_le, show hugeVerifier.image = hugeDex from rfl, byteAt_hugeDex]
    · decide
    · rw [show hugeVerifier.image.length = _ from hugeDex_length]
      decide
  have huleb : hugeVerifier.readUleb (hugeVerifier.offsetToPtr (2 ^ 31)) =
      .ok (some (0, hugeVerifier.offsetToPtr (2 ^ 31) + 1)) := by
    rw [Verifier.readUleb, Verifier.readUlebFrom, if_neg (by decide), hread]
    rfl
  rw [Verifier.checkStaticValues, onlyIf, if_pos (by decide), Verifier.verifyEncodedArrayAt,
    failIf, if_neg (by decide), bind_ok, Verifier.readUlebOrFail, huleb]
  rfl

theorem checkIntraSection_hugeVerifier : hugeVerifier.checkIntraSection 0 = .ok () := by
  obtain ⟨_, _, _, hstrings, htypes, hfields, hcd, hdata, _⟩ := hugeDex_runs
  have hclass : hugeVerifier.checkIntraClassDef 0 0 {} = .ok {} := by
    rw [Verifier.checkIntraClassDef, hcd]
    simp only [bind_eq_ok, failIf_eq_ok]
    exact ⟨_, rfl, (), by decide, (), by decide, (), by decide, (), rfl, (), hdata, (),
      checkStaticValues_hugeVerifier, rfl⟩
  simp only [Verifier.checkIntraSection, bind_eq_ok]
  refine ⟨(), hstrings, (), htypes, (), rfl, (), hfields, (), rfl, {}, ?_, rfl⟩
  rw [show hugeVerifier.header.classDefsSize = 1 from rfl, loop_succ, loop, loopFrom, bind_ok,
    hclass]

theorem accepted_hugeDex : Accepted hugeDex 0 true {} hugeVerifier 0 [] := by
  obtain ⟨_, _, hmap, _, _, _, _, _, hinter, _⟩ := hugeDex_runs
  exact ⟨openVerifier_hugeDex, checkHeader_hugeVerifier, hmap, checkIntraSection_hugeVerifier,
    hinter⟩

theorem openReader_hugeDex : openReader hugeDex 0 = .ok hugeReader := by
  obtain ⟨_, _, _, _, _, _, _, _, _, hsections, _⟩ := hugeDex_runs
  rw [openReader, hugeDex_length]
  simp only [bind_eq_ok, slicerCheck_eq_ok]
  exact ⟨_, readHeader_hugeDex, (), by decide, (), by decide, (), by decide, (), by decide, (),
    by decide, 0, rfl, 256 + 2 ^ 31, rfl, (), by decide, (), hsections, rfl⟩

theorem loadDexItem_hugeDex : loadDexItem hugeDex 0 = .ok hugeItem := by
  obtain ⟨_, _, _, _, _, _, _, _, _, _, hstrings, htypes, hclasses, _⟩ := hugeDex_runs
  rw [loadDexItem, openReader_hugeDex, bind_ok, initBaseCache]
  simp only [bind_eq_ok]
  exact ⟨(), rfl, _, hstrings, _, htypes, (), rfl, _, hclasses, rfl⟩

theorem session_hugeKit : Session hugeKit := by
  obtain ⟨_, _, _, _, _, _, _, _, _, _, _, _, _, _, hdeclared, _⟩ := hugeDex_runs
  refine ⟨by decide, fun item hitem => ?_, [0], List.Perm.refl _, hdeclared⟩
  obtain rfl := List.mem_singleton.mp hitem
  exact ⟨hugeDex, 0, true, {}, verifyDex_ok_iff.mpr ⟨[], accepted_hugeDex.verify_eq⟩,
    loadDexItem_hugeDex⟩

/-- The static_values of `LA;` start at a negative `int`. -/
theorem hugeItem_not_reachable : ¬hugeItem.InitializersReachable hugeClassDef := by
  obtain ⟨_, _, _, _, _, _, _, _, _, _, _, _, _, _, _, hfields⟩ := hugeDex_runs
  have hstop : windowEnd hugeReader 164 = 164 + kClassWindow := by
    rw [windowEnd, show hugeReader.image.length = _ from hugeDex_length]
    decide
  have hcount : hugeItem.staticFieldCount hugeClassDef ≠ 0 := by
    have hbase : hugeReader.base + hugeClassDef.classDataOff = 164 := rfl
    rw [DexItem.staticFieldCount, if_neg (by decide)]
    simp only [show hugeItem.reader = hugeReader from rfl, hbase, hstop]
    exact hfields
  intro h
  exact absurd (h hcount (by decide)).1 (by decide)

/-- `IsAssignable` throws instead of telling that `LA;` is no `LB;`. -/
theorem hugeKit_not_exact : Session hugeKit ∧
    ∀ texts, ¬hugeKit.AssignableExact texts (ascii "LA;") (ascii "LB;") := by
  obtain ⟨_, _, _, _, _, _, _, _, _, _, _, _, _, hcd, _⟩ := hugeDex_runs
  refine ⟨session_hugeKit, fun texts => ?_⟩
  have hdefines : hugeKit.DefinesClass (ascii "LA;") hugeItem hugeClassDef :=
    ⟨0, 0, 0, rfl, rfl, by decide, hcd, rfl⟩
  exact not_assignableExact session_hugeKit hdefines hugeItem_not_reachable (by decide) (by decide)
    (by decide)

end Huge

end Dexllm
