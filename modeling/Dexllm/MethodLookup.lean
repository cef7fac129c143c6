import Dexllm.Descriptors

/-!
Methods of a session by name: the table of declared classes the dexes of a
session fill while they load, the listing of a class's methods, and the
resolver that takes a printed descriptor back to a method.
-/

namespace Dexllm

open Guarded Bytes

/-- `class_declare_dex_map`: the dex and the type index a class name resolves
to. -/
abbrev ClassTable := List (List UInt8 × (Nat × Nat))

/-- `PutDeclaredClass`: the lowest dex id wins, whatever the order of calls. -/
def putDeclaredClass (table : ClassTable) (name : List UInt8) (dexId typeIdx : Nat) :
    ClassTable :=
  match table.lookup name with
  | none => (name, (dexId, typeIdx)) :: table
  | some found => if dexId < found.1 then (name, (dexId, typeIdx)) :: table else table

/-- The end of `InitBaseCache`: the classes dex `dexId` defines. The id is kept
in a `uint16_t`. -/
def declareClasses (item : DexItem) (dexId : Nat) (table : ClassTable) : Run ClassTable :=
  loop item.reader.header.classDefsSize table fun c table => do
    let cd ← item.reader.classDef c
    let name ← vectorAt item.typeNames cd.classIdx
    pure (putDeclaredClass table name (dexId % 2 ^ 16) cd.classIdx)

/-- The loaded dexes, by id, and their declared classes. -/
structure DexKit where
  dexItems : List DexItem
  classTable : ClassTable

/-- The declarations of the dexes of a session, in the order in which their
constructors got to them. -/
def declareAll (items : List DexItem) : (order : List Nat) → ClassTable → Run ClassTable
  | [], table => pure table
  | dexId :: order, table => do
    let item ← vectorAt items dexId
    let table ← declareClasses item dexId table
    declareAll items order table

/-- What `LocateMethod` returns. -/
structure MethodLocator where
  dexId : Nat
  methodIdx : Nat
  deriving DecidableEq, Repr

/-- The whitespace `LocateMethod` drops. -/
def isDescriptorSpace (c : UInt8) : Bool :=
  c == 0x20 || c == 0x09 || c == 0x0a || c == 0x0d

/-- The text before the first `->`, and the text after it. -/
def splitArrow : List UInt8 → Option (List UInt8 × List UInt8)
  | 0x2d :: 0x3e :: rest => some ([], rest)
  | c :: rest => (splitArrow rest).map fun (cls, rest) => (c :: cls, rest)
  | [] => none

/-- The text before the first `(`, and the text from it on. -/
def splitParen : List UInt8 → Option (List UInt8 × List UInt8)
  | [] => none
  | c :: rest =>
    if c = 0x28 then some ([], c :: rest)
    else (splitParen rest).map fun (name, proto) => (c :: name, proto)

/-- `method_ids[i]` is the method of type `typeIdx` with this name and proto. -/
def DexItem.isMethod (item : DexItem) (typeIdx : Nat) (name proto : List UInt8) (i : Nat) :
    Run Bool := do
  let m ← item.reader.methodId i
  if m.classIdx ≠ typeIdx then pure false
  else do
    let methodName ← vectorAt item.strings m.nameIdx
    if methodName ≠ name then pure false
    else do
      let pr ← item.reader.protoId m.protoIdx
      let methodProto ← item.buildProto pr
      pure (methodProto == proto)

/-- The method loop of `LocateMethod`, from method `i` on. -/
def DexItem.findMethod (item : DexItem) (typeIdx : Nat) (name proto : List UInt8) :
    (rounds i : Nat) → Run (Option Nat)
  | 0, _ => pure none
  | rounds + 1, i => do
    let found ← item.isMethod typeIdx name proto i
    if found = true then pure (some i) else findMethod item typeIdx name proto rounds (i + 1)

namespace DexKit

variable (kit : DexKit)

/-- `GetClassDeclaredPair`: the id of the dex instead of its pointer. -/
def getClassDeclaredPair (name : List UInt8) : Option (Nat × Nat) := kit.classTable.lookup name

/-- `ListClassMethods`. -/
def listClassMethods (classDescriptor : List UInt8) : Run (List (List UInt8)) :=
  match kit.getClassDeclaredPair classDescriptor with
  | none => pure []
  | some (dexId, typeIdx) => do
    let item ← vectorAt kit.dexItems dexId
    let methods ← vectorAt item.classMethodIds typeIdx
    methods.mapM fun midx => do
      let m ← item.reader.methodId midx
      item.describeMethod m

/-- `LocateMethod` on the parts of a descriptor. -/
def locateParts (cls name proto : List UInt8) : Run (Option MethodLocator) :=
  match kit.getClassDeclaredPair cls with
  | none => pure none
  | some (dexId, typeIdx) => do
    let item ← vectorAt kit.dexItems dexId
    let found ← item.findMethod typeIdx name proto item.reader.header.methodIdsSize 0
    pure (found.map fun i => ⟨dexId % 2 ^ 16, i⟩)

/-- `DexItemCodeSource::LocateMethod`. -/
def locateMethod (descriptor : List UInt8) : Run (Option MethodLocator) :=
  let normalized := descriptor.filter fun c => !isDescriptorSpace c
  match splitArrow normalized with
  | none => pure none
  | some (cls, rest) =>
    match splitParen rest with
    | none => pure none
    | some (name, proto) => kit.locateParts cls name proto

end DexKit

/-- A session of verified dexes: each was accepted before it was loaded, there
are no more than ids for them, and each declared its classes once, in some
order. -/
structure Session (kit : DexKit) : Prop where
  count : kit.dexItems.length ≤ 2 ^ 16
  verified : ∀ item ∈ kit.dexItems, ∃ image headerOff checkInsns st,
    (verifyDex image checkInsns headerOff st).1.ok = true ∧ loadDexItem image headerOff = .ok item
  declared : ∃ order, order.Perm (List.range kit.dexItems.length) ∧
    declareAll kit.dexItems order [] = .ok kit.classTable

section Split

variable {cls name proto rest text : List UInt8}

theorem splitArrow_append (hcls : 0x3e ∉ cls) :
    splitArrow (cls ++ 0x2d :: 0x3e :: rest) = some (cls, rest) := by
  induction cls with
  | nil => rfl
  | cons c cls ih =>
    have htail : 0x3e ∉ cls := fun h => hcls (List.mem_cons_of_mem c h)
    rw [List.cons_append, splitArrow, ih htail]
    · rfl
    · -- the next character is no `>`: it is in `cls`, or the `-` of the arrow
      intro rest' _ hnext
      cases cls with
      | nil => exact absurd (List.cons.inj hnext).1 (by decide)
      | cons c' cls =>
        rw [(List.cons.inj hnext).1] at htail
        exact htail List.mem_cons_self

theorem eq_of_splitArrow (h : splitArrow text = some (cls, rest)) :
    text = cls ++ 0x2d :: 0x3e :: rest := by
  induction text using splitArrow.induct generalizing cls with
  | case1 rest' =>
    obtain ⟨rfl, rfl⟩ := Prod.mk.inj (Option.some.inj h)
    rfl
  | case2 c text hnot ih =>
    rw [splitArrow, Option.map_eq_some_iff] at h
    · obtain ⟨⟨cls', rest'⟩, hsplit, heq⟩ := h
      obtain ⟨rfl, rfl⟩ := Prod.mk.inj heq
      rw [ih hsplit, List.cons_append]
    · exact hnot
  | case3 => cases h

theorem splitParen_append (hname : 0x28 ∉ name) :
    splitParen (name ++ 0x28 :: rest) = some (name, 0x28 :: rest) := by
  induction name with
  | nil => rfl
  | cons c name ih =>
    have hc : c ≠ 0x28 := fun h => hname (h ▸ List.mem_cons_self)
    rw [List.cons_append, splitParen, if_neg hc, ih fun h => hname (List.mem_cons_of_mem c h)]
    rfl

theorem eq_of_splitParen (h : splitParen text = some (name, proto)) : text = name ++ proto := by
  induction text generalizing name with
  | nil => cases h
  | cons c text ih =>
    unfold splitParen at h
    split at h
    · obtain ⟨rfl, rfl⟩ := Prod.mk.inj (Option.some.inj h)
      rfl
    · obtain ⟨⟨name', proto'⟩, hsplit, heq⟩ := Option.map_eq_some_iff.mp h
      obtain ⟨rfl, rfl⟩ := Prod.mk.inj heq
      rw [ih hsplit, List.cons_append]

/-- The only whitespace a printed descriptor can hold is the blank. -/
theorem MethodParts.WellFormed.whitespace {p : MethodParts} (h : p.WellFormed) {b : UInt8}
    (hb : b ∈ p.text) : b ∉ [0x09, 0x0a, 0x0d] := by
  have hdesc {d : List UInt8} (hd : IsDescriptor d) (hb : b ∈ d) : b ∉ [0x09, 0x0a, 0x0d] :=
    fun hmem => hd.not_punctuation hb (List.mem_append_left [0x28, 0x29, 0x3e] hmem)
  simp only [MethodParts.text, MethodParts.proto, List.mem_append, List.mem_cons,
    List.not_mem_nil, or_false] at hb
  rcases hb with hb | (rfl | rfl) | hb | rfl | hb | rfl | hb
  · exact hdesc h.cls hb
  · decide
  · decide
  · rcases h.name.not_punctuation hb with rfl | hnot
    · decide
    · exact fun hmem => hnot (List.mem_append_left [0x28, 0x29, 0x3e] hmem)
  · decide
  · obtain ⟨d, hd, hb⟩ := List.mem_flatten.mp hb
    exact hdesc (h.params d hd) hb
  · decide
  · exact hdesc h.ret hb

end Split

section Table

variable {items : List DexItem} {entry : List UInt8 → Nat → Nat → Prop}

/-- Every declared class is a type of the dex it resolves to. -/
def NamesTypes (items : List DexItem) (table : ClassTable) : Prop :=
  ∀ name dexId typeIdx, table.lookup name = some (dexId, typeIdx) →
    ∃ item, items[dexId]? = some item ∧ item.typeNames[typeIdx]? = some name

/-- Every entry of a class table satisfies `entry`. -/
def Entries (entry : List UInt8 → Nat → Nat → Prop) (table : ClassTable) : Prop :=
  ∀ name dexId typeIdx, table.lookup name = some (dexId, typeIdx) → entry name dexId typeIdx

theorem Entries.putDeclaredClass {table : ClassTable} (h : Entries entry table)
    {name : List UInt8} {dexId typeIdx : Nat} (hnew : entry name dexId typeIdx) :
    Entries entry (putDeclaredClass table name dexId typeIdx) := by
  have hinsert : Entries entry ((name, (dexId, typeIdx)) :: table) := by
    intro name' dexId' typeIdx' hlookup
    rw [List.lookup_cons] at hlookup
    split at hlookup
    · rename_i hsame
      obtain ⟨rfl, rfl⟩ := Prod.mk.inj (Option.some.inj hlookup)
      rw [eq_of_beq hsame]
      exact hnew
    · exact h name' dexId' typeIdx' hlookup
  unfold Dexllm.putDeclaredClass
  split
  · exact hinsert
  · split
    · exact hinsert
    · exact h

/-- Dexes that have an id each put nothing but their class_defs into the
table. -/
theorem Entries.declareAll (hcount : items.length ≤ 2 ^ 16)
    (hentry : ∀ (dexId c : Nat) item cd name, items[dexId]? = some item →
      c < item.reader.header.classDefsSize → item.reader.classDef c = .ok cd →
      item.typeNames[cd.classIdx]? = some name → entry name dexId cd.classIdx)
    {order : List Nat} {table table' : ClassTable} (h : Entries entry table)
    (hrun : declareAll items order table = .ok table') : Entries entry table' := by
  induction order generalizing table with
  | nil =>
    obtain rfl := Except.ok.inj hrun
    exact h
  | cons dexId order ih =>
    obtain ⟨item, hitem, hrun⟩ := bind_eq_ok.mp hrun
    obtain ⟨table1, hdeclare, hrun⟩ := bind_eq_ok.mp hrun
    have hitem := vectorAt_eq_ok.mp hitem
    have hid : dexId % 2 ^ 16 = dexId := by
      obtain ⟨hlt, _⟩ := List.getElem?_eq_some_iff.mp hitem
      exact Nat.mod_eq_of_lt (by omega)
    refine ih ?_ hrun
    refine loop_invariant (fun _ => Entries entry) hdeclare h
      fun c table table' hc hinv hround => ?_
    obtain ⟨cd, hcd, hround⟩ := bind_eq_ok.mp hround
    obtain ⟨name, hname, hround⟩ := bind_eq_ok.mp hround
    obtain rfl := Except.ok.inj hround
    rw [hid]
    exact hinv.putDeclaredClass (hentry dexId c item cd name hitem hc hcd (vectorAt_eq_ok.mp hname))

theorem Session.entries {kit : DexKit} (h : Session kit)
    (hentry : ∀ (dexId c : Nat) item cd name, kit.dexItems[dexId]? = some item →
      c < item.reader.header.classDefsSize → item.reader.classDef c = .ok cd →
      item.typeNames[cd.classIdx]? = some name → entry name dexId cd.classIdx) :
    Entries entry kit.classTable := by
  obtain ⟨order, _, hrun⟩ := h.declared
  refine Entries.declareAll h.count hentry ?_ hrun
  intro name dexId typeIdx hlookup
  cases hlookup

theorem Session.namesTypes {kit : DexKit} (h : Session kit) :
    NamesTypes kit.dexItems kit.classTable :=
  h.entries fun _ _ item _ _ hitem _ _ hname => ⟨item, hitem, hname⟩

end Table

section Find

variable {v : Verifier} {item : DexItem} {methodHandleCount typeIdx : Nat}
  {name proto : List UInt8}

/-- Method `j` has this class, name and proto. -/
def PassesTest (v : Verifier) (item : DexItem) (typeIdx : Nat) (name proto : List UInt8)
    (j : Nat) : Prop :=
  let m := methodIdAt v.image (v.methodIdAddr j)
  m.classIdx = typeIdx ∧ (partsOf v item m).name = name ∧ (partsOf v item m).proto = proto

instance (j : Nat) : Decidable (PassesTest v item typeIdx name proto j) :=
  inferInstanceAs (Decidable (_ ∧ _ ∧ _))

/-- The test of the method loop reads the parts of the method_id. -/
theorem isMethod_eq_view (hl : Loaded v item) (hintra : v.IntraOk methodHandleCount) {i : Nat}
    {m : MethodId} (hi : i < v.header.methodIdsSize)
    (hview : methodIdAt v.image (v.methodIdAddr i) = m) :
    item.isMethod typeIdx name proto i = .ok (decide (m.classIdx = typeIdx ∧
      (partsOf v item m).name = name ∧ (partsOf v item m).proto = proto)) := by
  have hm : v.MethodIdOk m := hview ▸ hintra.method i hi
  have hparts := (describeMethod_eq hl hintra hm).2
  have hprotoOk := hintra.proto m.protoIdx hm.proto
  have hparams := (hl.paramDescriptors_eq hprotoOk (hl.protoParams _ hm.proto)).2
  have hname : vectorAt item.strings m.nameIdx = .ok (partsOf v item m).name :=
    vectorAt_eq_ok.mpr hparts.name
  have hproto : (do let pr ← item.reader.protoId m.protoIdx; item.buildProto pr) =
      .ok (partsOf v item m).proto := by
    rw [protoId_eq hl hintra hm.proto, bind_ok, DexItem.buildProto, hparams]
    rfl
  obtain ⟨pr, hread, hproto⟩ := bind_eq_ok.mp hproto
  rw [DexItem.isMethod, methodId_eq hl hintra hi, hview, bind_ok]
  by_cases hcls : m.classIdx = typeIdx
  · rw [if_neg (not_not.mpr hcls), hname, bind_ok]
    by_cases hsame : (partsOf v item m).name = name
    · rw [if_neg (not_not.mpr hsame), hread, bind_ok, hproto, bind_ok]
      simp [hcls, hsame, pure, Except.pure, beq_eq_decide]
    · rw [if_pos hsame]
      simp [hsame, pure, Except.pure]
  · rw [if_pos hcls]
    simp [hcls, pure, Except.pure]

theorem isMethod_eq (hl : Loaded v item) (hintra : v.IntraOk methodHandleCount) {i : Nat}
    (hi : i < v.header.methodIdsSize) :
    item.isMethod typeIdx name proto i = .ok (decide (PassesTest v item typeIdx name proto i)) :=
  isMethod_eq_view hl hintra hi rfl

/-- The method loop returns the first method that passes the test. -/
theorem findMethod_eq {n : Nat} {test : Nat → Bool}
    (htest : ∀ i, i < n → item.isMethod typeIdx name proto i = .ok (test i)) (rounds i : Nat)
    (hrounds : i + rounds = n) :
    (∃ j, i ≤ j ∧ j < n ∧ test j = true ∧
        item.findMethod typeIdx name proto rounds i = .ok (some j)) ∨
      ((∀ j, i ≤ j → j < n → test j = false) ∧
        item.findMethod typeIdx name proto rounds i = .ok none) := by
  induction rounds generalizing i with
  | zero => exact .inr ⟨fun j hij hj => by omega, rfl⟩
  | succ rounds ih =>
    have hrun := htest i (by omega)
    cases hfound : test i with
    | true =>
      refine .inl ⟨i, le_rfl, by omega, hfound, ?_⟩
      rw [DexItem.findMethod, hrun, bind_ok, if_pos hfound]
      rfl
    | false =>
      have hskip : item.findMethod typeIdx name proto (rounds + 1) i =
          item.findMethod typeIdx name proto rounds (i + 1) := by
        rw [DexItem.findMethod, hrun, bind_ok, if_neg (by simp [hfound])]
      rw [hskip]
      rcases ih (i + 1) (by omega) with ⟨j, hij, hj, hj', hfind⟩ | ⟨hnone, hfind⟩
      · exact .inl ⟨j, by omega, hj, hj', hfind⟩
      · refine .inr ⟨fun j hij hj => ?_, hfind⟩
        rcases Nat.lt_or_eq_of_le hij with hlt | rfl
        · exact hnone j hlt hj
        · exact hfound

end Find

section Main

variable {kit : DexKit} {classDescriptor d : List UInt8} {ds : List (List UInt8)}

/-- The verified dex behind an item of a session. -/
theorem Session.loaded (h : Session kit) {item : DexItem} (hitem : item ∈ kit.dexItems) :
    ∃ v methodHandleCount, Loaded v item ∧ v.IntraOk methodHandleCount ∧ v.InterOk := by
  obtain ⟨image, headerOff, checkInsns, st, hok, hload⟩ := h.verified item hitem
  obtain ⟨v, methodHandleCount, deviations, haccepted⟩ := accepted_of_verifyDex hok
  exact ⟨v, methodHandleCount, loaded_of_loadDexItem haccepted hload, haccepted.intraOk,
    haccepted.interOk⟩

/-- `descriptor` is located at a method that prints as `printed`. -/
def DexKit.Locates (kit : DexKit) (descriptor printed : List UInt8) : Prop :=
  ∃ locator item, kit.locateMethod descriptor = .ok (some locator) ∧
    kit.dexItems[locator.dexId]? = some item ∧
    item.buildMethodDescriptor locator.methodIdx = .ok printed

/-- Resolving parts runs the method loop over the dex that declares the
class. -/
theorem Session.locateParts_cases (h : Session kit) {cls name proto : List UInt8}
    {dexId typeIdx methodHandleCount : Nat} {item : DexItem} {v : Verifier}
    (hclass : kit.getClassDeclaredPair cls = some (dexId, typeIdx))
    (hitem : kit.dexItems[dexId]? = some item) (hl : Loaded v item)
    (hintra : v.IntraOk methodHandleCount) :
    (∃ j, j < v.header.methodIdsSize ∧ PassesTest v item typeIdx name proto j ∧
        kit.locateParts cls name proto = .ok (some ⟨dexId, j⟩)) ∨
      ((∀ j, j < v.header.methodIdsSize → ¬PassesTest v item typeIdx name proto j) ∧
        kit.locateParts cls name proto = .ok none) := by
  have hid : dexId % 2 ^ 16 = dexId := by
    obtain ⟨hlt, _⟩ := List.getElem?_eq_some_iff.mp hitem
    have hcount := h.count
    exact Nat.mod_eq_of_lt (by omega)
  have hrun : kit.locateParts cls name proto =
      (do
        let found ← item.findMethod typeIdx name proto v.header.methodIdsSize 0
        pure (found.map fun i => ⟨dexId, i⟩)) := by
    simp only [DexKit.locateParts, hclass, vectorAt_eq_ok.mpr hitem, bind_ok, hid,
      hl.reader.header]
  rcases findMethod_eq (fun i hi => isMethod_eq hl hintra hi) v.header.methodIdsSize 0
    (Nat.zero_add _) with ⟨j, _, hj, htest, hfind⟩ | ⟨hnone, hfind⟩
  · refine .inl ⟨j, hj, of_decide_eq_true htest, ?_⟩
    rw [hrun, hfind]
    rfl
  · refine .inr ⟨fun j hj => of_decide_eq_false (hnone j (Nat.zero_le j) hj), ?_⟩
    rw [hrun, hfind]
    rfl

/-- A method that passes the test prints as the parts that were looked up. -/
theorem PassesTest.printed {v : Verifier} {item : DexItem} {methodHandleCount typeIdx j : Nat}
    {cls name proto : List UInt8} (hl : Loaded v item) (hintra : v.IntraOk methodHandleCount)
    (hj : j < v.header.methodIdsSize) (hcls : item.typeNames[typeIdx]? = some cls)
    (htest : PassesTest v item typeIdx name proto j) :
    item.buildMethodDescriptor j = .ok (cls ++ 0x2d :: 0x3e :: (name ++ proto)) := by
  obtain ⟨htype, hname, hproto⟩ := htest
  have hparts := (describeMethod_eq hl hintra (hintra.method j hj)).2
  have hcls' : (partsOf v item (methodIdAt v.image (v.methodIdAddr j))).cls = cls := by
    have hget := hparts.cls
    rw [htype, hcls] at hget
    exact (Option.some.inj hget).symm
  rw [buildMethodDescriptor_eq hl hintra hj, MethodParts.text, hcls', hname, hproto]
  rfl

/-- Whatever is located prints as the descriptor without its whitespace. -/
theorem Session.printed_of_locateMethod (h : Session kit) {printed : List UInt8}
    (hlocates : kit.Locates d printed) : printed = d.filter fun c => !isDescriptorSpace c := by
  obtain ⟨locator, item, hrun, hitem, hprinted⟩ := hlocates
  simp only [DexKit.locateMethod] at hrun
  split at hrun
  · cases hrun
  rename_i cls rest harrow
  split at hrun
  · cases hrun
  rename_i name proto hparen
  rw [eq_of_splitArrow harrow, eq_of_splitParen hparen]
  cases hclass : kit.getClassDeclaredPair cls with
  | none =>
    rw [DexKit.locateParts, hclass] at hrun
    cases hrun
  | some pair =>
    obtain ⟨dexId, typeIdx⟩ := pair
    obtain ⟨item', hitem', hcls⟩ := h.namesTypes cls dexId typeIdx hclass
    obtain ⟨v, methodHandleCount, hl, hintra, _⟩ := h.loaded (List.mem_of_getElem? hitem')
    rcases @Session.locateParts_cases _ h _ name proto _ _ _ _ _ hclass hitem' hl hintra with
      ⟨j, hj, htest, hfound⟩ | ⟨_, hnone⟩
    · rw [hfound] at hrun
      obtain rfl := Option.some.inj (Except.ok.inj hrun)
      obtain rfl := Option.some.inj (hitem.symm.trans hitem')
      rw [htest.printed hl hintra hj hcls] at hprinted
      exact (Except.ok.inj hprinted).symm
    · rw [hnone] at hrun
      cases hrun

/-- What a listed descriptor is made of, and the method it was listed for. -/
theorem Session.listed (h : Session kit) (hlist : kit.listClassMethods classDescriptor = .ok ds)
    (hd : d ∈ ds) :
    ∃ dexId typeIdx item v methodHandleCount m,
      kit.getClassDeclaredPair classDescriptor = some (dexId, typeIdx) ∧
      kit.dexItems[dexId]? = some item ∧ Loaded v item ∧ v.IntraOk methodHandleCount ∧
      v.InterOk ∧ item.typeNames[typeIdx]? = some classDescriptor ∧
      m < v.header.methodIdsSize ∧ (methodIdAt v.image (v.methodIdAddr m)).classIdx = typeIdx ∧
      d = (partsOf v item (methodIdAt v.image (v.methodIdAddr m))).text := by
  unfold DexKit.listClassMethods at hlist
  split at hlist
  · obtain rfl := Except.ok.inj hlist
    cases hd
  rename_i dexId typeIdx hclass
  obtain ⟨item, hitem, hlist⟩ := bind_eq_ok.mp hlist
  obtain ⟨methods, hmethods, hlist⟩ := bind_eq_ok.mp hlist
  obtain ⟨m, hm, hrun⟩ := mem_of_mapM_eq_ok hlist hd
  have hitem := vectorAt_eq_ok.mp hitem
  obtain ⟨v, methodHandleCount, hl, hintra, hinter⟩ := h.loaded (List.mem_of_getElem? hitem)
  obtain ⟨hlt, hown⟩ := hl.method _ _ (vectorAt_eq_ok.mp hmethods) m hm
  obtain ⟨item', hitem', hname⟩ := h.namesTypes _ _ _ hclass
  obtain rfl := Option.some.inj (hitem.symm.trans hitem')
  refine ⟨dexId, typeIdx, item, v, methodHandleCount, m, hclass, hitem, hl, hintra, hinter, hname,
    hlt, hown, ?_⟩
  rw [methodId_eq hl hintra hlt, bind_ok,
    (describeMethod_eq hl hintra (hintra.method m hlt)).1] at hrun
  exact (Except.ok.inj hrun).symm

/-- A listed method is located again, as a method with the same printed
descriptor, exactly when that descriptor has no blank in it. -/
theorem locates_listed_iff (h : Session kit)
    (hlist : kit.listClassMethods classDescriptor = .ok ds) (hd : d ∈ ds) :
    kit.Locates d d ↔ 0x20 ∉ d := by
  constructor
  · intro hlocates hblank
    have hsame := h.printed_of_locateMethod hlocates
    rw [hsame] at hblank
    exact absurd (List.mem_filter.mp hblank).2 (by decide)
  intro hblank
  obtain ⟨dexId, typeIdx, item, v, methodHandleCount, m, hclass, hitem, hl, hintra, hinter, hname,
    hm, hown, rfl⟩ := h.listed hlist hd
  have hparts := (describeMethod_eq hl hintra (hintra.method m hm)).2
  have hwell := hparts.wellFormed hl hintra hinter hm
  generalize hp : partsOf v item (methodIdAt v.image (v.methodIdAddr m)) = p at *
  have hcls : p.cls = classDescriptor := by
    have hget := hparts.cls
    rw [hown, hname] at hget
    exact (Option.some.inj hget).symm
  have hclean : (p.text.filter fun c => !isDescriptorSpace c) = p.text := by
    rw [List.filter_eq_self]
    intro c hc
    have hspace := hwell.whitespace hc
    have hne : c ≠ 0x20 := fun heq => hblank (heq ▸ hc)
    simp only [List.mem_cons, List.not_mem_nil, or_false, not_or] at hspace
    simp [isDescriptorSpace, hne, hspace]
  have harrow : splitArrow p.text = some (p.cls, p.name ++ p.proto) :=
    splitArrow_append fun hmem => hwell.cls.not_punctuation hmem (by decide)
  have hparen : splitParen (p.name ++ p.proto) = some (p.name, p.proto) :=
    splitParen_append hwell.name.not_paren
  have hrun : kit.locateMethod p.text = kit.locateParts classDescriptor p.name p.proto := by
    simp only [DexKit.locateMethod, hclean, harrow, hparen, hcls]
  have hself : PassesTest v item typeIdx p.name p.proto m :=
    ⟨hown, congrArg MethodParts.name hp, congrArg MethodParts.proto hp⟩
  rcases @Session.locateParts_cases _ h _ p.name p.proto _ _ _ _ _ hclass hitem hl hintra with
    ⟨j, hj, htest, hfound⟩ | ⟨hnone, _⟩
  · refine ⟨⟨dexId, j⟩, item, hrun.trans hfound, hitem, ?_⟩
    rw [htest.printed hl hintra hj hname, MethodParts.text, hcls]
    rfl
  · exact absurd hself (hnone m hm)

/-- The session of `spacedDex` alone. -/
def spacedKit : Run DexKit := do
  let item ← loadDexItem spacedDex 0
  let table ← declareAll [item] [0] []
  pure ⟨[item], table⟩

/-- `LA;`, `LA;->a()V` and `LA;->a b()V`. -/
def spacedClass : List UInt8 := [0x4c, 0x41, 0x3b]

def plainMethod : List UInt8 := [0x4c, 0x41, 0x3b, 0x2d, 0x3e, 0x61, 0x28, 0x29, 0x56]

def spacedMethod : List UInt8 := [0x4c, 0x41, 0x3b, 0x2d, 0x3e, 0x61, 0x20, 0x62, 0x28, 0x29, 0x56]

set_option maxRecDepth 20000 in
theorem spacedDex_runs : (verifyDex spacedDex true 0 {}).1.ok = true ∧
    (do
      let kit ← spacedKit
      let listed ← kit.listClassMethods spacedClass
      let located ← kit.locateMethod spacedMethod
      pure (listed, located)) = .ok ([plainMethod, spacedMethod], none) := by
  decide

theorem session_spacedKit {kit : DexKit} (hkit : spacedKit = .ok kit) : Session kit := by
  obtain ⟨item, hload, hkit⟩ := bind_eq_ok.mp hkit
  obtain ⟨table, htable, hkit⟩ := bind_eq_ok.mp hkit
  obtain rfl := Except.ok.inj hkit
  refine ⟨by simp, ?_, [0], List.Perm.refl _, htable⟩
  intro item' hitem'
  obtain rfl := List.mem_singleton.mp hitem'
  exact ⟨spacedDex, 0, true, {}, spacedDex_runs.1, hload⟩

theorem locates_listed_iff_spacedKit : ∃ kit, spacedKit = .ok kit ∧
    (kit.Locates plainMethod plainMethod ↔ 0x20 ∉ plainMethod) := by
  obtain ⟨-, hrun⟩ := spacedDex_runs
  obtain ⟨kit, hkit, hrun⟩ := bind_eq_ok.mp hrun
  obtain ⟨listed, hlist, hrun⟩ := bind_eq_ok.mp hrun
  obtain ⟨located, -, hrun⟩ := bind_eq_ok.mp hrun
  obtain ⟨rfl, -⟩ := Prod.mk.inj (Except.ok.inj hrun)
  exact ⟨kit, hkit, locates_listed_iff (session_spacedKit hkit) hlist (by simp)⟩

/-- `a b` is listed, but looking it up asks for `ab`. -/
theorem spacedMethod_not_located : ∃ kit, Session kit ∧
    kit.listClassMethods spacedClass = .ok [plainMethod, spacedMethod] ∧
    kit.locateMethod spacedMethod = .ok none := by
  obtain ⟨-, hrun⟩ := spacedDex_runs
  obtain ⟨kit, hkit, hrun⟩ := bind_eq_ok.mp hrun
  obtain ⟨listed, hlisted, hrun⟩ := bind_eq_ok.mp hrun
  obtain ⟨located, hlocated, hrun⟩ := bind_eq_ok.mp hrun
  obtain ⟨rfl, rfl⟩ := Prod.mk.inj (Except.ok.inj hrun)
  exact ⟨kit, session_spacedKit hkit, hlisted, hlocated⟩

end Main

end Dexllm
