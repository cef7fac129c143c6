import Dexllm.Core.DexItem
import Dexllm.Verifier.VerifySpecs

/-!
A dex the verifier accepted and the core loaded: both see the same header and
the same data range, the string and type caches hold the verified strings, and
a type's cached methods are methods of that type.
-/

namespace Dexllm

open Guarded Bytes Leb128 Mutf8

/-- String `i` of the dex consists of the bytes `bs`. -/
def Verifier.TextAt (v : Verifier) (i : Nat) (bs : List UInt8) : Prop :=
  ∃ us rest, v.stringContent i = .ok (bs ++ 0 :: rest) ∧ Spelling us bs

/-- The reader addresses the image as the verifier does. -/
structure ReaderOf (v : Verifier) (r : Reader) : Prop where
  image : r.image = v.image
  base : r.base = v.range.begin_
  header : r.header = v.header

/-- What the caches of a loaded item hold, in terms of the verified dex. -/
structure Loaded (v : Verifier) (item : DexItem) : Prop where
  reader : ReaderOf v item.reader
  stringCount : item.strings.length = v.header.stringIdsSize
  string : ∀ i bs, item.strings[i]? = some bs → v.TextAt i bs
  typeCount : item.typeNames.length = v.header.typeIdsSize
  typeName : ∀ i bs, item.typeNames[i]? = some bs → item.strings[v.descriptorIdxAt i]? = some bs
  methodTable : v.header.methodIdsOff < 2 ^ 31
  fieldTable : v.header.fieldIdsOff < 2 ^ 31
  protoTable : v.header.protoIdsOff < 2 ^ 31
  protoParams : ∀ i, i < v.header.protoIdsSize →
    (protoIdAt v.image (v.protoIdAddr i)).parametersOff < 2 ^ 31
  methodsCount : item.classMethodIds.length = v.header.typeIdsSize
  method : ∀ type methods, item.classMethodIds[type]? = some methods → ∀ m ∈ methods,
    m < v.header.methodIdsSize ∧ (methodIdAt v.image (v.methodIdAddr m)).classIdx = type

/-- Where `openReader` puts a dex, in the verifier's terms. -/
structure Opened (image : Memory) (headerOff : Nat) (v : Verifier) : Prop where
  header : v.header = headerAt image headerOff
  base : v.range.begin_ = if kV41Size ≤ v.header.headerSize then
    headerOff - u4At image (headerOff + 116) else headerOff

theorem opened_of_openVerifier {image : Memory} {headerOff : Nat} {checkInsns : Bool}
    {v : Verifier} (hopen : openVerifier image headerOff checkInsns = .ok v)
    (havail : kV41Size ≤ v.header.headerSize → kV41Size ≤ image.length - headerOff) :
    Opened image headerOff v := by
  unfold openVerifier at hopen
  split at hopen
  · rename_i hoff
    simp only [bind_eq_ok, failIf_eq_ok, read_eq_ok] at hopen
    obtain ⟨_, _, header, ⟨_, hheader⟩, range, hrange, hv⟩ := hopen
    obtain rfl := Except.ok.inj hv
    obtain rfl := hheader
    refine ⟨rfl, ?_⟩
    unfold computeDataRange at hrange
    by_cases hv41 : kV41Size ≤ (headerAt image headerOff).headerSize
    · have hboth := And.intro (havail hv41) hv41
      simp only [hboth, and_self, if_true, bind_eq_ok, failIf_eq_ok, readContainerOff,
        readContainerSize] at hrange
      obtain ⟨containerOff, hread, _, _, containerSize, _, hsize⟩ := hrange
      obtain ⟨_, rfl⟩ := read_eq_ok.mp hread
      split at hsize
      · cases hsize
      · obtain rfl := Except.ok.inj hsize
        simp only [hv41, if_true]
    · simp only [hv41, and_false, if_false] at hrange
      obtain rfl := Except.ok.inj hrange
      simp only [hv41, if_false]
  · cases hopen

theorem readerOf_of_openReader {image : Memory} {headerOff : Nat} {v : Verifier} {r : Reader}
    (himage : v.image = image) (hv : Opened image headerOff v)
    (hreader : openReader image headerOff = .ok r) : ReaderOf v r := by
  unfold openReader at hreader
  simp only [bind_eq_ok, read_eq_ok, slicerCheck_eq_ok] at hreader
  obtain ⟨header, ⟨_, hheader⟩, _, _, _, _, _, _, _, _, _, _, containerOff, hoff, containerSize, _,
    _, _, _, _, hr⟩ := hreader
  unfold readContainerOff at hoff
  obtain rfl := Except.ok.inj hr
  refine ⟨himage.symm, ?_, by rw [hv.header, ← hheader]⟩
  rw [hv.base, hv.header, hheader]
  split at hoff
  · rename_i hv41
    obtain ⟨_, rfl⟩ := read_eq_ok.mp hoff
    rw [if_pos hv41]
  · rename_i hv41
    obtain rfl := Except.ok.inj hoff
    rw [if_neg hv41]
    rfl

section Reads

variable {v : Verifier} {r : Reader} (hr : ReaderOf v r)

include hr

theorem wp_sectionAt {α : Type} {bytes off size i : Nat} {view : Memory → Nat → α}
    {post : α → Prop} (htable : off + size * bytes ≤ v.range.size_)
    (h : i < size → post (view v.image (v.tableAt off i bytes))) :
    wp (r.sectionAt bytes view off size i) post := by
  simp only [Reader.sectionAt, Reader.ptr, wp_bind, wp_slicerCheck, wp_pure, wp_read, hr.image,
    hr.base]
  intro _ hi
  exact ⟨Verifier.tableAt_le htable hi, h hi⟩

theorem wp_dataPtr {off bytes : Nat} {post : Nat → Prop} (h : post (v.offsetToPtr off)) :
    wp (r.dataPtr off bytes) post := by
  simp only [Reader.dataPtr, wp_bind, wp_slicerCheck, wp_pure, hr.base]
  exact fun _ => h

theorem sectionAt_eq {α : Type} {bytes off size i : Nat} {view : Memory → Nat → α}
    (hoff : off < 2 ^ 31) (htable : off + size * bytes ≤ v.range.size_) (hi : i < size) :
    r.sectionAt bytes view off size i = .ok (view v.image (v.tableAt off i bytes)) := by
  have hread : read bytes view v.image (v.tableAt off i bytes) =
      .ok (view v.image (v.tableAt off i bytes)) := read_of_le (Verifier.tableAt_le htable hi)
  have hcheck : slicerCheck (off < 2 ^ 31) = .ok () := slicerCheck_eq_ok.mpr hoff
  have hcheck' : slicerCheck (i < size) = .ok () := slicerCheck_eq_ok.mpr hi
  simp only [Reader.sectionAt, Reader.ptr, hcheck, hcheck', bind_ok, hr.image, hr.base]
  exact hread

theorem dataPtr_eq {off bytes : Nat} (hoff : off < 2 ^ 31) (hpos : off ≠ 0) :
    r.dataPtr off bytes = .ok (v.offsetToPtr off) := by
  have hcheck : slicerCheck (off < 2 ^ 31 ∧
      ((r.header.dataOff ≠ 0 ∧ off + bytes ≤ r.size) → 1 ≤ off)) = .ok () :=
    slicerCheck_eq_ok.mpr ⟨hoff, fun _ => by omega⟩
  simp only [Reader.dataPtr, hcheck, bind_ok, hr.base]
  rfl

variable {methodHandleCount : Nat} (h : v.IntraOk methodHandleCount)

include h

/-- The core reads the string the verifier checked. -/
theorem wp_readPoolString {i : Nat} (hi : i < v.header.stringIdsSize) :
    wp (readPoolString r i) fun bs => v.TextAt i bs := by
  obtain ⟨us, _, utf16Len, q, huleb, bs, rest, hspell, hdrop⟩ := h.string i hi
  have hcontent : v.stringContent i = .ok (v.image.drop q) := by
    simp only [Verifier.stringContent, Verifier.stringDataOff_eq h.tables hi, bind_ok,
      skipUleb_drop huleb]
  simp only [readPoolString, Reader.stringId, wp_bind]
  apply wp_sectionAt hr (hr.header ▸ h.tables.strings)
  intro _
  apply wp_dataPtr hr
  rw [hr.header, hr.image]
  rw [show v.offsetToPtr (u4At v.image (v.tableAt v.header.stringIdsOff i 4)) =
    v.offsetToPtr (v.stringDataOffAt i) from rfl, readULeb128_eq huleb, wp_except_ok]
  rw [hdrop, cString_terminated rest hspell.ne_zero, wp_except_ok]
  exact ⟨us, rest, by rw [hcontent, hdrop], hspell⟩

theorem wp_readTypeName {strings : List (List UInt8)} {i : Nat}
    (hcount : strings.length = v.header.stringIdsSize) (hi : i < v.header.typeIdsSize) :
    wp (readTypeName r strings i) fun bs => strings[v.descriptorIdxAt i]? = some bs := by
  simp only [readTypeName, Reader.typeId, wp_bind]
  apply wp_sectionAt hr (hr.header ▸ h.tables.types)
  intro _
  have hlt : v.descriptorIdxAt i < strings.length := hcount ▸ h.type i hi
  rw [hr.header]
  rw [show u4At v.image (v.tableAt v.header.typeIdsOff i 4) = v.descriptorIdxAt i from rfl,
    vectorAt, List.getElem?_eq_getElem hlt, wp_except_ok]

/-- The core only keeps protos whose parameter offset is no negative `int`. -/
theorem wp_cacheProtoId {i : Nat} :
    wp (cacheProtoId r i) fun _ => (protoIdAt v.image (v.protoIdAddr i)).parametersOff < 2 ^ 31 := by
  simp only [cacheProtoId, Reader.protoId, wp_bind]
  apply wp_sectionAt hr (hr.header ▸ h.tables.protos)
  intro _
  rw [hr.header]
  rw [show v.tableAt v.header.protoIdsOff i ProtoId.bytes = v.protoIdAddr i from rfl]
  simp only [Reader.dataPtr, wp_onlyIf, wp_bind, wp_slicerCheck, wp_pure]
  exact ⟨fun _ hoff => hoff.1, fun hzero => by omega⟩

end Reads

section ClassMethods

variable {mem : Memory} {n p q last : Nat} {members : List (Nat × Nat)}

/-- A walk over encoded fields ends where the verifier's did. -/
theorem skipFields_eq (h : MemberList false mem p n members q last) :
    skipFields mem n p = .ok q := by
  unfold skipFields
  induction h with
  | nil => rfl
  | field _ _ hdiff haccess ih =>
    simp only [loop_succ, ih, bind_ok, readULeb128_eq hdiff, readULeb128_eq haccess]
    rfl
  | method hextra => cases hextra

/-- A walk over encoded methods appends the indices the verifier checked. -/
theorem wp_readMethods {v : Verifier} {r : Reader} (hr : ReaderOf v r)
    (h : MemberList true v.image p n members q last) (methods : List Nat) :
    wp (readMethods r n p methods) fun result =>
      result = (q, methods ++ members.map Prod.fst) := by
  have hloop : wp (loop n (p, 0, methods) fun _ s => do
      let diff ← readULeb128 r.image s.1
      let access ← readULeb128 r.image diff.2
      let code ← readULeb128 r.image access.2
      let idx := (s.2.1 + diff.1) % 2 ^ 32
      onlyIf (code.1 ≠ 0) do
        let _ ← r.dataPtr code.1 Code.bytes
        pure ()
      pure (code.2, idx, s.2.2 ++ [idx])) fun s =>
        s = (q, last, methods ++ members.map Prod.fst) := by
    rw [hr.image]
    induction h with
    | nil => simp [loop, loopFrom]
    | field hextra => cases hextra
    | method _ _ hdiff haccess hcode ih =>
      rw [loop_succ, wp_bind]
      refine wp_mono ih fun s hs => ?_
      subst hs
      simp only [readULeb128_eq hdiff, readULeb128_eq haccess, readULeb128_eq hcode, bind_ok,
        wp_bind, wp_onlyIf, wp_pure, List.map_append, List.map_cons, List.map_nil,
        List.append_assoc, and_true, implies_true]
      exact fun _ => wp_dataPtr hr trivial
  unfold readMethods
  rw [wp_bind]
  refine wp_mono hloop fun s hs => ?_
  subst hs
  rfl

/-- Reading a verified class_data appends its method indices. -/
theorem wp_readClassMethods {v : Verifier} {r : Reader} (hr : ReaderOf v r) {off : Nat}
    {sf inf dm vm : List (Nat × Nat)} (hdata : ClassData v.image (v.offsetToPtr off) sf inf dm vm)
    (methods : List Nat) :
    wp (readClassMethods r off methods) fun result =>
      result = methods ++ (dm ++ vm).map Prod.fst := by
  obtain ⟨p1, p2, p3, p4, q1, q2, q3, q4, l1, l2, l3, l4, hn1, hn2, hn3, hn4, hsf, hinf, hdm,
    hvm⟩ := hdata.layout
  simp only [readClassMethods, wp_bind]
  apply wp_dataPtr hr
  simp only [hr.image, readULeb128_eq hn1, readULeb128_eq hn2, readULeb128_eq hn3,
    readULeb128_eq hn4, skipFields_eq hsf, skipFields_eq hinf, wp_except_ok]
  refine wp_mono (wp_readMethods hr hdm methods) fun s hs => ?_
  subst hs
  refine wp_mono (wp_readMethods hr hvm _) fun s hs => ?_
  subst hs
  simp

/-- Every cached method of a type has that type as its class. -/
def OwnMethods (v : Verifier) (classMethodIds : List (List Nat)) : Prop :=
  classMethodIds.length = v.header.typeIdsSize ∧
    ∀ type methods, classMethodIds[type]? = some methods → ∀ m ∈ methods,
      m < v.header.methodIdsSize ∧ (methodIdAt v.image (v.methodIdAddr m)).classIdx = type

theorem wp_readInterfaces {v : Verifier} {r : Reader} (hr : ReaderOf v r) {off : Nat}
    (hlist : off ≠ 0 → TypeListOk v.image v.endOfFile v.header.typeIdsSize (v.offsetToPtr off)) :
    wp (readInterfaces r off) fun _ => True := by
  unfold readInterfaces
  rw [wp_ite]
  refine ⟨fun hoff => ?_, fun _ => trivial⟩
  have hspan := (hlist hoff).span
  have hend := v.endOfFile_le
  rw [wp_bind]
  apply wp_dataPtr hr
  rw [hr.image, wp_bind, wp_readU4]
  refine ⟨by omega, ?_⟩
  refine wp_mono (@wp_collect _ _ _ (fun _ _ => True) fun i hi => ?_) fun _ _ => trivial
  rw [wp_readU2]
  exact ⟨by omega, trivial⟩

theorem wp_cacheClassDef {v : Verifier} {r : Reader} {methodHandleCount c : Nat}
    (hr : ReaderOf v r) (h : v.IntraOk methodHandleCount) (hinter : v.InterOk)
    (hc : c < v.header.classDefsSize) {classMethodIds : List (List Nat)}
    (hown : OwnMethods v classMethodIds) :
    wp (cacheClassDef r c classMethodIds) (OwnMethods v) := by
  simp only [cacheClassDef, Reader.classDef, wp_bind]
  apply wp_sectionAt hr (hr.header ▸ h.tables.classDefs)
  intro _
  rw [hr.header]
  have hvalid := hinter.classDefValid c hc
  have hok := h.classDef c hc
  rw [show v.tableAt v.header.classDefsOff c ClassDef.bytes = v.classDefAddr c from rfl]
  generalize classDefAt v.image (v.classDefAddr c) = cd at hvalid hok ⊢
  refine wp_mono (wp_readInterfaces hr hok.interfaces) fun _ _ => ?_
  rw [wp_ite]
  refine ⟨fun _ => hown, fun hdata => ?_⟩
  obtain ⟨sf, inf, dm, vm, hlayout, _, hmethods⟩ := hvalid.classData hdata
  obtain ⟨hlen, hall⟩ := hown
  have hcls : cd.classIdx < classMethodIds.length := hlen ▸ hok.cls
  rw [vectorAt, List.getElem?_eq_getElem hcls]
  simp only [wp_bind, wp_except_ok, wp_pure]
  refine wp_mono (wp_readClassMethods hr hlayout _) fun result hresult => ?_
  subst hresult
  refine ⟨by rw [List.length_set, hlen], fun type methods hget m hm => ?_⟩
  by_cases htype : cd.classIdx = type
  · subst htype
    rw [List.getElem?_set_self hcls] at hget
    obtain rfl := Option.some.inj hget
    rw [List.mem_insertionSort] at hm
    rcases List.mem_append.mp hm with hold | hnew
    · exact hall _ _ (List.getElem?_eq_getElem hcls) m hold
    · obtain ⟨member, hmember, rfl⟩ := List.mem_map.mp hnew
      exact hmethods member hmember
  · rw [List.getElem?_set_ne htype] at hget
    exact hall type methods hget m hm

end ClassMethods

/-- A dex that was verified and loaded has the caches `Loaded` describes. -/
theorem loaded_of_loadDexItem {image : Memory} {headerOff methodHandleCount : Nat}
    {checkInsns : Bool} {st : VerifyImageState} {v : Verifier} {deviations : List String}
    {item : DexItem} (h : Accepted image headerOff checkInsns st v methodHandleCount deviations)
    (hload : loadDexItem image headerOff = .ok item) : Loaded v item := by
  obtain ⟨r, hopen, hinit⟩ := bind_eq_ok.mp hload
  have hsizes := Verifier.sizesOk_of_checkHeader h.header
  obtain ⟨hoff, himage, hheaderOff, _⟩ := h.openSpec
  have havail : kV41Size ≤ v.header.headerSize → kV41Size ≤ image.length - headerOff := by
    intro hv41
    have hfile := hsizes.file
    have hsize := hsizes.header
    unfold Verifier.avail at hfile
    rw [himage, hheaderOff] at hfile
    omega
  have hr := readerOf_of_openReader himage (opened_of_openVerifier h.opened havail) hopen
  have hintra := h.intraOk
  simp only [initBaseCache, bind_eq_ok, hr.header] at hinit
  obtain ⟨_, htables, strings, hstrings, typeNames, htypes, _, hprotos, classMethodIds, hmethods,
    hitem⟩ := hinit
  simp only [Reader.viewTables, bind_eq_ok, slicerCheck_eq_ok, hr.header] at htables
  obtain ⟨_, _, _, _, _, hprotoTable, _, hfieldTable, _, hmethodTable, _⟩ := htables
  obtain rfl := Except.ok.inj hitem
  have hstrings' := wp_collect fun i hi => wp_readPoolString hr hintra (i := i) hi
  rw [hstrings] at hstrings'
  have htypes' := wp_collect fun i hi => wp_readTypeName hr hintra hstrings'.1 (i := i) hi
  rw [htypes] at htypes'
  have hprotos' := wp_forUpTo (n := v.header.protoIdsSize) fun i _ =>
    wp_cacheProtoId hr hintra (i := i)
  rw [hprotos] at hprotos'
  have hstart : OwnMethods v (List.replicate v.header.typeIdsSize []) := by
    refine ⟨List.length_replicate, fun type methods hget m hm => ?_⟩
    rw [List.getElem?_replicate] at hget
    split at hget
    · obtain rfl := Option.some.inj hget
      cases hm
    · cases hget
  have hmethods' := wp_loop (fun _ => OwnMethods v) hstart fun c _ hc hown =>
    wp_cacheClassDef hr hintra h.interOk hc hown
  rw [hmethods] at hmethods'
  exact ⟨hr, hstrings'.1, hstrings'.2, htypes'.1, htypes'.2, hmethodTable,
    hfieldTable, hprotoTable, hprotos', hmethods'.1, hmethods'.2⟩

end Dexllm
