import Dexllm.Core.CallSiteItems
import Dexllm.HandleMemo
import Dexllm.StaticInitSpecs

/-!
The elements of a call site's array in terms of the bytes of the image. An
argument comes out of exactly an element that starts in the image and names
something; the cursor after it stops at the end of the image.
-/

namespace Dexllm

open Guarded Bytes Cursor Leb128

namespace Verifier

variable (v : Verifier)

/-- The items of the map list. -/
def mapItems : List MapItem :=
  (List.range (u4At v.image (v.offsetToPtr v.header.mapOff))).map fun i =>
    mapItemAt v.image (v.tableAt (v.header.mapOff + 4) i MapItem.bytes)

/-- The map item of a section. -/
def mapSection (type : Nat) : Option MapItem := v.mapItems.find? fun mi => mi.type = type

end Verifier

section Elements

variable (mem : Memory)

/-- The type of the element at `p`. -/
def elementType (p : Nat) : Nat := byteAt mem p &&& 0x1f

/-- The end of the element at `p`, wherever the image ends. -/
def elementEnd (p : Nat) : Nat := p + 1 + payloadWidth (byteAt mem p)

/-- Where element `k` of the array whose first one is at `first` starts. -/
def elementAt (first k : Nat) : Nat := (elementEnd mem)^[k] first

/-- The payload of the element at `p`: the bytes of it that the image has. -/
def elementPayload (p : Nat) : Nat :=
  leValue mem (p + 1) (min (payloadWidth (byteAt mem p)) (mem.length - (p + 1)))

theorem elementAt_succ (first k : Nat) :
    elementAt mem first (k + 1) = elementAt mem (elementEnd mem first) k :=
  Function.iterate_succ_apply _ _ _

theorem elementAt_succ' (first k : Nat) :
    elementAt mem first (k + 1) = elementEnd mem (elementAt mem first k) :=
  Function.iterate_succ_apply' _ _ _

end Elements

namespace Verifier

variable (v : Verifier)

/-- The element at `p` asks for a method handle. -/
structure HandleElement (p : Nat) : Prop where
  inImage : p < v.image.length
  type : elementType v.image p = 0x16
  narrow : elementPayload v.image p < 2 ^ 32

/-- A method_handle_item leads to a member with a name. -/
def MemberNamed (item : DexItem) (mh : MethodHandle) : Prop :=
  if kMhFirstMethodKind ≤ mh.methodHandleType then
    mh.fieldOrMethodId < v.header.methodIdsSize ∧
      item.strings[(methodIdAt v.image (v.methodIdAddr mh.fieldOrMethodId)).nameIdx]? ≠ some []
  else
    mh.fieldOrMethodId < v.header.fieldIdsSize ∧
      item.strings[(fieldIdAt v.image (v.fieldIdAddr mh.fieldOrMethodId)).nameIdx]? ≠ some []

/-- An argument of this type has a literal when its payload is `raw`. -/
def ArgResolves (item : DexItem) (type raw : Nat) : Prop :=
  match type with
  | 0x00 | 0x02 | 0x03 | 0x04 | 0x06 | 0x10 | 0x11 | 0x1f => True
  | 0x15 => raw < v.header.protoIdsSize
  | 0x16 => ∃ s, v.mapSection kMethodHandleItem = some s ∧ raw < s.size ∧
      v.MemberNamed item (v.handleAt s.offset raw)
  | 0x17 => raw < v.header.stringIdsSize
  | 0x18 => raw < v.header.typeIdsSize
  | _ => False

/-- An element that starts in the image and has a literal, be its payload whole
or cut by the end of the image. -/
structure ElementReads (item : DexItem) (p : Nat) : Prop where
  inImage : p < v.image.length
  resolves : v.ArgResolves item (elementType v.image p) (elementPayload v.image p)

variable {v}

/-- The map list of a checked map, with the spans of its method_handle items. -/
structure MapListed (v : Verifier) : Prop where
  room : v.header.mapOff + 4 + u4At v.image (v.offsetToPtr v.header.mapOff) * 12 ≤ v.range.size_
  handles : ∀ s, v.mapSection kMethodHandleItem = some s → v.HandleSpanOk s.offset s.size

theorem handleSpan_of_checkMapItems {rounds i : Nat} {cursor last : MapCursor}
    {st : VerifyImageState} (h : (v.checkMapItems rounds i cursor st).1 = .ok last) :
    ∀ j, i ≤ j → j < i + rounds → ∀ mi,
      mi = mapItemAt v.image (v.tableAt (v.header.mapOff + 4) j MapItem.bytes) →
      mi.type = kMethodHandleItem → v.HandleSpanOk mi.offset mi.size := by
  induction rounds generalizing i cursor st with
  | zero => intro j hj hlt; omega
  | succ rounds ih =>
    simp only [checkMapItems, Scratch.lift_bind_apply] at h
    cases hread : v.readMapItem i with
    | error e => simp [hread] at h
    | ok item =>
      simp only [hread, Scratch.andThen_ok, Scratch.lift_bind_apply] at h
      cases hcheck : v.checkMapItem i item cursor with
      | error e => simp [hcheck] at h
      | ok cursor' =>
        simp only [hcheck, Scratch.andThen_ok] at h
        have hspan := post_of_ok wp_checkMapItem hcheck
        obtain ⟨_, hitem⟩ := read_eq_ok.mp hread
        have hrest : ∃ cursor'' st',
            (v.checkMapItems rounds (i + 1) cursor'' st').1 = .ok last := by
          split at h
          · rw [Scratch.bind_apply] at h
            rcases hwalk : v.verifyMethodHandleSection item.offset item.size st with ⟨r, st'⟩
            rw [hwalk] at h
            cases r with
            | error e => cases h
            | ok _ => exact ⟨_, _, h⟩
          · exact ⟨_, _, h⟩
        obtain ⟨cursor'', st', hrest⟩ := hrest
        intro j hij hlt mi hmi htype
        rcases Nat.eq_or_lt_of_le hij with rfl | hij
        · rw [hitem] at hmi
          exact hmi ▸ hspan (hmi ▸ htype)
        · exact ih hrest j hij (by omega) mi hmi htype

theorem mapListed_of_checkMap {st : VerifyImageState} {count : Nat}
    (h : (v.checkMap st).1 = .ok count) : MapListed v := by
  simp only [checkMap, Scratch.lift_bind_apply] at h
  cases hcount : v.readMapCount with
  | error e => simp [hcount] at h
  | ok nitems =>
    have hroom := post_of_ok wp_readMapCount hcount
    have hnitems : nitems = u4At v.image (v.offsetToPtr v.header.mapOff) := by
      simp only [readMapCount, bind_eq_ok] at hcount
      obtain ⟨_, _, n, hread, _, _, hn⟩ := hcount
      obtain rfl := Except.ok.inj hn
      exact (read_eq_ok.mp hread).2.symm
    simp only [hcount, Scratch.andThen_ok, Scratch.bind_apply] at h
    rcases hitems : v.checkMapItems nitems 0 {} st with ⟨r, st'⟩
    cases r with
    | error e => simp [hitems] at h
    | ok cursor =>
      have hspans := handleSpan_of_checkMapItems (show (v.checkMapItems nitems 0 {} st).1 =
        .ok cursor by rw [hitems])
      refine ⟨hnitems ▸ hroom, fun s hs => ?_⟩
      have hfound : v.mapItems.find? (fun mi => mi.type = kMethodHandleItem) = some s := hs
      have htype : s.type = kMethodHandleItem := by simpa using List.find?_some hfound
      obtain ⟨j, hj, hjs⟩ := List.mem_map.mp (List.mem_of_find?_eq_some hfound)
      rw [List.mem_range, ← hnitems] at hj
      exact hspans j (Nat.zero_le j) (by omega) s hjs.symm htype

end Verifier

section Map

variable {v : Verifier} {item : DexItem} {image : Memory} {headerOff : Nat}

theorem findMapItem_eq {r : Reader} {type map rounds i : Nat}
    (hroom : map + 4 + (i + rounds) * 12 ≤ r.image.length) :
    r.findMapItem type map rounds i = .ok (((List.range' i rounds).map fun j =>
      mapItemAt r.image (map + 4 + j * MapItem.bytes)).find? fun mi => mi.type = type) := by
  induction rounds generalizing i with
  | zero => rfl
  | succ rounds ih =>
    have hread : read MapItem.bytes mapItemAt r.image (map + 4 + i * MapItem.bytes) =
        .ok (mapItemAt r.image (map + 4 + i * MapItem.bytes)) := by
      apply read_of_le
      simp only [MapItem.bytes]
      omega
    rw [Reader.findMapItem, hread, bind_ok, List.range'_succ, List.map_cons, List.find?_cons]
    split
    · rename_i htype
      rw [decide_eq_true htype]
      rfl
    · rename_i htype
      rw [decide_eq_false htype]
      exact ih (by omega)

/-- Checks of `ValidateHeader` that the verifier does not make. -/
structure HeaderValidated (header : Header) : Prop where
  protos : header.protoIdsSize < 65536
  mapOff : header.mapOff < 2 ^ 31
  dataOff : header.dataOff ≠ 0 → 1 ≤ header.mapOff

theorem headerValidated_of_openReader {r : Reader} (h : openReader image headerOff = .ok r) :
    HeaderValidated r.header := by
  simp only [openReader, bind_eq_ok] at h
  obtain ⟨_, _, _, _, _, _, _, _, _, _, _, _, _, _, _, _, _, _, _, hsections, hr⟩ := h
  rw [pure_eq_ok] at hr
  obtain rfl := Except.ok.inj hr
  simp only [Reader.validateSections, bind_eq_ok, Reader.ptr, slicerCheck_eq_ok,
    exists_const] at hsections
  obtain ⟨_, _, _, hprotos, _, _, _, _, hdata, _, _, _, _, _, _, ⟨hsmall, _⟩, _⟩ := hsections
  exact ⟨hprotos, hsmall, fun hne => Nat.lt_of_lt_of_le (Nat.pos_of_ne_zero hne) hdata⟩

section Sections

variable (hl : Loaded v item) (hlist : v.MapListed)

include hl hlist

theorem readMap_eq : readU4 item.reader.image (v.offsetToPtr v.header.mapOff) =
    .ok (u4At v.image (v.offsetToPtr v.header.mapOff)) := by
  have hin := v.range.inImage
  have hroom := hlist.room
  rw [hl.reader.image]
  apply read_of_le
  simp only [Verifier.offsetToPtr]
  omega

/-- The search for a section finds its map item. -/
theorem findMapItem_section (type : Nat) :
    item.reader.findMapItem type (v.offsetToPtr v.header.mapOff)
      (u4At v.image (v.offsetToPtr v.header.mapOff)) 0 = .ok (v.mapSection type) := by
  have hin := v.range.inImage
  have hroom := hlist.room
  simp only [Verifier.offsetToPtr] at hroom
  have hlist' : v.range.begin_ + v.header.mapOff + 4 +
      (0 + u4At v.image (v.range.begin_ + v.header.mapOff)) * 12 ≤ item.reader.image.length := by
    rw [hl.reader.image]
    omega
  simp only [Verifier.offsetToPtr]
  rw [findMapItem_eq hlist', hl.reader.image, ← List.range_eq_range']
  simp only [Verifier.mapSection, Verifier.mapItems, Verifier.tableAt, Verifier.offsetToPtr,
    Nat.add_assoc]

theorem methodHandles_eq (hheader : HeaderValidated v.header) :
    item.reader.methodHandles = match v.mapSection kMethodHandleItem with
      | none => .ok none
      | some s => if s.offset < 2 ^ 31 then .ok (some s)
        else .error (.thrown "SLICER_CHECK failed") := by
  have hptr : item.reader.dataPtr v.header.mapOff 4 = .ok (v.offsetToPtr v.header.mapOff) := by
    have hcheck : slicerCheck (v.header.mapOff < 2 ^ 31 ∧ ((item.reader.header.dataOff ≠ 0 ∧
        v.header.mapOff + 4 ≤ item.reader.size) → 1 ≤ v.header.mapOff)) = .ok () :=
      slicerCheck_eq_ok.mpr ⟨hheader.mapOff, fun h => hheader.dataOff (hl.reader.header ▸ h.1)⟩
    rw [Reader.dataPtr, hcheck, bind_ok, hl.reader.base]
    rfl
  rw [Reader.methodHandles, hl.reader.header, hptr, bind_ok, readMap_eq hl hlist, bind_ok,
    findMapItem_section hl hlist, bind_ok]
  cases v.mapSection kMethodHandleItem with
  | none => rfl
  | some s =>
    simp only [Reader.ptr, slicerCheck]
    split <;> rfl

theorem spanOf_eq : item.spanOf = some ⟨v.range.begin_, v.image.length - v.range.begin_⟩ := by
  have hin := v.range.inImage
  have hroom := hlist.room
  simp only [DexItem.spanOf, hl.reader.image, hl.reader.base]
  rw [if_neg (by omega)]

/-- `FindMapSection` gives the map item it looks for. -/
theorem findMapSection_eq (type : Nat) : item.findMapSection type =
    .ok ((v.mapSection type).map fun s => (s.offset, s.size)) := by
  have hin := v.range.inImage
  have hroom := hlist.room
  have hread := readMap_eq hl hlist
  have hfind := findMapItem_section hl hlist type
  simp only [Verifier.offsetToPtr] at hread hfind hroom
  have hmap : ¬(v.image.length - v.range.begin_ ≤ v.header.mapOff ∨
      v.image.length - v.range.begin_ - v.header.mapOff < 4) := by omega
  have hitems : ¬(v.image.length - v.range.begin_ - v.header.mapOff - 4) / MapItem.bytes <
      u4At v.image (v.range.begin_ + v.header.mapOff) := by
    simp only [MapItem.bytes]
    omega
  simp only [DexItem.findMapSection, spanOf_eq hl hlist, hl.reader.header, hmap, if_false, hread,
    bind_ok, hitems, hfind]
  rfl

end Sections

end Map

section Resolvers

variable {v : Verifier} {item : DexItem} {methodHandleCount : Nat}
  (hl : Loaded v item) (hintra : v.IntraOk methodHandleCount)

include hl hintra

theorem typeName_ne_nil (hinter : v.InterOk) {i : Nat} (hi : i < v.header.typeIdsSize) :
    item.typeNameOrEmpty i ≠ [] := by
  have hname := hl.typeName i _ (hl.typeNameOrEmpty hi).1
  exact (hinter.isDescriptor hintra hi (hl.string _ _ hname)).ne_nil

/-- A type name or proto is empty exactly when its index is out of range. -/
theorem typeNameOrEmpty_eq_nil_iff (hinter : v.InterOk) {i : Nat} :
    item.typeNameOrEmpty i = [] ↔ ¬i < v.header.typeIdsSize := by
  constructor
  · exact fun h hi => typeName_ne_nil hl hintra hinter hi h
  · intro hi
    rw [DexItem.typeNameOrEmpty]
    exact List.getD_eq_default _ _ (by rw [hl.typeCount]; omega)

theorem getProto_spec (i : Nat) :
    ∃ text, item.getProto i = .ok text ∧ (text = [] ↔ ¬i < v.header.protoIdsSize) := by
  rw [DexItem.getProto, hl.reader.header]
  split
  · rename_i hge
    exact ⟨[], rfl, by simp only [true_iff]; omega⟩
  · rename_i hlt
    have hi : i < v.header.protoIdsSize := by omega
    have hpr := hintra.proto i hi
    rw [protoId_eq hl hintra hi, bind_ok, DexItem.buildProto,
      (hl.paramDescriptors_eq hpr (hl.protoParams i hi)).2, bind_ok]
    exact ⟨_, rfl, by simp [hi]⟩

omit hintra in
/-- What a string table has at an index in range. -/
theorem exists_string {i : Nat} (hi : i < v.header.stringIdsSize) :
    ∃ s, item.strings[i]? = some s ∧ vectorAt item.strings i = .ok s :=
  vectorAt_eq (hl.stringCount ▸ hi)

theorem getMethodRefTriple_spec (hinter : v.InterOk) (m : Nat) :
    ∃ t, item.getMethodRefTriple m = .ok t ∧ ((t.cls = [] ∨ t.name = []) ↔
      ¬(m < v.header.methodIdsSize ∧
        item.strings[(methodIdAt v.image (v.methodIdAddr m)).nameIdx]? ≠ some [])) := by
  rw [DexItem.getMethodRefTriple, hl.reader.header]
  split
  · rename_i hge
    exact ⟨{}, rfl, by simp only [true_or, true_iff, not_and]; omega⟩
  · rename_i hlt
    have hm : m < v.header.methodIdsSize := by omega
    have hid := hintra.method m hm
    obtain ⟨name, hname, hnameAt⟩ := exists_string hl hid.name
    obtain ⟨proto, hproto, -⟩ := getProto_spec hl hintra
      (methodIdAt v.image (v.methodIdAddr m)).protoIdx
    rw [methodId_eq hl hintra hm, bind_ok, (hl.typeNameOrEmpty hid.cls).2, bind_ok, hnameAt,
      bind_ok, hproto, bind_ok, hname]
    refine ⟨_, rfl, ?_⟩
    simp [hm, typeName_ne_nil hl hintra hinter hid.cls]

theorem getFieldRefTriple_spec (hinter : v.InterOk) (f : Nat) :
    ∃ t, item.getFieldRefTriple f = .ok t ∧ ((t.cls = [] ∨ t.name = []) ↔
      ¬(f < v.header.fieldIdsSize ∧
        item.strings[(fieldIdAt v.image (v.fieldIdAddr f)).nameIdx]? ≠ some [])) := by
  rw [DexItem.getFieldRefTriple, hl.reader.header]
  split
  · rename_i hge
    exact ⟨{}, rfl, by simp only [true_or, true_iff, not_and]; omega⟩
  · rename_i hlt
    have hf : f < v.header.fieldIdsSize := by omega
    have hid := hintra.field f hf
    obtain ⟨name, hname, hnameAt⟩ := exists_string hl hid.name
    rw [fieldId_eq hl hintra hf, bind_ok, (hl.typeNameOrEmpty hid.cls).2, bind_ok, hnameAt,
      bind_ok, (hl.typeNameOrEmpty hid.type).2, bind_ok, hname]
    refine ⟨_, rfl, ?_⟩
    simp [hf, typeName_ne_nil hl hintra hinter hid.cls]

/-- A method_handle_item names a member or leads nowhere. -/
theorem memberTriple_spec (hinter : v.InterOk) (mh : MethodHandle) :
    ∃ t, (∀ f : RefTriple → Run (Option HandleArg),
        (if kMhFirstMethodKind ≤ mh.methodHandleType
          then item.getMethodRefTriple mh.fieldOrMethodId >>= f
          else item.getFieldRefTriple mh.fieldOrMethodId >>= f) = f t) ∧
      ((t.cls = [] ∨ t.name = []) ↔ ¬v.MemberNamed item mh) := by
  unfold Verifier.MemberNamed
  split
  · obtain ⟨t, ht, hnamed⟩ := getMethodRefTriple_spec hl hintra hinter mh.fieldOrMethodId
    exact ⟨t, fun f => by rw [ht, bind_ok], hnamed⟩
  · obtain ⟨t, ht, hnamed⟩ := getFieldRefTriple_spec hl hintra hinter mh.fieldOrMethodId
    exact ⟨t, fun f => by rw [ht, bind_ok], hnamed⟩

variable (hlist : v.MapListed) (hheader : HeaderValidated v.header)

include hlist hheader

/-- `ResolveMethodHandle` on a section whose offset is no negative `int`. -/
theorem resolveMethodHandle_spec (hinter : v.InterOk)
    (hsafe : ∀ s, v.mapSection kMethodHandleItem = some s → s.offset < 2 ^ 31) (raw : Nat) :
    ∃ h, item.resolveMethodHandle raw = .ok h ∧ (h.isSome = true ↔
      ∃ s, v.mapSection kMethodHandleItem = some s ∧ raw < s.size ∧
        v.MemberNamed item (v.handleAt s.offset raw)) := by
  rw [DexItem.resolveMethodHandle, methodHandles_eq hl hlist hheader]
  cases hsection : v.mapSection kMethodHandleItem with
  | none => exact ⟨none, rfl, by simp⟩
  | some s =>
    simp only [hsafe s hsection, if_true, bind_ok]
    split
    · rename_i hge
      refine ⟨none, rfl, ?_⟩
      simp only [Option.isSome_none, Bool.false_eq_true, Option.some.injEq, false_iff, not_exists]
      rintro _ ⟨rfl, hlt, _⟩
      omega
    · rename_i hlt
      have hsize : raw < s.size := by omega
      have hread := @sectionAt_eq _ _ hl.reader _ _ _ _ _ methodHandleAt (hsafe s hsection)
        (hlist.handles s hsection) hsize
      obtain ⟨t, ht, hempty⟩ := memberTriple_spec hl hintra hinter (v.handleAt s.offset raw)
      rw [hread, bind_ok]
      have hrun := ht fun triple =>
        if triple.cls = [] ∨ triple.name = [] then pure none
        else pure (some ⟨(v.handleAt s.offset raw).methodHandleType, triple⟩)
      rw [Verifier.handleAt] at hrun
      rw [hrun]
      split
      · rename_i hnone
        refine ⟨none, rfl, ?_⟩
        simp only [Option.isSome_none, Bool.false_eq_true, Option.some.injEq, false_iff, not_exists]
        rintro _ ⟨rfl, _, hnamed⟩
        exact hempty.mp hnone hnamed
      · rename_i hsome
        refine ⟨_, rfl, ?_⟩
        simp only [Option.isSome_some, true_iff]
        exact ⟨s, rfl, hsize, not_not.mp fun h => hsome (hempty.mpr h)⟩

omit hintra in
/-- `ResolveMethodHandle` throws on any other section. -/
theorem resolveMethodHandle_thrown {s : MapItem} (hs : v.mapSection kMethodHandleItem = some s)
    (hlarge : ¬s.offset < 2 ^ 31) (raw : Nat) :
    item.resolveMethodHandle raw = .error (.thrown "SLICER_CHECK failed") := by
  rw [DexItem.resolveMethodHandle, methodHandles_eq hl hlist hheader, hs]
  simp only [hlarge, if_false, bind_error]

omit hl hintra hlist hheader in
theorem mapSection_size_lt {type : Nat} {s : MapItem} (hs : v.mapSection type = some s) :
    s.size < 2 ^ 32 := by
  have hfound : v.mapItems.find? (fun mi => mi.type = type) = some s := hs
  obtain ⟨j, _, rfl⟩ := List.mem_map.mp (List.mem_of_find?_eq_some hfound)
  exact u4At_lt _ _

/-- The kind of an argument of this type. -/
def argKind (type : Nat) : CallSiteArgKind :=
  match type with
  | 0x06 => .long
  | 0x10 => .float
  | 0x11 => .double
  | 0x15 => .proto
  | 0x16 => .handle
  | 0x17 => .string
  | 0x18 => .cls
  | 0x1f => .bool
  | _ => .int

/-- The arms with a payload: an argument comes out of exactly the payloads that
resolve, and its kind is that of the type. -/
theorem callSiteArg_spec (hinter : v.InterOk) {type nbytes raw : Nat} (hbool : type ≠ 0x1f)
    (hsafe : type = 0x16 → raw < 2 ^ 32 →
      ∀ s, v.mapSection kMethodHandleItem = some s → s.offset < 2 ^ 31) :
    ∃ a, item.callSiteArg type nbytes raw = .ok a ∧
      (a.isSome = true ↔ v.ArgResolves item type raw) ∧ ∀ arg ∈ a, arg.kind = argKind type := by
  unfold DexItem.callSiteArg
  split
  case h_1 | h_2 | h_3 | h_4 | h_5 | h_6 | h_7 =>
    exact ⟨_, rfl, by simp [Verifier.ArgResolves, argKind]⟩
  · split
    · rename_i hge
      rw [hl.stringCount] at hge
      exact ⟨_, rfl, by simp [Verifier.ArgResolves]; omega⟩
    · rename_i hlt
      rw [hl.stringCount] at hlt
      exact ⟨_, rfl, by simp [Verifier.ArgResolves, argKind]; omega⟩
  · have htypes := hintra.tables.typeLimit
    split
    · rename_i hge
      exact ⟨_, rfl, by simp [Verifier.ArgResolves, kNoIndex] at *; omega⟩
    · simp only [typeNameOrEmpty_eq_nil_iff hl hintra hinter]
      by_cases hraw : raw < v.header.typeIdsSize
      · exact ⟨_, rfl, by simp [Verifier.ArgResolves, argKind, hraw]⟩
      · exact ⟨_, rfl, by simp [Verifier.ArgResolves, argKind, hraw]⟩
  · have hprotos := hheader.protos
    split
    · rename_i hge
      exact ⟨_, rfl, by simp [Verifier.ArgResolves]; omega⟩
    · obtain ⟨text, htext, hempty⟩ := getProto_spec hl hintra raw
      rw [htext, bind_ok]
      simp only [hempty]
      by_cases hraw : raw < v.header.protoIdsSize
      · exact ⟨_, rfl, by simp [Verifier.ArgResolves, argKind, hraw]⟩
      · exact ⟨_, rfl, by simp [Verifier.ArgResolves, argKind, hraw]⟩
  · split
    · rename_i hge
      refine ⟨none, rfl, ?_, by simp⟩
      simp only [Option.isSome_none, Bool.false_eq_true, false_iff, Verifier.ArgResolves]
      rintro ⟨s, hs, hlt, _⟩
      have hsize := mapSection_size_lt hs
      omega
    · rename_i hlt
      obtain ⟨h, hrun, hsome⟩ := resolveMethodHandle_spec hl hintra hlist hheader hinter
        (hsafe rfl (by omega)) raw
      rw [hrun, bind_ok]
      refine ⟨_, rfl, ?_, ?_⟩
      · rw [Option.isSome_map, hsome]
        rfl
      · rintro arg harg
        obtain ⟨h', _, rfl⟩ := Option.map_eq_some_iff.mp harg
        rfl
  · refine ⟨none, rfl, ?_, by simp⟩
    simp only [Option.isSome_none, Bool.false_eq_true, false_iff]
    unfold Verifier.ArgResolves
    split <;> simp_all

variable (hinter : v.InterOk)

include hinter

/-- `ParseCallSiteArg` on an element that starts in the image. -/
theorem parseCallSiteArg_spec {p : Nat} (hp : p < v.image.length)
    (hsafe : v.HandleElement p →
      ∀ s, v.mapSection kMethodHandleItem = some s → s.offset < 2 ^ 31) :
    ∃ a, item.parseCallSiteArg v.image.length p =
        .ok (a, min (elementEnd v.image p) v.image.length) ∧
      (a.isSome = true ↔ v.ElementReads item p) ∧
      ∀ arg ∈ a, arg.kind = argKind (elementType v.image p) := by
  have hheaderByte : readU1 item.reader.image p = .ok (byteAt v.image p) := by
    rw [hl.reader.image]
    exact read_of_le (by omega)
  have hreads : v.ElementReads item p ↔
      v.ArgResolves item (elementType v.image p) (elementPayload v.image p) :=
    ⟨fun h => h.resolves, fun h => ⟨hp, h⟩⟩
  rw [hreads, DexItem.parseCallSiteArg, if_neg (by omega), hheaderByte, bind_ok]
  have htype : byteAt v.image p &&& 0x1f = elementType v.image p := rfl
  simp only [htype]
  by_cases hnull : elementType v.image p = 0x1e
  · have hend : min (elementEnd v.image p) v.image.length = p + 1 := by
      rw [elementEnd, payloadWidth, htype, if_pos (.inl hnull)]
      omega
    rw [if_pos hnull, hend, hnull]
    exact ⟨none, rfl, by simp [Verifier.ArgResolves], by simp⟩
  by_cases hbool : elementType v.image p = 0x1f
  · have hend : min (elementEnd v.image p) v.image.length = p + 1 := by
      rw [elementEnd, payloadWidth, htype, if_pos (.inr hbool)]
      omega
    rw [if_neg hnull, if_pos hbool, hend, hbool]
    exact ⟨_, rfl, by simp [Verifier.ArgResolves], by simp [argKind]⟩
  have hwidth : payloadWidth (byteAt v.image p) = (byteAt v.image p >>> 5) + 1 := by
    rw [payloadWidth, htype, if_neg (not_or.mpr ⟨hnull, hbool⟩)]
  have hload : loadLE item.reader.image v.image.length ((byteAt v.image p >>> 5) + 1) (p + 1) =
      .ok (elementPayload v.image p, min (elementEnd v.image p) v.image.length) := by
    rw [hl.reader.image, loadLE_eq le_rfl, readLE_clip _ (by omega), elementPayload, elementEnd,
      hwidth]
  obtain ⟨a, ha, hsome, hkind⟩ := @callSiteArg_spec _ _ _ hl hintra hlist hheader hinter _
    ((byteAt v.image p >>> 5) + 1) (elementPayload v.image p) hbool
    fun htype hnarrow => hsafe ⟨hp, htype, hnarrow⟩
  rw [if_neg hnull, if_neg hbool, hload, bind_ok]
  simp only [ha, bind_ok]
  exact ⟨a, rfl, hsome, hkind⟩

omit hl hintra hlist hheader hinter in
theorem parseCallSiteArg_past {stop p : Nat} (hp : stop ≤ p) :
    item.parseCallSiteArg stop p = .ok (none, p) := by
  rw [DexItem.parseCallSiteArg, if_pos hp]
  rfl

/-- A fixed argument comes out of exactly an element of its kind that reads. The
cursor stays at the end of the image when it gets there. -/
theorem parseFixedArg_spec {p : Nat} (kind : CallSiteArgKind)
    (hsafe : v.HandleElement p →
      ∀ s, v.mapSection kMethodHandleItem = some s → s.offset < 2 ^ 31) :
    (∃ arg, item.parseFixedArg v.image.length kind (min p v.image.length) =
        .ok (some (arg, min (elementEnd v.image p) v.image.length)) ∧
      v.ElementReads item p ∧ argKind (elementType v.image p) = kind) ∨
    (item.parseFixedArg v.image.length kind (min p v.image.length) = .ok none ∧
      ¬(v.ElementReads item p ∧ argKind (elementType v.image p) = kind)) := by
  by_cases hp : p < v.image.length
  · obtain ⟨a, ha, hsome, hkind⟩ :=
      parseCallSiteArg_spec hl hintra hlist hheader hinter hp hsafe
    rw [Nat.min_eq_left (Nat.le_of_lt hp), DexItem.parseFixedArg, ha, bind_ok]
    cases a with
    | none =>
      refine .inr ⟨rfl, fun h => ?_⟩
      cases hsome.mpr h.1
    | some arg =>
      have harg : arg.kind = argKind (elementType v.image p) := hkind arg rfl
      have hreads := hsome.mp rfl
      simp only [harg]
      by_cases hk : argKind (elementType v.image p) = kind
      · exact .inl ⟨arg, by rw [if_pos hk]; rfl, hreads, hk⟩
      · exact .inr ⟨by rw [if_neg hk]; rfl, fun h => hk h.2⟩
  · refine .inr ⟨?_, fun h => hp h.1.inImage⟩
    rw [DexItem.parseFixedArg, parseCallSiteArg_past (by omega), bind_ok]
    rfl

end Resolvers

end Dexllm
