import Dexllm.CallSiteItemSpecs

/-!
When the decoder of static initializers returns, for any array and any window:
a walk that keeps only the cursor says where it stops and whether it looks a
method handle up, the one lookup that can throw.
-/

namespace Dexllm

open Guarded Bytes Cursor

/-- Where a part of the decoder stops, and whether it looked a method handle
up. -/
structure Walked where
  cursor : Nat
  handle : Bool
  deriving DecidableEq, Repr

/-- A row of values: it ends at `stop`. -/
def walkElements (stop : Nat) (value : Nat → Walked) : (size p : Nat) → Walked
  | 0, p => ⟨p, false⟩
  | size + 1, p =>
    if p < stop then
      let first := value p
      let rest := walkElements stop value size first.cursor
      ⟨rest.cursor, first.handle || rest.handle⟩
    else ⟨p, false⟩

section Walks

variable (mem : Memory) (stop : Nat)

/-- A named element of an annotation. -/
def walkNamed (value : Nat → Walked) (p : Nat) : Walked := value (readULEB128 mem stop p).2

/-- A number of bytes. An index that takes more than 32 bits is not looked up. -/
def walkLeaf (type nbytes p : Nat) : Walked :=
  let (raw, q) := readIntLE mem stop p (if type = 0x00 then 1 else nbytes)
  ⟨q, type = 0x16 ∧ raw < 2 ^ 32⟩

/-- The payload of a value. -/
def walkPayload (value : Nat → Walked) (type valueArg p : Nat) : Walked :=
  match type with
  | 0x1c =>
    let (size, q) := readULEB128 mem stop p
    walkElements stop value size q
  | 0x1d =>
    let (_, q) := readULEB128 mem stop p
    let (size, r) := readULEB128 mem stop q
    walkElements stop (walkNamed mem stop value) size r
  | 0x1e => ⟨p, false⟩
  | 0x1f => ⟨p, false⟩
  | _ => walkLeaf mem stop type (valueArg + 1) p

/-- A value with `left` levels below the nesting cap. -/
def walkValue : (left p : Nat) → Walked
  | 0, p => ⟨p, false⟩
  | left + 1, p =>
    if stop ≤ p then ⟨p, false⟩
    else
      let header := byteAt mem p
      walkPayload mem stop (walkValue left) (header &&& 0x1f) (header >>> 5) (p + 1)

/-- The values of the array at `sv` for the first `count` fields. -/
def walkStaticValues (count sv : Nat) : Walked :=
  let (valueCount, p) := readULEB128 mem stop sv
  walkElements stop (walkValue mem stop (kEncodedValueMaxDepth + 1)) (min valueCount count) p

end Walks

/-- The first map item of a type. -/
def Reader.mapSection (r : Reader) (type : Nat) : Option MapItem :=
  ((List.range (u4At r.image (r.base + r.header.mapOff))).map fun i =>
    mapItemAt r.image (r.base + r.header.mapOff + 4 + i * MapItem.bytes)).find?
      fun mi => mi.type = type

/-- The section of method handles does not start at a negative `int`. -/
def Reader.HandlesReachable (r : Reader) : Prop :=
  ∀ s, r.mapSection kMethodHandleItem = some s → s.offset < 2 ^ 31

namespace DexItem

variable (item : DexItem) (cd : ClassDef)

/-- The number of static fields of a class_def. -/
def staticFieldCount : Nat :=
  if cd.classDataOff = 0 then 0
  else
    let data := item.reader.base + cd.classDataOff
    (readULEB128 item.reader.image (windowEnd item.reader data) data).1

/-- The walk over the initializers of a class_def. -/
def walkInitializers : Walked :=
  let sv := item.reader.base + cd.staticValuesOff
  walkStaticValues item.reader.image (windowEnd item.reader sv) (item.staticFieldCount cd) sv

/-- The initializers of a class_def are behind offsets that are no negative
`int`s: their array, and the method handles if one of them is looked up. -/
def InitializersReachable : Prop :=
  item.staticFieldCount cd ≠ 0 → cd.staticValuesOff ≠ 0 →
    cd.staticValuesOff < 2 ^ 31 ∧
      ((item.walkInitializers cd).handle = true → item.reader.HandlesReachable)

end DexItem

/-- A run of the decoder stops where its walk does, and returns unless the walk
looks up a handle that cannot be reached. -/
structure Returns (reachable : Prop) (run : Run Decoded) (walked : Walked) : Prop where
  returns : (∃ d, run = .ok d) ↔ (walked.handle = true → reachable)
  cursor : ∀ d, run = .ok d → d.cursor = walked.cursor

section Combine

variable {reachable : Prop} {run : Run Decoded} {walked : Walked}

theorem Returns.pure (d : Decoded) : Returns reachable (.ok d) ⟨d.cursor, false⟩ := by
  refine ⟨⟨fun _ h => (nomatch h), fun _ => ⟨d, rfl⟩⟩, fun d' hd' => ?_⟩
  rw [Except.ok.inj hd']

theorem Returns.bind {next : Decoded → Run Decoded} {last : Walked}
    (h : Returns reachable run walked)
    (hnext : ∀ d, d.cursor = walked.cursor → Returns reachable (next d) last) :
    Returns reachable (run >>= next) ⟨last.cursor, walked.handle || last.handle⟩ := by
  have hor : (walked.handle || last.handle) = true ↔
      walked.handle = true ∨ last.handle = true := by simp
  constructor
  · rw [hor, or_imp, ← h.returns]
    constructor
    · rintro ⟨e, he⟩
      obtain ⟨d, hd, he⟩ := bind_eq_ok.mp he
      exact ⟨⟨d, hd⟩, (hnext d (h.cursor d hd)).returns.mp ⟨e, he⟩⟩
    · rintro ⟨⟨d, hd⟩, hlast⟩
      obtain ⟨e, he⟩ := (hnext d (h.cursor d hd)).returns.mpr hlast
      exact ⟨e, bind_eq_ok.mpr ⟨d, hd, he⟩⟩
  · intro e he
    obtain ⟨d, hd, he⟩ := bind_eq_ok.mp he
    exact (hnext d (h.cursor d hd)).cursor e he

/-- What is made of a decoded value keeps its cursor. -/
theorem Returns.map {f : Decoded → Decoded} (h : Returns reachable run walked)
    (hcursor : ∀ d, (f d).cursor = d.cursor) :
    Returns reachable (run >>= fun d => .ok (f d)) walked := by
  have hbind := h.bind fun d hd => by
    have hpure := @Returns.pure reachable (f d)
    rwa [hcursor, hd] at hpure
  simpa using hbind

end Combine

section Elements

variable {reachable : Prop} {stop : Nat} {round : ElementRound} {value : Nat → Walked}

theorem decodeElements_returns (h : ∀ i out p, Returns reachable (round i out p) (value p))
    (size i : Nat) (out : EncodedValueText) (p : Nat) :
    Returns reachable (decodeElements stop round size i out p)
      (walkElements stop value size p) := by
  induction size generalizing i out p with
  | zero => exact Returns.pure _
  | succ size ih =>
    rw [decodeElements, walkElements]
    split
    · refine (h i out p).bind fun d hd => ?_
      rw [← hd]
      exact (ih (i + 1) d.value d.cursor).map fun _ => rfl
    · exact Returns.pure _

end Elements

section Values

variable {v : Verifier} {item : DexItem} {methodHandleCount : Nat} {texts : FloatTexts}
  {mem : Memory} {stop : Nat}

/-- Every arm but the method handle returns, whatever the payload. -/
theorem leafText_returns (hl : Loaded v item) (hintra : v.IntraOk methodHandleCount)
    {type nbytes raw : Nat} (hhandle : type ≠ 0x16) :
    ∃ value, leafText texts item type nbytes raw = .ok value := by
  cases hlimit : (v.valueLimits methodHandleCount).index type with
  | none =>
    unfold leafText
    split
    case h_8 | h_9 | h_10 | h_11 | h_12 | h_13 | h_14 => cases hlimit
    all_goals exact ⟨_, rfl⟩
  | some limit =>
    by_cases hraw : raw < limit
    · obtain ⟨value, hvalue, _⟩ := @leafText_index _ _ _ texts hl hintra _ _ nbytes _ hlimit hraw
        hhandle
      exact ⟨value, hvalue⟩
    -- an index out of range is guarded in every arm
    · have hlarge := Nat.le_of_not_lt hraw
      unfold ValueLimits.index at hlimit
      split at hlimit
      case h_2 => exact absurd rfl hhandle
      case h_8 => cases hlimit
      all_goals
        obtain rfl := Option.some.inj hlimit
        simp only [leafText, hl.stringCount, hl.typeCount, hl.reader.header]
        exact ⟨_, if_pos hlarge⟩

variable (hl : Loaded v item) (hintra : v.IntraOk methodHandleCount) {reachable : Prop}
  (hreachable : ∀ raw, (∃ h, item.resolveMethodHandle raw = .ok h) ↔ reachable)

include hl hintra hreachable

theorem decodeLeaf_returns (type nbytes p : Nat) :
    Returns reachable (decodeLeaf mem stop texts item type nbytes p)
      (walkLeaf mem stop type nbytes p) := by
  simp only [decodeLeaf, walkLeaf]
  generalize readIntLE mem stop p (if type = 0x00 then 1 else nbytes) = read
  obtain ⟨raw, q⟩ := read
  have htext : (∃ value, leafText texts item type nbytes raw = .ok value) ↔
      (type = 0x16 ∧ raw < 2 ^ 32 → reachable) := by
    by_cases htype : type = 0x16
    · subst htype
      by_cases hraw : raw < 2 ^ 32
      · rw [(leafText_handle hraw).1, hreachable]
        exact ⟨fun hr _ => hr, fun hr => hr ⟨rfl, hraw⟩⟩
      · simp only [leafText, if_pos (Nat.le_of_not_lt hraw), hraw, and_false, false_imp_iff,
          iff_true]
        exact ⟨_, rfl⟩
    · simp only [htype, false_and, false_imp_iff, iff_true]
      exact leafText_returns hl hintra htype
  constructor
  · rw [decide_eq_true_iff, ← htext]
    constructor
    · rintro ⟨d, hd⟩
      obtain ⟨value, hvalue, _⟩ := bind_eq_ok.mp hd
      exact ⟨value, hvalue⟩
    · rintro ⟨value, hvalue⟩
      exact ⟨_, bind_eq_ok.mpr ⟨value, hvalue, rfl⟩⟩
  · intro d hd
    obtain ⟨value, _, hd⟩ := bind_eq_ok.mp hd
    obtain rfl := Except.ok.inj hd
    rfl

omit hl hintra hreachable in
theorem decodeArray_returns {value : Nat → Run Decoded} {walk : Nat → Walked}
    (h : ∀ p, Returns reachable (value p) (walk p)) (valueArg p : Nat) :
    Returns reachable (decodeArray mem stop value p)
      (walkPayload mem stop walk 0x1c valueArg p) := by
  simp only [decodeArray, walkPayload]
  generalize readULEB128 mem stop p = read
  obtain ⟨size, q⟩ := read
  have helement (i : Nat) (out : EncodedValueText) (p : Nat) :
      Returns reachable ( arrayElement value i out p) (walk p) := by
    refine (h p).map ?_
    exact fun _ => rfl
  refine (decodeElements_returns helement _ _ _ _).map ?_
  exact fun _ => rfl

omit hl hintra hreachable in
theorem decodeAnnotation_returns {value : Nat → Run Decoded} {walk : Nat → Walked}
    (h : ∀ p, Returns reachable (value p) (walk p)) (valueArg p : Nat) :
    Returns reachable ( decodeAnnotation mem stop item value p)
      (walkPayload mem stop walk 0x1d valueArg p) := by
  have hnamed (i : Nat) (out : EncodedValueText) (p : Nat) : Returns reachable
      ( annotationElement mem stop item value i out p) (walkNamed mem stop walk p) := by
    simp only [annotationElement, walkNamed]
    generalize readULEB128 mem stop p = read
    obtain ⟨nameIdx, q⟩ := read
    refine (h q).map ?_
    exact fun _ => rfl
  simp only [ decodeAnnotation, walkPayload]
  generalize readULEB128 mem stop p = read
  obtain ⟨typeIdx, q⟩ := read
  dsimp only
  generalize readULEB128 mem stop q = read
  obtain ⟨size, r⟩ := read
  refine (decodeElements_returns hnamed _ _ _ _).map ?_
  exact fun _ => rfl

theorem decodePayload_returns {value : Nat → Run Decoded} {walk : Nat → Walked}
    (h : ∀ p, Returns reachable (value p) (walk p)) (type valueArg p : Nat) :
    Returns reachable (decodePayload mem stop texts item value type valueArg p)
      (walkPayload mem stop walk type valueArg p) := by
  unfold decodePayload
  split
  · exact decodeArray_returns h _ _
  · exact decodeAnnotation_returns h _ _
  · exact Returns.pure _
  · exact Returns.pure _
  · have hleaf : walkPayload mem stop walk type valueArg p =
        walkLeaf mem stop type (valueArg + 1) p := by
      unfold walkPayload
      split <;> first | contradiction | rfl
    rw [hleaf]
    exact decodeLeaf_returns hl hintra hreachable _ _ _

/-- The decoder returns unless its walk looks up a handle that cannot be
reached. -/
theorem decodeValue_returns (left p : Nat) :
    Returns reachable (decodeEncodedValueText mem stop texts item left p)
      (walkValue mem stop left p) := by
  induction left generalizing p with
  | zero => exact Returns.pure _
  | succ left ih =>
    rw [decodeEncodedValueText, walkValue]
    split
    · exact Returns.pure _
    · exact decodePayload_returns hl hintra hreachable ih _ _ _

end Values

section Rounds

variable {reachable : Prop} {stop : Nat} {value : Nat → Run Decoded} {walk : Nat → Walked}
  {ids : List Nat}

theorem walkElements_succ (h : ∀ p, stop ≤ p → walk p = ⟨p, false⟩) (size p : Nat) :
    walkElements stop walk (size + 1) p =
      ⟨(walkElements stop walk size (walk p).cursor).cursor,
        (walk p).handle || (walkElements stop walk size (walk p).cursor).handle⟩ := by
  rw [walkElements]
  by_cases hp : p < stop
  · rw [if_pos hp]
  · have hend : walkElements stop walk size p = ⟨p, false⟩ := by
      cases size with
      | zero => rfl
      | succ size => rw [walkElements, if_neg hp]
    rw [if_neg hp, h p (Nat.le_of_not_lt hp), hend]
    rfl

/-- One round of `DecodeStaticInitMap` returns when its value does. -/
theorem decodeStaticValue_returns {i : Nat} (hi : i < ids.length) (s : StaticInit) :
    (∀ d, value s.cursor = .ok d → ∃ s', decodeStaticValue value ids i s = .ok s' ∧
      s'.cursor = d.cursor) ∧
    ∀ s', decodeStaticValue value ids i s = .ok s' → ∃ d, value s.cursor = .ok d := by
  obtain ⟨field, _, hfield⟩ := vectorAt_eq hi
  constructor
  · intro d hd
    rw [decodeStaticValue, hd, bind_ok]
    by_cases hempty : d.value.text = []
    · exact ⟨_, if_pos hempty, rfl⟩
    · dsimp only
      rw [if_neg hempty, hfield, bind_ok]
      exact ⟨_, rfl, rfl⟩
  · intro s' hs'
    obtain ⟨d, hd, _⟩ := bind_eq_ok.mp hs'
    exact ⟨d, hd⟩

theorem decodeRounds_returns (h : ∀ p, Returns reachable (value p) (walk p))
    (hend : ∀ p, stop ≤ p → walk p = ⟨p, false⟩) {n i : Nat} (hids : i + n ≤ ids.length)
    (s : StaticInit) : (∃ s', loopFrom (decodeStaticValue value ids) n i s = .ok s') ↔
      ((walkElements stop walk n s.cursor).handle = true → reachable) := by
  induction n generalizing i s with
  | zero => exact ⟨fun _ hf => (nomatch hf), fun _ => ⟨s, rfl⟩⟩
  | succ n ih =>
    obtain ⟨hround, hvalue⟩ := @decodeStaticValue_returns value ids i (by omega) s
    rw [walkElements_succ hend, Bool.or_eq_true, or_imp, ← (h s.cursor).returns, loopFrom]
    constructor
    · rintro ⟨t, ht⟩
      obtain ⟨s', hs', ht⟩ := bind_eq_ok.mp ht
      obtain ⟨d, hd⟩ := hvalue s' hs'
      obtain ⟨s'', hs'', hcursor⟩ := hround d hd
      obtain rfl := Except.ok.inj (hs'.symm.trans hs'')
      rw [← (h s.cursor).cursor d hd, ← hcursor]
      exact ⟨⟨d, hd⟩, (@ih (i + 1) (by omega) s').mp ⟨t, ht⟩⟩
    · rintro ⟨⟨d, hd⟩, hrest⟩
      obtain ⟨s', hs', hcursor⟩ := hround d hd
      rw [← (h s.cursor).cursor d hd, ← hcursor] at hrest
      obtain ⟨t, ht⟩ := (@ih (i + 1) (by omega) s').mpr hrest
      exact ⟨t, bind_eq_ok.mpr ⟨s', hs', ht⟩⟩

end Rounds

section Fields

variable {mem : Memory} {stop : Nat}

theorem readFieldList_length (n p : Nat) : (readFieldList mem stop n p).ids.length = n := by
  rw [readFieldList]
  induction n with
  | zero => rfl
  | succ n ih =>
    rw [Function.iterate_succ_apply']
    simp only [readField, List.length_append, List.length_singleton, ih]

theorem readClassFields_length (p : Nat) :
    (readClassFields mem stop p).staticIds.length = (readULEB128 mem stop p).1 :=
  readFieldList_length _ _

end Fields

section Class

variable {v : Verifier} {item : DexItem} {methodHandleCount : Nat}
  (hl : Loaded v item) (hintra : v.IntraOk methodHandleCount) (hinter : v.InterOk)
  (hlist : v.MapListed) (hheader : HeaderValidated v.header)

include hl

theorem mapSection_eq (type : Nat) : item.reader.mapSection type = v.mapSection type := by
  simp only [Reader.mapSection, Verifier.mapSection, Verifier.mapItems, Verifier.tableAt,
    Verifier.offsetToPtr, hl.reader.image, hl.reader.base, hl.reader.header, Nat.add_assoc]

/-- The field lists of a class_def whose class_data is behind no negative
`int`. -/
theorem parseClassFieldOrder_length {cd : ClassDef}
    (hsmall : cd.classDataOff ≠ 0 → cd.classDataOff < 2 ^ 31) :
    ∃ fields, parseClassFieldOrder item.reader cd = .ok fields ∧
      fields.staticIds.length = item.staticFieldCount cd := by
  rw [parseClassFieldOrder, DexItem.staticFieldCount]
  by_cases hoff : cd.classDataOff = 0
  · rw [if_pos hoff, if_pos hoff]
    exact ⟨_, rfl, rfl⟩
  · rw [if_neg hoff, if_neg hoff, dataPtr_eq hl.reader (hsmall hoff) hoff, bind_ok,
      hl.reader.base]
    exact ⟨_, rfl, readClassFields_length _⟩

include hlist hheader hintra hinter

theorem handlesReachable_iff (raw : Nat) :
    (∃ h, item.resolveMethodHandle raw = .ok h) ↔ item.reader.HandlesReachable := by
  simp only [Reader.HandlesReachable, mapSection_eq hl]
  constructor
  · rintro ⟨h, hh⟩ s hs
    by_contra hlarge
    rw [resolveMethodHandle_thrown hl hlist hheader hs hlarge raw] at hh
    cases hh
  · intro hsafe
    obtain ⟨h, hh, _⟩ := resolveMethodHandle_spec hl hintra hlist hheader hinter hsafe raw
    exact ⟨h, hh⟩

omit hlist hheader hinter in
theorem decodeStaticValues_returns {reachable : Prop}
    (hreachable : ∀ raw, (∃ h, item.resolveMethodHandle raw = .ok h) ↔ reachable)
    (mem : Memory) (stop : Nat) (texts : FloatTexts) (ids : List Nat) (sv : Nat) :
    (∃ s, decodeStaticValues mem stop texts item ids sv = .ok s) ↔
      ((walkStaticValues mem stop ids.length sv).handle = true → reachable) := by
  have hvalue := @decodeValue_returns v item methodHandleCount texts mem stop hl hintra reachable
    hreachable (kEncodedValueMaxDepth + 1)
  have hend (p : Nat) (hp : stop ≤ p) :
      walkValue mem stop (kEncodedValueMaxDepth + 1) p = ⟨p, false⟩ := by
    rw [walkValue, if_pos hp]
  rw [decodeStaticValues, walkStaticValues]
  generalize decodeEncodedValueText mem stop texts item (kEncodedValueMaxDepth + 1) = value
    at hvalue ⊢
  generalize walkValue mem stop (kEncodedValueMaxDepth + 1) = walk at hvalue hend ⊢
  generalize readULEB128 mem stop sv = read
  obtain ⟨valueCount, p⟩ := read
  have hids : 0 + min valueCount ids.length ≤ ids.length := by omega
  exact decodeRounds_returns hvalue hend hids { cursor := p }

/-- The static initializers of a class_def are decoded without a throw exactly
when they can be reached. -/
theorem staticInit_returns (texts : FloatTexts) {cd : ClassDef}
    (hsmall : cd.classDataOff ≠ 0 → cd.classDataOff < 2 ^ 31) :
    (∃ s, staticInit texts item cd = .ok s) ↔ item.InitializersReachable cd := by
  obtain ⟨fields, hfields, hlength⟩ := parseClassFieldOrder_length hl hsmall
  rw [staticInit, hfields, bind_ok, decodeStaticInitMap, DexItem.InitializersReachable]
  by_cases hnone : cd.staticValuesOff = 0 ∨ fields.staticIds = []
  · rw [if_pos hnone]
    refine ⟨fun _ hcount hoff => ?_, fun _ => ⟨_, rfl⟩⟩
    rcases hnone with hzero | hempty
    · exact absurd hzero hoff
    · rw [hempty] at hlength
      exact absurd hlength.symm hcount
  obtain ⟨hoff, hids⟩ := not_or.mp hnone
  have hcount : item.staticFieldCount cd ≠ 0 := by
    rw [← hlength]
    exact fun hzero => hids (List.length_eq_zero_iff.mp hzero)
  rw [if_neg hnone]
  by_cases hvalues : cd.staticValuesOff < 2 ^ 31
  · have hrun : (∃ s, decodeStaticValues item.reader.image
        (windowEnd item.reader (v.offsetToPtr cd.staticValuesOff)) texts item fields.staticIds
        (v.offsetToPtr cd.staticValuesOff) = .ok s) ↔
          ((item.walkInitializers cd).handle = true → item.reader.HandlesReachable) := by
      have hreachable := handlesReachable_iff hl hintra hinter hlist hheader
      rw [DexItem.walkInitializers, ← hlength, hl.reader.base]
      exact decodeStaticValues_returns hl hintra hreachable _ _ _ _ _
    rw [dataPtr_eq hl.reader hvalues hoff, bind_ok, hrun]
    exact ⟨fun h _ _ => ⟨hvalues, h⟩, fun h => (h hcount hoff).2⟩
  · refine ⟨?_, fun h => absurd (h hcount hoff).1 hvalues⟩
    rintro ⟨s, hs⟩
    obtain ⟨p, hptr, _⟩ := bind_eq_ok.mp hs
    obtain ⟨_, hcheck, _⟩ := bind_eq_ok.mp hptr
    exact absurd (slicerCheck_eq_ok.mp hcheck).1 hvalues

end Class

end Dexllm
