import Dexllm.Descriptors
import Dexllm.EncodedValue
import Dexllm.StaticInit

/-!
The decoder of static initializers on a value of the grammar: a value that ends
inside the window is decoded from exactly its bytes, and renders to something
unless it is a method handle that leads nowhere.
-/

namespace Dexllm

open Guarded Bytes Leb128 Cursor

section Reads

variable {mem : Memory} {stop p q value : Nat}

theorem readULEB128_eq (h : UlebAt mem p value q) (hstop : q ≤ stop) :
    readULEB128 mem stop p = (value, q) ∧ ulebStopped mem p q = false := by
  have hlt := h.lt
  obtain ⟨n, hn, hlen, rfl, rfl, _⟩ := h
  have hpos := hn.pos
  constructor
  · rw [readULEB128, readUleb_eq hn hlen (by omega), show min n (stop - p) = n by omega,
      show min (p + n) stop = p + n by omega]
  · have hlast := hn.last
    rw [ulebStopped, show p + n - 1 = p + (n - 1) by omega, hlast]
    simp
    omega

theorem readULEB128_bounds (hp : p ≤ stop) :
    p ≤ (readULEB128 mem stop p).2 ∧ (readULEB128 mem stop p).2 ≤ stop :=
  readUleb_bounds 32 5 hp

theorem readULEB128_past (hp : stop ≤ p) : readULEB128 mem stop p = (0, p) := by
  rw [readULEB128, readUleb, readUlebFrom, if_neg (by omega)]

end Reads

section Leaf

variable {v : Verifier} {item : DexItem} {methodHandleCount : Nat} {texts : FloatTexts}

theorem buildProto_eq (hl : Loaded v item) (hintra : v.IntraOk methodHandleCount) {i : Nat}
    (hi : i < v.header.protoIdsSize) :
    ∃ proto, item.buildProto (protoIdAt v.image (v.protoIdAddr i)) = .ok proto := by
  have hparams := (hl.paramDescriptors_eq (hintra.proto i hi) (hl.protoParams i hi)).2
  rw [DexItem.buildProto, hparams]
  exact ⟨_, rfl⟩

/-- The arms of the fixed-width types render to something. -/
theorem leafText_plain {type arg n raw : Nat} (h : plainWidth type arg = some n)
    (hnull : type ≠ 0x1e) (hbool : type ≠ 0x1f) :
    (if type = 0x00 then 1 else arg + 1) = n ∧
      ∃ value, leafText texts item type (arg + 1) raw = .ok value ∧ value.text ≠ [] := by
  unfold plainWidth at h
  split at h
  · split at h
    · obtain rfl := Option.some.inj h
      exact ⟨rfl, _, rfl, hexByte_ne_nil _⟩
    · cases h
  · split at h
    · obtain rfl := Option.some.inj h
      exact ⟨rfl, _, rfl, decimal_ne_nil _⟩
    · cases h
  · split at h
    · obtain rfl := Option.some.inj h
      exact ⟨rfl, _, rfl, decimal_ne_nil _⟩
    · cases h
  · split at h
    · obtain rfl := Option.some.inj h
      exact ⟨rfl, _, rfl, decimal_ne_nil _⟩
    · cases h
  · split at h
    · obtain rfl := Option.some.inj h
      exact ⟨rfl, _, rfl, (texts.float _).property⟩
    · cases h
  · obtain rfl := Option.some.inj h
    exact ⟨rfl, _, rfl, formatLongLiteral_ne_nil _⟩
  · obtain rfl := Option.some.inj h
    exact ⟨rfl, _, rfl, (texts.double _).property⟩
  · exact absurd rfl hnull
  · exact absurd rfl hbool
  · cases h

/-- The arms of the index types but the method handle render to something when
the index is in range. -/
theorem leafText_index (hl : Loaded v item) (hintra : v.IntraOk methodHandleCount)
    {type limit nbytes raw : Nat} (h : (v.valueLimits methodHandleCount).index type = some limit)
    (hraw : raw < limit) (hhandle : type ≠ 0x16) :
    ∃ value, leafText texts item type nbytes raw = .ok value ∧ value.text ≠ [] := by
  unfold ValueLimits.index at h
  split at h
  · obtain rfl := Option.some.inj h
    obtain ⟨proto, hproto⟩ := buildProto_eq hl hintra hraw
    refine ⟨{ text := methodTypeText proto }, ?_, methodTypeText_ne_nil proto⟩
    simp only [leafText, hl.reader.header]
    rw [if_neg (show ¬v.header.protoIdsSize ≤ raw from Nat.not_le_of_lt hraw),
      protoId_eq hl hintra hraw, bind_ok, hproto, bind_ok]
    rfl
  · exact absurd rfl hhandle
  · obtain rfl := Option.some.inj h
    obtain ⟨s, _, hs⟩ := vectorAt_eq (show raw < item.strings.length from by
      rw [hl.stringCount]
      exact hraw)
    refine ⟨{ text := escapeJavaString s }, ?_, escapeJavaString_ne_nil s⟩
    simp only [leafText, hl.stringCount]
    rw [if_neg (show ¬v.header.stringIdsSize ≤ raw from Nat.not_le_of_lt hraw), hs, bind_ok]
    rfl
  · obtain rfl := Option.some.inj h
    obtain ⟨name, _, hname⟩ := vectorAt_eq (show raw < item.typeNames.length from by
      rw [hl.typeCount]
      exact hraw)
    refine ⟨{ text := getType name ++ ascii ".class" }, ?_, by simp [ascii]⟩
    simp only [leafText, hl.typeCount]
    rw [if_neg (show ¬v.header.typeIdsSize ≤ raw from Nat.not_le_of_lt hraw), hname, bind_ok]
    rfl
  case h_5 | h_6 =>
    obtain rfl := Option.some.inj h
    have hf := hintra.field raw hraw
    obtain ⟨cls, hcls⟩ : ∃ cls, vectorAt item.typeNames _ = .ok cls :=
      ⟨_, (hl.typeNameOrEmpty hf.cls).2⟩
    obtain ⟨name, _, hname⟩ := vectorAt_eq (hl.stringCount.symm ▸ hf.name)
    refine ⟨{ text := getType cls ++ 0x2e :: name }, ?_, by simp⟩
    simp only [leafText, hl.reader.header]
    rw [if_neg (show ¬v.header.fieldIdsSize ≤ raw from Nat.not_le_of_lt hraw),
      fieldId_eq hl hintra hraw, bind_ok, hcls, bind_ok, hname, bind_ok]
    rfl
  · obtain rfl := Option.some.inj h
    have hm := hintra.method raw hraw
    obtain ⟨cls, hcls⟩ : ∃ cls, vectorAt item.typeNames _ = .ok cls :=
      ⟨_, (hl.typeNameOrEmpty hm.cls).2⟩
    obtain ⟨name, _, hname⟩ := vectorAt_eq (hl.stringCount.symm ▸ hm.name)
    refine ⟨⟨methodRefText cls name, false⟩, ?_, methodRefText_ne_nil cls name⟩
    simp only [leafText, hl.reader.header]
    rw [if_neg (show ¬v.header.methodIdsSize ≤ raw from Nat.not_le_of_lt hraw),
      methodId_eq hl hintra hraw, bind_ok, hcls, bind_ok, hname, bind_ok]
    rfl
  · cases h

/-- The method handle arm returns when the resolver does, and renders to nothing
when the handle leads nowhere. -/
theorem leafText_handle {nbytes raw : Nat} (hraw : raw < 2 ^ 32) :
    ((∃ value, leafText texts item 0x16 nbytes raw = .ok value) ↔
      ∃ h, item.resolveMethodHandle raw = .ok h) ∧
    ∀ value, leafText texts item 0x16 nbytes raw = .ok value →
      (value.text = [] ↔ item.resolveMethodHandle raw = .ok none) := by
  simp only [leafText]
  rw [if_neg (Nat.not_le_of_lt hraw)]
  cases item.resolveMethodHandle raw with
  | error e => simp
  | ok h =>
    cases h with
    | none => simp [pure, Except.pure]
    | some h => simp [pure, Except.pure]

end Leaf

/-- Every method handle in the log leads somewhere or nowhere: looking it up
does not throw. -/
def HandlesRead (item : DexItem) (log : List ValueVisit) : Prop :=
  ∀ visit ∈ log, visit.type = 0x16 → ∃ h, item.resolveMethodHandle visit.index = .ok h

theorem handlesRead_append {item : DexItem} {log log' : List ValueVisit} :
    HandlesRead item (log ++ log') ↔ HandlesRead item log ∧ HandlesRead item log' := by
  simp only [HandlesRead, List.mem_append]
  constructor
  · exact fun h => ⟨fun visit hvisit => h visit (.inl hvisit),
      fun visit hvisit => h visit (.inr hvisit)⟩
  · exact fun h visit hvisit => hvisit.elim (h.1 visit) (h.2 visit)

/-- How a run of the decoder goes through an item of the grammar: it never
passes the end of its buffer, and an item before that end is decoded from
exactly its bytes, unless a method handle in it throws. -/
structure Decodes (stop : Nat) (item : DexItem) (run : Nat → Run Decoded)
    (grammar : LoggedItem) : Prop where
  forward : ∀ {p d}, p ≤ stop → run p = .ok d → p ≤ d.cursor ∧ d.cursor ≤ stop
  bounds : ∀ {p q log}, grammar p q log → p ≤ q
  returns : ∀ {p q log}, grammar p q log → q ≤ stop →
    ((∃ d, run p = .ok d) ↔ HandlesRead item log)
  result : ∀ {p q log d}, grammar p q log → q ≤ stop → run p = .ok d →
    d.cursor = q ∧ d.stopped = false

section Elements

variable {stop : Nat} {item : DexItem} {round : ElementRound} {grammar : LoggedItem}
  {out : EncodedValueText} {size i p q : Nat} {log : List ValueVisit} {d : Decoded}

/-- The last round of an element loop. -/
theorem decodeElements_succ :
    decodeElements stop round (size + 1) i out p = (do
      let d ← decodeElements stop round size i out p
      if d.cursor < stop then do
        let e ← round (i + size) d.value d.cursor
        pure { e with stopped := d.stopped || e.stopped }
      else pure { d with stopped := true }) := by
  induction size generalizing i out p with
  | zero =>
    simp only [decodeElements, pure, Except.pure, bind_ok, Nat.add_zero, Bool.or_false,
      Bool.false_or]
  | succ size ih =>
    rw [decodeElements]
    split
    · rename_i hp
      conv => rhs; rw [decodeElements, if_pos hp]
      cases round i out p with
      | error e => rfl
      | ok d =>
        simp only [bind_ok]
        rw [ih]
        cases decodeElements stop round size (i + 1) d.value d.cursor with
        | error e => rfl
        | ok rest =>
          simp only [bind_ok, pure, Except.pure]
          split
          · rw [show i + 1 + size = i + (size + 1) by omega]
            cases round (i + (size + 1)) rest.value rest.cursor with
            | error e => rfl
            | ok e => simp only [bind_ok, Bool.or_assoc]
          · simp only [bind_ok, Bool.or_true]
    · rename_i hp
      rw [decodeElements, if_neg hp]
      simp only [pure, Except.pure, bind_ok, hp, if_false]

theorem decodeElements_forward
    (h : ∀ i out {p d}, p ≤ stop → round i out p = .ok d → p ≤ d.cursor ∧ d.cursor ≤ stop)
    (hp : p ≤ stop) (hrun : decodeElements stop round size i out p = .ok d) :
    p ≤ d.cursor ∧ d.cursor ≤ stop := by
  induction size generalizing i out p d with
  | zero =>
    obtain rfl := Except.ok.inj hrun
    exact ⟨le_rfl, hp⟩
  | succ size ih =>
    rw [decodeElements] at hrun
    split at hrun
    · obtain ⟨e, hround, hrun⟩ := bind_eq_ok.mp hrun
      obtain ⟨rest, hrest, hrun⟩ := bind_eq_ok.mp hrun
      obtain rfl := Except.ok.inj hrun
      have hfirst := h i out hp hround
      have hlater := ih hfirst.2 hrest
      exact ⟨le_trans hfirst.1 hlater.1, hlater.2⟩
    · obtain rfl := Except.ok.inj hrun
      exact ⟨le_rfl, hp⟩

/-- A row of items is decoded as its items are. -/
theorem Decodes.elements (h : ∀ i out, Decodes stop item (round i out) grammar)
    (hmoves : ∀ {p q log}, grammar p q log → p < q) (size i : Nat) (out : EncodedValueText) :
    Decodes stop item (decodeElements stop round size i out)
      (fun p q log => Elements grammar p size q log) := by
  have hgrammar {p n q : Nat} {log : List ValueVisit} (hrow : Elements grammar p n q log) :
      p ≤ q := by
    induction hrow with
    | nil => exact le_rfl
    | snoc _ hlast ih => exact le_trans ih (Nat.le_of_lt (hmoves hlast))
  -- the rounds before the last one end before the end of the buffer
  have hrounds {p n q : Nat} {log : List ValueVisit} (hrow : Elements grammar p n q log) :
      q ≤ stop → ((∃ d, decodeElements stop round n i out p = .ok d) ↔ HandlesRead item log) ∧
        ∀ d, decodeElements stop round n i out p = .ok d → d.cursor = q ∧ d.stopped = false := by
    induction hrow with
    | nil =>
      intro _
      refine ⟨⟨fun _ visit hvisit => (List.not_mem_nil hvisit).elim, fun _ => ⟨_, rfl⟩⟩, ?_⟩
      intro d hd
      obtain rfl := Except.ok.inj hd
      exact ⟨rfl, rfl⟩
    | snoc hinit hlast ih =>
      rename_i n q r log visits
      intro hr
      have hlt := hmoves hlast
      obtain ⟨hreturns, hresult⟩ := ih (by omega)
      rw [decodeElements_succ, handlesRead_append, ← hreturns]
      cases hrun : decodeElements stop round n i out p with
      | error e => simp
      | ok d =>
        obtain ⟨hcursor, hstopped⟩ := hresult d hrun
        simp only [bind_ok, hcursor, hstopped, Bool.false_or, pure, Except.pure]
        rw [if_pos (by omega)]
        have hlast' := (h (i + n) d.value).returns hlast hr
        rw [← hlast']
        refine ⟨⟨?_, ?_⟩, ?_⟩
        · rintro ⟨e, he⟩
          obtain ⟨e', he', _⟩ := bind_eq_ok.mp he
          exact ⟨⟨d, rfl⟩, e', he'⟩
        · rintro ⟨_, e, he⟩
          rw [he]
          exact ⟨e, rfl⟩
        · intro e he
          obtain ⟨e', he', heq⟩ := bind_eq_ok.mp he
          obtain rfl := Except.ok.inj heq
          exact (h (i + n) d.value).result hlast hr he'
  exact {
    forward := decodeElements_forward fun i out => (h i out).forward
    bounds := hgrammar
    returns := fun hrow hq => (hrounds hrow hq).1
    result := fun hrow hq hrun => (hrounds hrow hq).2 _ hrun }

end Elements

section Payloads

variable {mem : Memory} {stop : Nat} {texts : FloatTexts} {item : DexItem}
  {value : Nat → Run Decoded} {limits : ValueLimits} {grammar : LoggedItem}
  {type arg p q index : Nat} {nested : List ValueVisit}

/-- A round that decodes an item and keeps its cursor. -/
theorem Decodes.map (h : Decodes stop item value grammar) (f : Decoded → Decoded)
    (hcursor : ∀ d, (f d).cursor = d.cursor) (hstopped : ∀ d, (f d).stopped = d.stopped) :
    Decodes stop item (fun p => do let d ← value p; pure (f d)) grammar where
  forward hp hrun := by
    obtain ⟨d, hd, hrun⟩ := bind_eq_ok.mp hrun
    obtain rfl := Except.ok.inj hrun
    rw [hcursor]
    exact h.forward hp hd
  bounds := h.bounds
  returns hitem hq := by
    rw [← h.returns hitem hq]
    constructor
    · rintro ⟨d, hrun⟩
      obtain ⟨d', hd', _⟩ := bind_eq_ok.mp hrun
      exact ⟨d', hd'⟩
    · rintro ⟨d, hd⟩
      exact ⟨f d, by rw [hd]; rfl⟩
  result hitem hq hrun := by
    obtain ⟨d, hd, hrun⟩ := bind_eq_ok.mp hrun
    obtain rfl := Except.ok.inj hrun
    rw [hcursor, hstopped]
    exact h.result hitem hq hd

theorem Decodes.arrayElement (h : Decodes stop item value grammar) (i : Nat)
    (out : EncodedValueText) : Decodes stop item (arrayElement value i out) grammar :=
  h.map _ (fun _ => rfl) fun _ => rfl

theorem Decodes.annotationElement (h : Decodes stop item value grammar) (i : Nat)
    (out : EncodedValueText) :
    Decodes stop item (annotationElement mem stop item value i out)
      (NamedValue mem limits grammar) where
  forward hp hrun := by
    have hname := @readULEB128_bounds mem _ _ hp
    obtain ⟨d, hd, hrun⟩ := bind_eq_ok.mp hrun
    obtain rfl := Except.ok.inj hrun
    have hvalue := h.forward hname.2 hd
    exact ⟨le_trans hname.1 hvalue.1, hvalue.2⟩
  bounds := by
    rintro p q log ⟨nameIdx, p1, hname, _, _, hvalue⟩
    exact le_trans (Nat.le_of_lt hname.lt) (h.bounds hvalue)
  returns := by
    rintro p q log ⟨nameIdx, p1, hname, _, _, hvalue⟩ hq
    have hp1 := h.bounds hvalue
    rw [← h.returns hvalue hq]
    simp only [Dexllm.annotationElement, (readULEB128_eq hname (le_trans hp1 hq)).1]
    constructor
    · rintro ⟨d, hrun⟩
      obtain ⟨d', hd', _⟩ := bind_eq_ok.mp hrun
      exact ⟨d', hd'⟩
    · rintro ⟨d, hd⟩
      rw [hd]
      exact ⟨_, rfl⟩
  result := by
    rintro p q log d ⟨nameIdx, p1, hname, _, _, hvalue⟩ hq hrun
    have hread := readULEB128_eq hname (le_trans (h.bounds hvalue) hq)
    simp only [Dexllm.annotationElement, hread.1] at hrun
    obtain ⟨d', hd', hrun⟩ := bind_eq_ok.mp hrun
    obtain rfl := Except.ok.inj hrun
    have hresult := h.result hvalue hq hd'
    exact ⟨hresult.1, by simp [hread.2, hresult.2]⟩

/-- A payload of the grammar is decoded to its end, and renders to something
unless it is a method handle that leads nowhere. -/
structure PayloadDecodes (item : DexItem) (run : Run Decoded) (type index q : Nat)
    (nested : List ValueVisit) : Prop where
  returns : (∃ d, run = .ok d) ↔
    (type = 0x16 → ∃ h, item.resolveMethodHandle index = .ok h) ∧ HandlesRead item nested
  result : ∀ d, run = .ok d → d.cursor = q ∧ d.stopped = false ∧
    (d.value.text = [] ↔ type = 0x16 ∧ item.resolveMethodHandle index = .ok none)

theorem payloadDecodes_of_text {run : Run Decoded} {d : Decoded} (htype : type ≠ 0x16)
    (hrun : run = .ok d) (hcursor : d.cursor = q) (hstopped : d.stopped = false)
    (htext : d.value.text ≠ []) : PayloadDecodes item run type index q [] := by
  subst hrun
  refine ⟨⟨fun _ => ⟨fun h => absurd h htype, fun visit hvisit => ?_⟩, fun _ => ⟨d, rfl⟩⟩, ?_⟩
  · exact (List.not_mem_nil hvisit).elim
  · intro d' hd'
    obtain rfl := Except.ok.inj hd'
    exact ⟨hcursor, hstopped, fun h => absurd h htext, fun h => absurd h.1 htype⟩

theorem decodeLeaf_eq {nbytes n : Nat} (hwidth : (if type = 0x00 then 1 else nbytes) = n)
    (hq : p + n ≤ stop) : decodeLeaf mem stop texts item type nbytes p = (do
      let value ← leafText texts item type nbytes (leValue mem p n)
      pure ⟨value, p + n, false⟩) := by
  simp only [decodeLeaf, hwidth, readIntLE, readLE_eq hq, ne_eq, not_true_eq_false, decide_false]

theorem decodePayload_leaf (harray : type ≠ 0x1c) (hnamedElements : type ≠ 0x1d)
    (hnull : type ≠ 0x1e) (hbool : type ≠ 0x1f) :
    decodePayload mem stop texts item value type arg p =
      decodeLeaf mem stop texts item type (arg + 1) p := by
  unfold decodePayload
  split <;> first | contradiction | rfl

theorem decodeArray_decodes (h : Decodes stop item value grammar)
    (hmoves : ∀ {p q log}, grammar p q log → p < q) {size p1 : Nat}
    (hsize : UlebAt mem p size p1) (helements : Elements grammar p1 size q nested)
    (hq : q ≤ stop) : PayloadDecodes item (decodeArray mem stop value p) 0x1c index q nested := by
  have hrow := Decodes.elements (fun i out => h.arrayElement i out) hmoves size 0
    { text := ascii "\x7b" }
  have hread := readULEB128_eq hsize (le_trans (hrow.bounds helements) hq)
  constructor
  · rw [← hrow.returns helements hq]
    simp only [decodeArray, hread.1]
    constructor
    · rintro ⟨d, hrun⟩
      obtain ⟨d', hd', _⟩ := bind_eq_ok.mp hrun
      exact ⟨fun htype => absurd htype (by decide), d', hd'⟩
    · rintro ⟨_, d, hd⟩
      rw [hd]
      exact ⟨_, rfl⟩
  · intro d hrun
    simp only [decodeArray, hread.1] at hrun
    obtain ⟨d', hd', hrun⟩ := bind_eq_ok.mp hrun
    obtain rfl := Except.ok.inj hrun
    have hresult := hrow.result helements hq hd'
    exact ⟨hresult.1, by simp [hread.2, hresult.2], by simp [ascii]⟩

theorem decodeAnnotation_decodes (h : Decodes stop item value grammar) {typeIdx p1 size p2 : Nat}
    (htypeIdx : UlebAt mem p typeIdx p1) (hsize : UlebAt mem p1 size p2)
    (helements : Elements (NamedValue mem limits grammar) p2 size q nested) (hq : q ≤ stop) :
    PayloadDecodes item ( decodeAnnotation mem stop item value p) 0x1d index q nested := by
  have hnamed {p q : Nat} {log : List ValueVisit} :
      NamedValue mem limits grammar p q log → p < q := by
    rintro ⟨nameIdx, p1, hname, _, _, hvalue⟩
    exact lt_of_lt_of_le hname.lt (h.bounds hvalue)
  have hrow (out : EncodedValueText) := Decodes.elements
    (fun i out => @Decodes.annotationElement mem _ _ _ limits _ h i out) hnamed size 0 out
  have hp2 := (hrow {}).bounds helements
  have hreadType := readULEB128_eq htypeIdx (le_trans (Nat.le_of_lt hsize.lt) (le_trans hp2 hq))
  have hreadSize := readULEB128_eq hsize (le_trans hp2 hq)
  constructor
  · simp only [ decodeAnnotation, hreadType.1, hreadSize.1]
    rw [← (hrow _).returns helements hq]
    constructor
    · rintro ⟨d, hrun⟩
      obtain ⟨d', hd', _⟩ := bind_eq_ok.mp hrun
      exact ⟨fun htype => absurd htype (by decide), d', hd'⟩
    · rintro ⟨_, d, hd⟩
      rw [hd]
      exact ⟨_, rfl⟩
  · intro d hrun
    simp only [ decodeAnnotation, hreadType.1, hreadSize.1] at hrun
    obtain ⟨d', hd', hrun⟩ := bind_eq_ok.mp hrun
    obtain rfl := Except.ok.inj hrun
    have hresult := (hrow _).result helements hq hd'
    refine ⟨hresult.1, by simp [hreadType.2, hreadSize.2, hresult.2], ?_⟩
    -- an annotation without elements still has its `@`, one with elements its `)`
    by_cases hzero : size = 0
    · subst hzero
      obtain rfl := Except.ok.inj hd'
      simp [ascii]
    · simp [hzero, ascii]

/-- Every arm decodes a payload of its type. -/
theorem decodePayload_decodes {v : Verifier} {methodHandleCount : Nat} (hl : Loaded v item)
    (hintra : v.IntraOk methodHandleCount) (h : Decodes stop item value grammar)
    (hmoves : ∀ {p q log}, grammar p q log → p < q)
    (hpayload : Payload mem (v.valueLimits methodHandleCount) grammar type arg p q index nested)
    (hq : q ≤ stop) :
    PayloadDecodes item (decodePayload mem stop texts item value type arg p) type index q
      nested := by
  cases hpayload with
  | @plain n hwidth _ =>
    by_cases hnull : type = 0x1e
    · subst hnull
      obtain rfl : n = 0 := by
        simp only [plainWidth] at hwidth
        split at hwidth
        · exact (Option.some.inj hwidth).symm
        · cases hwidth
      exact payloadDecodes_of_text (by decide) rfl rfl rfl (by simp [ascii])
    by_cases hbool : type = 0x1f
    · subst hbool
      obtain rfl : n = 0 := by
        simp only [plainWidth] at hwidth
        split at hwidth
        · exact (Option.some.inj hwidth).symm
        · cases hwidth
      refine payloadDecodes_of_text (by decide) rfl rfl rfl ?_
      dsimp only
      split <;> simp [ascii]
    · have harray : type ≠ 0x1c := by
        rintro rfl
        cases hwidth
      have hnamedElements : type ≠ 0x1d := by
        rintro rfl
        cases hwidth
      have hhandle : type ≠ 0x16 := by
        rintro rfl
        cases hwidth
      obtain ⟨hn, value, hvalue, htext⟩ := @leafText_plain item texts _ _ _ (leValue mem p n)
          hwidth hnull hbool
      rw [decodePayload_leaf harray hnamedElements hnull hbool, decodeLeaf_eq hn hq, hvalue]
      exact payloadDecodes_of_text hhandle rfl rfl rfl htext
  | @index limit hindex harg _ hlimit =>
    have hnested : HandlesRead item [] := fun visit hvisit => (List.not_mem_nil hvisit).elim
    have hother : type ≠ 0x1c ∧ type ≠ 0x1d ∧ type ≠ 0x1e ∧ type ≠ 0x1f ∧ type ≠ 0x00 := by
      refine ⟨?_, ?_, ?_, ?_, ?_⟩
      all_goals
        rintro rfl
        cases hindex
    obtain ⟨harray, hnamedElements, hnull, hbool, hbyte⟩ := hother
    rw [decodePayload_leaf harray hnamedElements hnull hbool,
      decodeLeaf_eq (n := arg + 1) (if_neg hbyte) hq]
    by_cases hhandle : type = 0x16
    · subst hhandle
      have hraw : leValue mem p (arg + 1) < 2 ^ 32 :=
        lt_of_lt_of_le (leValue_lt mem p (arg + 1)) (Nat.pow_le_pow_right (by decide) (by omega))
      obtain ⟨hreturns, htext⟩ := @leafText_handle item texts (arg + 1) _ hraw
      constructor
      · simp only [hnested, and_true, forall_const]
        rw [← hreturns]
        constructor
        · rintro ⟨d, hrun⟩
          obtain ⟨value, hvalue, _⟩ := bind_eq_ok.mp hrun
          exact ⟨value, hvalue⟩
        · rintro ⟨value, hvalue⟩
          rw [hvalue]
          exact ⟨_, rfl⟩
      · intro d hrun
        obtain ⟨value, hvalue, hrun⟩ := bind_eq_ok.mp hrun
        obtain rfl := Except.ok.inj hrun
        exact ⟨rfl, rfl, by simpa using htext value hvalue⟩
    · obtain ⟨value, hvalue, htext⟩ := @leafText_index _ _ _ texts hl hintra _ _ (arg + 1) _
          hindex hlimit hhandle
      rw [hvalue]
      exact payloadDecodes_of_text hhandle rfl rfl rfl htext
  | array htype _ hsize _ helements =>
    subst htype
    exact decodeArray_decodes h hmoves hsize helements hq
  | annotation htype _ htypeIdx _ hsize _ helements =>
    subst htype
    exact decodeAnnotation_decodes h htypeIdx hsize helements hq

theorem decodeLeaf_forward {nbytes : Nat} {d : Decoded} (hp : p ≤ stop)
    (hrun : decodeLeaf mem stop texts item type nbytes p = .ok d) :
    p ≤ d.cursor ∧ d.cursor ≤ stop := by
  obtain ⟨value, _, hrun⟩ := bind_eq_ok.mp hrun
  obtain rfl := Except.ok.inj hrun
  exact readLE_bounds _ hp

/-- No arm passes the end of the buffer. -/
theorem decodePayload_forward {d : Decoded}
    (h : ∀ {p d}, p ≤ stop → value p = .ok d → p ≤ d.cursor ∧ d.cursor ≤ stop) (hp : p ≤ stop)
    (hrun : decodePayload mem stop texts item value type arg p = .ok d) :
    p ≤ d.cursor ∧ d.cursor ≤ stop := by
  unfold decodePayload at hrun
  split at hrun
  · have hsize := @readULEB128_bounds mem _ _ hp
    obtain ⟨d', hd', hrun⟩ := bind_eq_ok.mp hrun
    obtain rfl := Except.ok.inj hrun
    have hrow := decodeElements_forward (fun i out p d hp hround => by
      obtain ⟨e, he, hround⟩ := bind_eq_ok.mp hround
      obtain rfl := Except.ok.inj hround
      have hvalue := h hp he
      exact ⟨hvalue.1, hvalue.2⟩) hsize.2 hd'
    exact ⟨le_trans hsize.1 hrow.1, hrow.2⟩
  · have htype := @readULEB128_bounds mem _ _ hp
    have hsize := @readULEB128_bounds mem _ _ htype.2
    obtain ⟨d', hd', hrun⟩ := bind_eq_ok.mp hrun
    obtain rfl := Except.ok.inj hrun
    have hrow := decodeElements_forward (fun i out p d hp hround => by
      have hname := @readULEB128_bounds mem _ _ hp
      obtain ⟨e, he, hround⟩ := bind_eq_ok.mp hround
      obtain rfl := Except.ok.inj hround
      have hvalue := h hname.2 he
      exact ⟨le_trans hname.1 hvalue.1, hvalue.2⟩) hsize.2 hd'
    exact ⟨le_trans htype.1 (le_trans hsize.1 hrow.1), hrow.2⟩
  · obtain rfl := Except.ok.inj hrun
    exact ⟨le_rfl, hp⟩
  · obtain rfl := Except.ok.inj hrun
    exact ⟨le_rfl, hp⟩
  · exact decodeLeaf_forward hp hrun

end Payloads

section Values

variable {v : Verifier} {item : DexItem} {methodHandleCount : Nat} {stop : Nat}
  {texts : FloatTexts}

/-- A value renders to nothing: it is a method handle that leads nowhere. -/
def Lost (item : DexItem) (visit : ValueVisit) : Prop :=
  visit.type = 0x16 ∧ item.resolveMethodHandle visit.index = .ok none

theorem decodeValue_forward {mem : Memory} {left p : Nat} {d : Decoded} (hp : p ≤ stop)
    (hrun : decodeEncodedValueText mem stop texts item left p = .ok d) :
    p ≤ d.cursor ∧ d.cursor ≤ stop := by
  induction left generalizing p d with
  | zero =>
    obtain rfl := Except.ok.inj hrun
    exact ⟨le_rfl, hp⟩
  | succ left ih =>
    rw [decodeEncodedValueText] at hrun
    split at hrun
    · obtain rfl := Except.ok.inj hrun
      exact ⟨le_rfl, hp⟩
    · have hpayload := decodePayload_forward ih (show p + 1 ≤ stop by omega) hrun
      exact ⟨by omega, hpayload.2⟩

/-- The decoder goes through the values of the grammar, whatever their nesting. -/
theorem decodes_value (hl : Loaded v item) (hintra : v.IntraOk methodHandleCount) (left : Nat) :
    Decodes stop item (decodeEncodedValueText v.image stop texts item left)
        (ValueAt v.image (v.valueLimits methodHandleCount) left) ∧
      ∀ {p q log d}, ValueAt v.image (v.valueLimits methodHandleCount) left p q log → q ≤ stop →
        decodeEncodedValueText v.image stop texts item left p = .ok d →
        (d.value.text = [] ↔ ∃ root nested, log = root :: nested ∧ Lost item root) := by
  induction left with
  | zero => exact ⟨⟨decodeValue_forward, False.elim, False.elim, False.elim⟩, False.elim⟩
  | succ left ih =>
    -- what the payload lemma says about the value at `p`
    have hvalue {p q : Nat} {log : List ValueVisit}
        (hitem : ValueAt v.image (v.valueLimits methodHandleCount) (left + 1) p q log)
        (hq : q ≤ stop) : ∃ root nested, log = root :: nested ∧
          PayloadDecodes item (decodeEncodedValueText v.image stop texts item (left + 1) p)
            root.type root.index q nested := by
      have hbounds := hitem.bounds
      obtain ⟨_, index, nested, hpayload, rfl⟩ := hitem
      refine ⟨_, nested, rfl, ?_⟩
      rw [decodeEncodedValueText, if_neg (by omega)]
      exact decodePayload_decodes hl hintra ih.1 (fun h => h.bounds.1) hpayload hq
    refine ⟨⟨decodeValue_forward, fun hitem => Nat.le_of_lt hitem.bounds.1, ?_, ?_⟩, ?_⟩
    · intro p q log hitem hq
      obtain ⟨root, nested, rfl, hpayload⟩ := hvalue hitem hq
      rw [hpayload.returns]
      simp [HandlesRead]
    · intro p q log d hitem hq hrun
      obtain ⟨root, nested, rfl, hpayload⟩ := hvalue hitem hq
      have hresult := hpayload.result d hrun
      exact ⟨hresult.1, hresult.2.1⟩
    · intro p q log d hitem hq hrun
      obtain ⟨root, nested, rfl, hpayload⟩ := hvalue hitem hq
      rw [(hpayload.result d hrun).2.2]
      constructor
      · exact fun h => ⟨root, nested, rfl, h⟩
      · rintro ⟨root', nested', heq, h⟩
        obtain ⟨rfl, rfl⟩ := List.cons.inj heq
        exact h

end Values

end Dexllm
