import Dexllm.StaticInitSpecs
import Mathlib.Data.Nat.ModEq

/-!
Static initializers stay in lockstep with the verifier exactly when the values
and the field list lie in the windows of the two walks, no field is repeated
and every method handle leads somewhere.
-/

namespace Dexllm

open Guarded Bytes Leb128 Cursor

theorem le_windowEnd {r : Reader} {p q : Nat} :
    q ≤ windowEnd r p ↔ q ≤ p + kClassWindow ∧ q ≤ r.image.length := le_min_iff

/-- The counts before a walk lie in its window. -/
theorem le_windowEnd_of_counts {r : Reader} {p q : Nat} (h : q ≤ p + 20)
    (hlen : q ≤ r.image.length) : q ≤ windowEnd r p := by
  have hwide : 20 ≤ kClassWindow := by simp [kClassWindow]
  exact le_windowEnd.mpr ⟨le_trans h (Nat.add_le_add_left hwide p), hlen⟩

section Fields

variable {mem : Memory} {stop p q value n last : Nat} {members : List (Nat × Nat)}

/-- The cursor after `n` numbers. -/
def skipUlebs (mem : Memory) (n p : Nat) : Nat :=
  (fun p => (readULEB128 mem mem.length p).2)^[n] p

/-- The index difference of static field `i` in the class_data at `data`, read up
to `stop`. -/
def fieldDiff (mem : Memory) (stop data i : Nat) : Nat :=
  (readULEB128 mem stop (skipUlebs mem (4 + 2 * i) data)).1

theorem skipUlebs_add (m n : Nat) : skipUlebs mem (m + n) p = skipUlebs mem n (skipUlebs mem m p) := by
  rw [skipUlebs, Nat.add_comm, Function.iterate_add_apply]
  rfl

theorem skipUlebs_one (h : UlebAt mem p value q) : skipUlebs mem 1 p = q := by
  rw [skipUlebs, Function.iterate_one, (readULEB128_eq h h.le_length).1]

theorem skipUlebs_members (h : MemberList false mem p n members q last) :
    skipUlebs mem (2 * n) p = q := by
  induction h with
  | nil => rfl
  | field hextra hlist hdiff haccess ih =>
    rename_i n q last diff q1 access q2 members
    rw [show 2 * (n + 1) = 2 * n + 1 + 1 by ring, skipUlebs_add, skipUlebs_add, ih,
      skipUlebs_one hdiff, skipUlebs_one haccess]
  | method hextra => cases hextra

/-- A number that was cut reads the same where it starts and where the cursor
stopped before it. -/
theorem readULEB128_min (h : UlebAt mem p value q) :
    readULEB128 mem stop (min p stop) = ((readULEB128 mem stop p).1, min q stop) := by
  have hlt := h.lt
  rcases Nat.le_total p stop with hp | hp
  · obtain ⟨n, hn, hlen, rfl, rfl, _⟩ := h
    rw [Nat.min_eq_left hp, readULEB128, readUleb_eq hn hlen hp]
  · rw [Nat.min_eq_right hp, readULEB128_past le_rfl, readULEB128_past hp]
    rw [show min q stop = stop by omega]

theorem readULEB128_lt (h : UlebAt mem p value q) : (readULEB128 mem stop p).1 < 2 ^ 32 := by
  rcases Nat.le_total p stop with hp | hp
  · obtain ⟨n, hn, hlen, rfl, rfl, _⟩ := h
    rw [readULEB128, readUleb_eq hn hlen hp]
    exact Nat.mod_lt _ (by decide)
  · rw [readULEB128_past hp]
    exact Nat.two_pow_pos 32

/-- The index difference at `p` reads the same cut at `stop`. -/
def DiffKept (mem : Memory) (stop p : Nat) : Prop :=
  (readULEB128 mem stop p).1 = (readULEB128 mem mem.length p).1

/-- What the walk over a field list reads: its first `k` indices are those of
the list exactly when none of their differences is cut short. -/
structure FieldsRead (mem : Memory) (stop p n q last : Nat) (members : List (Nat × Nat)) :
    Prop where
  cursor : (readFieldList mem stop n p).cursor = min q stop
  length : (readFieldList mem stop n p).ids.length = n
  cur : (readFieldList mem stop n p).ids = members.map Prod.fst →
    (readFieldList mem stop n p).cur = last
  kept : ∀ k ≤ n, (readFieldList mem stop n p).ids.take k = (members.map Prod.fst).take k ↔
    ∀ i < k, DiffKept mem stop (skipUlebs mem (2 * i) p)

theorem readFieldList_succ (n : Nat) :
    readFieldList mem stop (n + 1) p = readField mem stop (readFieldList mem stop n p) := by
  rw [readFieldList, Function.iterate_succ_apply']
  rfl

theorem fieldsRead (h : MemberList false mem p n members q last) (hp : p ≤ stop) :
    FieldsRead mem stop p n q last members := by
  induction h with
  | nil =>
    refine ⟨(Nat.min_eq_left hp).symm, rfl, fun _ => rfl, fun k hk => ?_⟩
    obtain rfl : k = 0 := by omega
    simp
  | method hextra => cases hextra
  | field hextra hlist hdiff haccess ih =>
    rename_i n q last diff q1 access q2 members
    have hlength := hlist.length_eq
    have hskip := skipUlebs_members hlist
    have hdiffs := (readULEB128_eq hdiff hdiff.le_length).1
    have hsmall : diff < 2 ^ 32 := by
      have hlt := @readULEB128_lt _ mem.length _ _ _ hdiff
      rwa [hdiffs] at hlt
    -- the round reads the difference cut at `stop`, and then the flags
    obtain ⟨cur, hround, hcur⟩ : ∃ cur, readFieldList mem stop (n + 1) p =
        ⟨min q2 stop, cur, (readFieldList mem stop n p).ids ++ [cur]⟩ ∧
        ((readFieldList mem stop n p).ids = members.map Prod.fst →
          cur = (last + (readULEB128 mem stop q).1) % 2 ^ 32) := by
      rw [readFieldList_succ]
      simp only [readField, ih.cursor, readULEB128_min hdiff, readULEB128_min haccess]
      refine ⟨_, rfl, fun hids => ?_⟩
      have hlast := ih.cur hids
      split
      · rename_i hnone
        rw [ih.length] at hnone
        subst hnone
        obtain rfl := List.length_eq_zero_iff.mp hlength
        cases hlist
        rw [Nat.zero_add, Nat.mod_eq_of_lt (readULEB128_lt hdiff)]
      · rw [hlast]
    have hkept : (last + (readULEB128 mem stop q).1) % 2 ^ 32 = (last + diff) % 2 ^ 32 ↔
        DiffKept mem stop (skipUlebs mem (2 * n) p) := by
      rw [hskip, DiffKept, hdiffs]
      refine ⟨fun h => ?_, fun h => by rw [h]⟩
      have hcongr := Nat.ModEq.add_left_cancel' last h
      rwa [Nat.ModEq, Nat.mod_eq_of_lt (readULEB128_lt hdiff), Nat.mod_eq_of_lt hsmall] at hcongr
    have hall : (readFieldList mem stop n p).ids = members.map Prod.fst ↔
        ∀ i < n, DiffKept mem stop (skipUlebs mem (2 * i) p) := by
      have hfull := ih.kept n le_rfl
      rwa [List.take_of_length_le (by rw [ih.length]),
        List.take_of_length_le (by rw [List.length_map, hlength])] at hfull
    have hsame : (readFieldList mem stop n p).ids ++ [cur] =
        members.map Prod.fst ++ [(last + diff) % 2 ^ 32] ↔
          (readFieldList mem stop n p).ids = members.map Prod.fst ∧
            cur = (last + diff) % 2 ^ 32 := by
      rw [List.append_singleton_inj]
    have hmap : (members ++ [((last + diff) % 2 ^ 32, access)]).map Prod.fst =
        members.map Prod.fst ++ [(last + diff) % 2 ^ 32] := by simp
    refine ⟨by rw [hround], by rw [hround]; simp [ih.length], fun hids => ?_, fun k hk => ?_⟩
    · rw [hround] at hids ⊢
      rw [hmap] at hids
      exact (hsame.mp hids).2
    · rw [hround, hmap]
      dsimp only
      rcases Nat.lt_succ_iff_lt_or_eq.mp (Nat.lt_succ_of_le hk) with hlt | rfl
      · rw [List.take_append_of_le_length (by rw [ih.length]; omega),
          List.take_append_of_le_length (by rw [List.length_map, hlength]; omega)]
        exact ih.kept k (by omega)
      · rw [List.take_of_length_le (by simp [ih.length]),
          List.take_of_length_le (by simp [hlength]), hsame, Nat.forall_lt_succ_right, ← hall]
        refine and_congr_right fun hids => ?_
        rw [hcur hids]
        exact hkept

theorem readClassFields_eq {p1 p2 p3 p4 n1 n2 n3 n4 : Nat} (hn1 : UlebAt mem p n1 p1)
    (hn2 : UlebAt mem p1 n2 p2) (hn3 : UlebAt mem p2 n3 p3) (hn4 : UlebAt mem p3 n4 p4)
    (hp4 : p4 ≤ stop) : ∃ instanceIds,
      readClassFields mem stop p = ⟨(readFieldList mem stop n1 p4).ids, instanceIds⟩ := by
  have hlt2 := hn2.lt
  have hlt3 := hn3.lt
  have hlt4 := hn4.lt
  simp only [readClassFields, (readULEB128_eq hn1 (show p1 ≤ stop by omega)).1,
    (readULEB128_eq hn2 (show p2 ≤ stop by omega)).1,
    (readULEB128_eq hn3 (show p3 ≤ stop by omega)).1, (readULEB128_eq hn4 hp4).1]
  exact ⟨_, rfl⟩

theorem parseClassFieldOrder_run {v : Verifier} {r : Reader} (hr : ReaderOf v r) {cd : ClassDef}
    (hoff : cd.classDataOff ≠ 0) (hsmall : cd.classDataOff < 2 ^ 31) :
    parseClassFieldOrder r cd = .ok (readClassFields r.image
      (windowEnd r (v.offsetToPtr cd.classDataOff)) (v.offsetToPtr cd.classDataOff)) := by
  rw [parseClassFieldOrder, if_neg hoff, dataPtr_eq hr hsmall hoff, bind_ok, pure_eq_ok]

/-- The window of class_data shows its static fields as far as their index
differences are not cut. -/
theorem parseClassFieldOrder_eq {v : Verifier} {r : Reader} (hr : ReaderOf v r) {cd : ClassDef}
    {sf inf dm vm : List (Nat × Nat)} (hoff : cd.classDataOff ≠ 0)
    (hsmall : cd.classDataOff < 2 ^ 31)
    (hdata : ClassData v.image (v.offsetToPtr cd.classDataOff) sf inf dm vm) :
    ∃ fields, parseClassFieldOrder r cd = .ok fields ∧ fields.staticIds.length = sf.length ∧
      ∀ k ≤ sf.length, fields.staticIds.take k = (sf.map Prod.fst).take k ↔
        ∀ i < k, fieldDiff v.image (windowEnd r (v.offsetToPtr cd.classDataOff))
          (v.offsetToPtr cd.classDataOff) i =
            fieldDiff v.image v.image.length (v.offsetToPtr cd.classDataOff) i := by
  obtain ⟨p1, p2, p3, p4, q1, _, _, _, l1, _, _, _, hn1, hn2, hn3, hn4, hsf, _, _, _⟩ :=
    hdata.layout
  -- the four counts take at most 20 bytes
  have hp4 : p4 ≤ windowEnd r (v.offsetToPtr cd.classDataOff) := by
    have hlength := hn4.le_length
    have h1 := hn1.le_five
    have h2 := hn2.le_five
    have h3 := hn3.le_five
    have h4 := hn4.le_five
    exact le_windowEnd_of_counts (by omega) (hr.image ▸ hlength)
  have hfields := fieldsRead hsf hp4
  obtain ⟨instanceIds, hread⟩ := readClassFields_eq hn1 hn2 hn3 hn4 hp4
  have hrun := parseClassFieldOrder_run hr hoff hsmall
  rw [hr.image, hread] at hrun
  refine ⟨_, hrun, hfields.length, fun k hk => ?_⟩
  have hskip : skipUlebs v.image 4 (v.offsetToPtr cd.classDataOff) = p4 := by
    rw [show 4 = 1 + 1 + 1 + 1 by rfl, skipUlebs_add, skipUlebs_add, skipUlebs_add,
      skipUlebs_one hn1, skipUlebs_one hn2, skipUlebs_one hn3, skipUlebs_one hn4]
  refine (hfields.kept k hk).trans (forall₂_congr fun i _ => ?_)
  rw [fieldDiff, fieldDiff, skipUlebs_add, hskip, DiffKept]

end Fields

section Table

variable {α : Type} {table : List (Nat × α)} {key key' : Nat} {a : α}

/-- A key that is new gets its value, and a table never loses one. -/
theorem lookup_emplace_of_none (h : table.lookup key = none) :
    (emplace table key a).lookup key = some a := by
  rw [emplace, h]
  simp

theorem lookup_emplace_of_some {b : α} (h : table.lookup key' = some b) :
    (emplace table key a).lookup key' = some b := by
  unfold emplace
  split
  · exact h
  · rename_i hnone
    rw [List.lookup_cons]
    split
    · rename_i hsame
      rw [eq_of_beq hsame] at h
      simp [h] at hnone
    · exact h

theorem mem_emplace {pair : Nat × α} (h : pair ∈ emplace table key a) :
    pair ∈ table ∨ pair = (key, a) := by
  unfold emplace at h
  split at h
  · exact .inl h
  · exact (List.mem_cons.mp h).symm

theorem mem_of_lookup {b : α} (h : table.lookup key = some b) : (key, b) ∈ table := by
  obtain ⟨_, _, rfl, _⟩ := List.lookup_eq_some_iff.mp h
  simp

end Table

section Values

variable {v : Verifier} {item : DexItem} {methodHandleCount : Nat} {stop : Nat}
  {texts : FloatTexts} {ids : List Nat} {p n r : Nat} {log : List ValueVisit}

/-- The record of the decoder for a value it went through. -/
def decodedSpan (visit : ValueVisit) : DecodedSpan := ⟨visit.start, visit.stop, false⟩

/-- What the map holds after the values `tops` for the fields `ids`: only values
of their own fields that render to something, and all of those when no field is
repeated. -/
structure Paired (item : DexItem) (ids : List Nat) (tops : List ValueVisit)
    (initMap : List (Nat × InitValue)) : Prop where
  own : ∀ key e, (key, e) ∈ initMap → ids[e.index]? = some key ∧
    ∃ visit, tops[e.index]? = some visit ∧ ¬Lost item visit
  all : (∀ visit ∈ tops, ¬Lost item visit) → (ids.take tops.length).Nodup →
    ∀ i key, i < tops.length → ids[i]? = some key →
      ∃ value, initMap.lookup key = some ⟨i, value⟩

theorem Paired.lost {tops : List ValueVisit} {initMap : List (Nat × InitValue)}
    (h : Paired item ids tops initMap) {root : ValueVisit} (hlost : Lost item root) :
    Paired item ids (tops ++ [root]) initMap where
  own key e hmem := by
    obtain ⟨hkey, visit, hvisit, hfound⟩ := h.own key e hmem
    obtain ⟨hlt, _⟩ := List.getElem?_eq_some_iff.mp hvisit
    exact ⟨hkey, visit, by rw [List.getElem?_append_left hlt, hvisit], hfound⟩
  all hfound := absurd hlost (hfound root (by simp))

theorem Paired.emplace {tops : List ValueVisit} {initMap : List (Nat × InitValue)}
    (h : Paired item ids tops initMap) {root : ValueVisit} (hfound : ¬Lost item root) {key : Nat}
    (hkey : ids[tops.length]? = some key) (value : EncodedValueText) :
    Paired item ids (tops ++ [root]) (emplace initMap key ⟨tops.length, value⟩) where
  own key' e hmem := by
    rcases mem_emplace hmem with hmem | heq
    · obtain ⟨hkey', visit, hvisit, hfound'⟩ := h.own key' e hmem
      obtain ⟨hlt, _⟩ := List.getElem?_eq_some_iff.mp hvisit
      exact ⟨hkey', visit, by rw [List.getElem?_append_left hlt, hvisit], hfound'⟩
    · obtain ⟨rfl, rfl⟩ := Prod.mk.inj heq
      exact ⟨hkey, root, by simp, hfound⟩
  all hall hnodup := by
    intro i key' hi hkey'
    rw [List.length_append, List.length_singleton] at hi hnodup
    have hfirst : (ids.take tops.length).Nodup :=
      hnodup.sublist (List.take_sublist_take_left (Nat.le_succ _))
    have hold := h.all (fun visit hvisit => hall visit (List.mem_append_left _ hvisit)) hfirst
    rcases Nat.lt_succ_iff_lt_or_eq.mp hi with hlt | rfl
    · obtain ⟨value', hvalue'⟩ := hold i key' hlt hkey'
      exact ⟨value', lookup_emplace_of_some hvalue'⟩
    · obtain rfl := Option.some.inj (hkey.symm.trans hkey')
      refine ⟨value, lookup_emplace_of_none ?_⟩
      -- an older entry of the key would be a repetition of it
      cases hlookup : initMap.lookup key with
      | none => rfl
      | some e =>
        obtain ⟨holdKey, visit, hvisit, _⟩ := h.own key e (mem_of_lookup hlookup)
        obtain ⟨hlt, _⟩ := List.getElem?_eq_some_iff.mp hvisit
        have hsame := (List.nodup_iff_getElem?_ne_getElem?.mp hnodup) e.index tops.length hlt
          (by
            obtain ⟨hlen, _⟩ := List.getElem?_eq_some_iff.mp hkey
            rw [List.length_take]
            omega)
        rw [List.getElem?_take_of_lt (by omega), List.getElem?_take_of_lt (by omega), holdKey,
          hkey] at hsame
        exact absurd rfl hsame

/-- The rounds of `DecodeStaticInitMap` go through a row of values that ends
inside the window. -/
theorem decodeStaticValues_spec (hl : Loaded v item) (hintra : v.IntraOk methodHandleCount)
    (hrow : Elements (ValueAt v.image (v.valueLimits methodHandleCount) (kMaxDepth + 1)) p n r log)
    (hr : r ≤ stop) (hids : n ≤ ids.length) :
    let run := loop n { cursor := p } <| decodeStaticValue
      (decodeEncodedValueText v.image stop texts item (kEncodedValueMaxDepth + 1)) ids
    ((∃ s, run = .ok s) ↔ HandlesRead item log) ∧
      ∀ s, run = .ok s → s.cursor = r ∧ s.decoded = (topValues log).map decodedSpan ∧
        Paired item ids (topValues log) s.initMap := by
  obtain ⟨hdecodes, htext⟩ := @decodes_value _ _ _ stop texts hl hintra (kMaxDepth + 1)
  induction hrow with
  | nil =>
    refine ⟨⟨fun _ visit hvisit => (List.not_mem_nil hvisit).elim, fun _ => ⟨_, rfl⟩⟩, ?_⟩
    intro s hs
    obtain rfl := Except.ok.inj hs
    refine ⟨rfl, rfl, fun key e hmem => (List.not_mem_nil hmem).elim, fun _ _ i key hi => ?_⟩
    exact absurd hi (Nat.not_lt_zero i)
  | snoc hinit hlast ih =>
    rename_i n q r log visits
    have hlt := hlast.bounds.1
    obtain ⟨hreturns, hresult⟩ := ih (by omega) (by omega)
    obtain ⟨root, nested, hroot, htop, hstart, hstop⟩ := hlast.topValues_eq
    have hcount := hinit.topValues.1
    dsimp only
    rw [loop_succ, handlesRead_append, ← hreturns]
    cases hrun : loop n { cursor := p } (decodeStaticValue
        (decodeEncodedValueText v.image stop texts item (kEncodedValueMaxDepth + 1)) ids) with
    | error e => simp
    | ok s =>
      obtain ⟨hcursor, hdecoded, hpaired⟩ := hresult s hrun
      obtain ⟨key, hkey, hvector⟩ := vectorAt_eq (show n < ids.length by omega)
      rw [bind_ok, decodeStaticValue, hcursor, ← hdecodes.returns hlast hr]
      cases hvalue : decodeEncodedValueText v.image stop texts item (kEncodedValueMaxDepth + 1) q with
      | error e => simp [show kMaxDepth = kEncodedValueMaxDepth from rfl, hvalue]
      | ok d =>
        obtain ⟨hend, hstopped⟩ := hdecodes.result hlast hr hvalue
        have hspan : (⟨q, d.cursor, d.stopped⟩ : DecodedSpan) = decodedSpan root := by
          rw [decodedSpan, hend, hstopped, hstart, hstop]
        have hlost : d.value.text = [] ↔ Lost item root := by
          rw [htext hlast hr hvalue]
          constructor
          · rintro ⟨root', nested', heq, h⟩
            rw [hroot] at heq
            rwa [(List.cons.inj heq).1]
          · exact fun h => ⟨root, nested, hroot, h⟩
        rw [bind_ok, topValues_append, htop, List.map_append, List.map_singleton, ← hspan,
          ← hdecoded]
        by_cases hempty : d.value.text = []
        · rw [if_pos hempty]
          refine ⟨⟨fun _ => ⟨⟨s, rfl⟩, d, hvalue⟩, fun _ => ⟨_, rfl⟩⟩, fun s' hs' => ?_⟩
          obtain rfl := Except.ok.inj hs'
          exact ⟨hend, rfl, hpaired.lost (hlost.mp hempty)⟩
        · rw [if_neg hempty, hvector, bind_ok]
          refine ⟨⟨fun _ => ⟨⟨s, rfl⟩, d, hvalue⟩, fun _ => ⟨_, rfl⟩⟩, fun s' hs' => ?_⟩
          obtain rfl := Except.ok.inj hs'
          refine ⟨hend, rfl, ?_⟩
          rw [← hcount] at hkey ⊢
          exact hpaired.emplace (fun h => hempty (hlost.mpr h)) hkey d.value

/-- The rounds never pass the end of the window. -/
theorem decodeStaticValues_forward {mem : Memory} {s : StaticInit} (hp : p ≤ stop)
    (hrun : loop n { cursor := p } (decodeStaticValue
      (decodeEncodedValueText mem stop texts item (kEncodedValueMaxDepth + 1)) ids) = .ok s) :
    ∀ span ∈ s.decoded, span.stop ≤ stop := by
  have hinv := loop_invariant (fun _ s => s.cursor ≤ stop ∧ ∀ span ∈ s.decoded, span.stop ≤ stop)
    hrun ⟨hp, by simp⟩ ?_
  · exact hinv.2
  · rintro i s s' _ ⟨hcursor, hspans⟩ hround
    obtain ⟨d, hd, hround⟩ := bind_eq_ok.mp hround
    have hforward := decodeValue_forward hcursor hd
    have hspans' : ∀ span ∈ s.decoded ++ [⟨s.cursor, d.cursor, d.stopped⟩], span.stop ≤ stop := by
      intro span hspan
      rcases List.mem_append.mp hspan with hspan | hspan
      · exact hspans span hspan
      · rw [List.mem_singleton.mp hspan]
        exact hforward.2
    split at hround
    · obtain rfl := Except.ok.inj hround
      exact ⟨hforward.2, hspans'⟩
    · obtain ⟨field, _, hround⟩ := bind_eq_ok.mp hround
      obtain rfl := Except.ok.inj hround
      exact ⟨hforward.2, hspans'⟩

end Values

section Main

variable {image : Memory} {headerOff methodHandleCount q : Nat} {checkInsns : Bool}
  {st : VerifyImageState} {v : Verifier} {deviations : List String} {item : DexItem}
  {cd : ClassDef} {sf inf dm vm : List (Nat × Nat)} {log : List ValueVisit}

/-- Value `i` was decoded from the bytes of `visit` without an early stop, and
the map has it for `field`. -/
def ValueDecoded (s : StaticInit) (i : Nat) (visit : ValueVisit) (field : Nat) : Prop :=
  s.decoded[i]? = some (decodedSpan visit) ∧
    ∃ value, s.initMap.lookup field = some ⟨i, value⟩

/-- The values the verifier found are decoded where it found them, each for its
static field, as far as there are both. -/
def DecodesInLockstep (texts : FloatTexts) (item : DexItem) (cd : ClassDef)
    (sf : List (Nat × Nat)) (log : List ValueVisit) : Prop :=
  ∀ i visit field, (topValues log)[i]? = some visit → sf[i]? = some field →
    ∃ s, staticInit texts item cd = .ok s ∧ ValueDecoded s i visit field.1

/-- Nothing is cut from the first `k` static fields and values of a class, no
field is repeated among them, and every method handle leads somewhere. -/
structure StaticInitFits (v : Verifier) (item : DexItem) (cd : ClassDef) (sf : List (Nat × Nat))
    (log : List ValueVisit) (k : Nat) : Prop where
  classDataOff : cd.classDataOff < 2 ^ 31
  staticValuesOff : cd.staticValuesOff < 2 ^ 31
  fields : ∀ i < k, fieldDiff v.image (windowEnd item.reader (v.offsetToPtr cd.classDataOff))
    (v.offsetToPtr cd.classDataOff) i =
      fieldDiff v.image v.image.length (v.offsetToPtr cd.classDataOff) i
  distinct : ((sf.map Prod.fst).take k).Nodup
  window : ∀ top ∈ (topValues log).take k, top.stop ≤ v.offsetToPtr cd.staticValuesOff + kClassWindow
  handles : ∀ top ∈ (topValues log).take k, ∀ visit ∈ log, visit.start < top.stop →
    visit.type = 0x16 → ∃ h, item.resolveMethodHandle visit.index = .ok h ∧
      (visit.depth = 0 → h ≠ none)

theorem decodeStaticValues_eq {texts : FloatTexts} {ids : List Nat} {mem : Memory}
    {stop sv size p1 : Nat} (hread : readULEB128 mem stop sv = (size, p1)) :
    decodeStaticValues mem stop texts item ids sv = loop (min size ids.length) { cursor := p1 }
      (decodeStaticValue (decodeEncodedValueText mem stop texts item (kEncodedValueMaxDepth + 1))
        ids) := by
  rw [decodeStaticValues, hread]

theorem decodeStaticInitMap_eq {texts : FloatTexts} {ids : List Nat}
    (hr : ReaderOf v item.reader) (hoff : cd.staticValuesOff ≠ 0)
    (hsmall : cd.staticValuesOff < 2 ^ 31) (hids : ids ≠ []) :
    decodeStaticInitMap texts item cd ids = decodeStaticValues item.reader.image
      (windowEnd item.reader (v.offsetToPtr cd.staticValuesOff)) texts item ids
      (v.offsetToPtr cd.staticValuesOff) := by
  rw [decodeStaticInitMap, if_neg (not_or.mpr ⟨hoff, hids⟩), dataPtr_eq hr hsmall hoff, bind_ok]

/-- The walk over the values of a class with static fields, once its offset is no
negative `int`. -/
theorem decodeStaticInitMap_loop {texts : FloatTexts} {ids : List Nat} {size p1 : Nat}
    (hr : ReaderOf v item.reader) (hoff : cd.staticValuesOff ≠ 0)
    (hsmall : cd.staticValuesOff < 2 ^ 31) (hids : ids ≠ [])
    (hsize : UlebAt v.image (v.offsetToPtr cd.staticValuesOff) size p1) :
    decodeStaticInitMap texts item cd ids = loop (min size ids.length) { cursor := p1 }
      (decodeStaticValue (decodeEncodedValueText v.image
        (windowEnd item.reader (v.offsetToPtr cd.staticValuesOff)) texts item
        (kEncodedValueMaxDepth + 1)) ids) := by
  have hfive := hsize.le_five
  have hlength := hsize.le_length
  have hp1 : p1 ≤ windowEnd item.reader (v.offsetToPtr cd.staticValuesOff) :=
    le_windowEnd_of_counts (by omega) (hr.image ▸ hlength)
  have hread := (readULEB128_eq hsize hp1).1
  rw [decodeStaticInitMap_eq hr hoff hsmall hids, hr.image, decodeStaticValues_eq hread]

/-- The array of a class's static values, cut after the values of its first `k`
static fields. -/
structure ValuesCut (v : Verifier) (methodHandleCount : Nat) (cd : ClassDef) (fields : Nat)
    (log log1 : List ValueVisit) (size p1 k r : Nat) : Prop where
  header : UlebAt v.image (v.offsetToPtr cd.staticValuesOff) size p1
  count : (topValues log).length = size
  least : min fields size = k
  first : Elements (ValueAt v.image (v.valueLimits methodHandleCount) (kMaxDepth + 1)) p1 k r log1
  tops : (topValues log).take k = topValues log1
  le_length : r ≤ v.image.length
  mem : ∀ visit, visit ∈ log1 ↔ visit ∈ log ∧ visit.start < r

theorem valuesCut_exists {fields : Nat}
    (hgrammar : EncodedArray v.image (v.valueLimits methodHandleCount)
      (v.offsetToPtr cd.staticValuesOff) q log) :
    ∃ log1 size p1 r, ValuesCut v methodHandleCount cd fields log log1 size p1
      (min fields (topValues log).length) r := by
  obtain ⟨size, p1, hsize, hp1, hrow⟩ := hgrammar
  have hcount := hrow.topValues.1
  have hin : (v.valueLimits methodHandleCount).stop ≤ v.image.length := v.endOfFile_le
  rw [hcount]
  obtain ⟨r, log1, log2, hfirst, hrest, rfl⟩ := hrow.split (Nat.min_le_right fields size)
  have hcount1 := hfirst.topValues.1
  have hitem (p q : Nat) (log : List ValueVisit)
      (h : ValueAt v.image (v.valueLimits methodHandleCount) (kMaxDepth + 1) p q log) :
      p ≤ q ∧ ∀ visit ∈ log, p ≤ visit.start ∧ visit.start < q :=
    ⟨Nat.le_of_lt h.bounds.1, h.starts⟩
  have hbounds := hfirst.bounds hp1 fun p q log h => ⟨Nat.le_of_lt h.bounds.1, h.bounds.2⟩
  have hbefore := (hfirst.starts hitem).2
  have hafter := (hrest.starts hitem).2
  refine ⟨log1, size, p1, r, hsize, hcount, rfl, hfirst, ?_, by omega, fun visit => ?_⟩
  · rw [topValues_append, List.take_append_of_le_length (by omega),
      List.take_of_length_le (by omega)]
  · constructor
    · exact fun hmem => ⟨List.mem_append_left _ hmem, (hbefore visit hmem).2⟩
    · rintro ⟨hmem, hstart⟩
      rcases List.mem_append.mp hmem with hmem | hmem
      · exact hmem
      · have hlate := hafter visit hmem
        omega

section Cut

variable {texts : FloatTexts} {log1 : List ValueVisit} {size p1 k r : Nat}
  (hl : Loaded v item) (hintra : v.IntraOk methodHandleCount)
  (hcut : ValuesCut v methodHandleCount cd sf.length log log1 size p1 k r)

include hl hintra hcut

theorem lockstep_of_fits (hdataOff : cd.classDataOff ≠ 0)
    (hdata : ClassData v.image (v.offsetToPtr cd.classDataOff) sf inf dm vm)
    (hoff : cd.staticValuesOff ≠ 0) (hfits : 0 < k → StaticInitFits v item cd sf log k) :
    DecodesInLockstep texts item cd sf log := by
  intro i visit field hvisit hfield
  obtain ⟨hi, _⟩ := List.getElem?_eq_some_iff.mp hvisit
  obtain ⟨hi', _⟩ := List.getElem?_eq_some_iff.mp hfield
  have hleast := hcut.least
  have hcount := hcut.count
  have hik : i < k := by omega
  have hfits := hfits (by omega)
  obtain ⟨hcount1, _, hlast⟩ := hcut.first.topValues
  obtain ⟨last, hlastMem, hlastStop⟩ := hlast (by omega)
  obtain ⟨⟨ids, instanceIds⟩, hparse, hlength, hids⟩ :=
    parseClassFieldOrder_eq hl.reader hdataOff hfits.classDataOff hdata
  have hlen : ids.length = sf.length := hlength
  have hmin : min size ids.length = k := by rw [hlen, Nat.min_comm, hleast]
  have hkIds : k ≤ ids.length := hmin ▸ Nat.min_le_right size ids.length
  have hsame : ids.take k = (sf.map Prod.fst).take k := (hids k (hlen ▸ hkIds)).mpr hfits.fields
  -- the values end inside the window, and their handles lead somewhere
  have hwindow : r ≤ windowEnd item.reader (v.offsetToPtr cd.staticValuesOff) := by
    have hstop := hfits.window last (hcut.tops ▸ hlastMem)
    exact le_windowEnd.mpr ⟨hlastStop ▸ hstop, hl.reader.image ▸ hcut.le_length⟩
  have hhandle (visit : ValueVisit) (hmem : visit ∈ log1) (htype : visit.type = 0x16) :
      ∃ h, item.resolveMethodHandle visit.index = .ok h ∧ (visit.depth = 0 → h ≠ none) := by
    obtain ⟨hmem, hstart⟩ := (hcut.mem visit).mp hmem
    exact hfits.handles last (hcut.tops ▸ hlastMem) visit hmem (hlastStop.symm ▸ hstart) htype
  obtain ⟨hreturns, hresult⟩ := @decodeStaticValues_spec _ _ _ _ texts ids _ _ _ _ hl hintra
      hcut.first hwindow hkIds
  obtain ⟨s, hrun⟩ := hreturns.mpr fun visit hmem htype =>
    (hhandle visit hmem htype).imp fun h hh => hh.1
  obtain ⟨_, hdecoded, hpaired⟩ := hresult s hrun
  have hids' : ids ≠ [] := List.ne_nil_of_length_pos (hlen ▸ Nat.zero_lt_of_lt hi')
  have hinit : staticInit texts item cd = .ok s := by
    rw [staticInit, hparse, bind_ok, decodeStaticInitMap_loop hl.reader hoff
      hfits.staticValuesOff hids' hcut.header, hmin, hrun]
  have hvisit1 : (topValues log1)[i]? = some visit := by
    rw [← hcut.tops, List.getElem?_take_of_lt hik, hvisit]
  refine ⟨s, hinit, ?_, hpaired.all (fun top hmem hlost => ?_) ?_ i field.1 (by omega) ?_⟩
  · rw [hdecoded, List.getElem?_map, hvisit1]
    rfl
  · obtain ⟨hmem, hdepth⟩ := List.mem_filter.mp hmem
    obtain ⟨h, hresolve, hfound⟩ := hhandle top hmem hlost.1
    rw [hlost.2] at hresolve
    exact hfound (eq_of_beq hdepth) (Except.ok.inj hresolve).symm
  · rw [hcount1, hsame]
    exact hfits.distinct
  · have hget : (ids.take k)[i]? = ((sf.map Prod.fst).take k)[i]? := by rw [hsame]
    rwa [List.getElem?_take_of_lt hik, List.getElem?_take_of_lt hik, List.getElem?_map,
      hfield] at hget

theorem fits_of_lockstep (hdataOff : cd.classDataOff ≠ 0)
    (hdata : ClassData v.image (v.offsetToPtr cd.classDataOff) sf inf dm vm)
    (hoff : cd.staticValuesOff ≠ 0) (hlockstep : DecodesInLockstep texts item cd sf log)
    (hk : 0 < k) : StaticInitFits v item cd sf log k := by
  have hleast := hcut.least
  have hcount := hcut.count
  have hkSize : k ≤ size := hleast ▸ Nat.min_le_right sf.length size
  have hkFields : k ≤ sf.length := hleast ▸ Nat.min_le_left sf.length size
  obtain ⟨hcount1, _, hlast⟩ := hcut.first.topValues
  obtain ⟨last, hlastMem, hlastStop⟩ := hlast hk
  -- all values are those of one run
  obtain ⟨s, hrun, hall⟩ : ∃ s, staticInit texts item cd = .ok s ∧ ∀ i visit field,
      (topValues log1)[i]? = some visit → (sf.map Prod.fst)[i]? = some field →
        ValueDecoded s i visit field := by
    have hfirst : 0 < (topValues log).length ∧ 0 < sf.length :=
      ⟨hcount ▸ Nat.lt_of_lt_of_le hk hkSize, Nat.lt_of_lt_of_le hk hkFields⟩
    obtain ⟨s, hrun, _⟩ := hlockstep 0 _ _ (List.getElem?_eq_getElem hfirst.1)
      (List.getElem?_eq_getElem hfirst.2)
    refine ⟨s, hrun, fun i visit field hvisit hfield => ?_⟩
    obtain ⟨hi, _⟩ := List.getElem?_eq_some_iff.mp hvisit
    rw [List.getElem?_map] at hfield
    obtain ⟨field', hfield', rfl⟩ := Option.map_eq_some_iff.mp hfield
    rw [← hcut.tops, List.getElem?_take_of_lt (by omega)] at hvisit
    obtain ⟨s', hrun', hdecoded⟩ := hlockstep i visit field' hvisit hfield'
    obtain rfl := Except.ok.inj (hrun.symm.trans hrun')
    exact hdecoded
  have hfieldAt (i : Nat) (hi : i < k) : ∃ field, (sf.map Prod.fst)[i]? = some field := by
    have hlen : i < (sf.map Prod.fst).length := by
      rw [List.length_map]
      omega
    exact ⟨_, List.getElem?_eq_getElem hlen⟩
  have htopAt (i : Nat) (hi : i < k) : ∃ top, (topValues log1)[i]? = some top :=
    ⟨_, List.getElem?_eq_getElem (by omega)⟩
  -- the run passed both pointers
  obtain ⟨fields, hparse, hmap⟩ := bind_eq_ok.mp hrun
  have hdataSmall : cd.classDataOff < 2 ^ 31 := by
    rw [parseClassFieldOrder, if_neg hdataOff] at hparse
    obtain ⟨_, hptr, _⟩ := bind_eq_ok.mp hparse
    obtain ⟨_, hcheck, _⟩ := bind_eq_ok.mp hptr
    exact (slicerCheck_eq_ok.mp hcheck).1
  obtain ⟨⟨ids, instanceIds⟩, hparse', hlength, hids⟩ :=
    parseClassFieldOrder_eq hl.reader hdataOff hdataSmall hdata
  obtain rfl := Except.ok.inj (hparse.symm.trans hparse')
  have hlen : ids.length = sf.length := hlength
  have hmin : min size ids.length = k := by rw [hlen, Nat.min_comm, hleast]
  have hkIds : k ≤ ids.length := hmin ▸ Nat.min_le_right size ids.length
  have hids' : ids ≠ [] := List.ne_nil_of_length_pos (Nat.lt_of_lt_of_le hk hkIds)
  have hvaluesSmall : cd.staticValuesOff < 2 ^ 31 := by
    rw [decodeStaticInitMap, if_neg (not_or.mpr ⟨hoff, hids'⟩)] at hmap
    obtain ⟨_, hptr, _⟩ := bind_eq_ok.mp hmap
    obtain ⟨_, hcheck, _⟩ := bind_eq_ok.mp hptr
    exact (slicerCheck_eq_ok.mp hcheck).1
  rw [decodeStaticInitMap_loop hl.reader hoff hvaluesSmall hids' hcut.header, hmin] at hmap
  -- so the values lie in the window
  have hp1 : p1 ≤ windowEnd item.reader (v.offsetToPtr cd.staticValuesOff) := by
    have hfive := hcut.header.le_five
    have hlen := hcut.header.le_length
    exact le_windowEnd_of_counts (by omega) (hl.reader.image ▸ hlen)
  have hstops (top : ValueVisit) (hmem : top ∈ topValues log1) :
      top.stop ≤ windowEnd item.reader (v.offsetToPtr cd.staticValuesOff) := by
    obtain ⟨i, hi⟩ := List.getElem?_of_mem hmem
    obtain ⟨hlt, _⟩ := List.getElem?_eq_some_iff.mp hi
    obtain ⟨field, hfield⟩ := hfieldAt i (by omega)
    have hspan := List.mem_of_getElem? (hall i top field hi hfield).1
    exact decodeStaticValues_forward hp1 hmap _ hspan
  have hwindow := hlastStop ▸ hstops last hlastMem
  obtain ⟨hreturns, hresult⟩ := @decodeStaticValues_spec _ _ _ _ texts ids _ _ _ _ hl hintra
      hcut.first hwindow hkIds
  have hhandles := hreturns.mp ⟨s, hmap⟩
  obtain ⟨_, _, hpaired⟩ := hresult s hmap
  have hentry (i : Nat) (field : Nat) (hi : i < k) (hfield : (sf.map Prod.fst)[i]? = some field) :
      ∃ value, s.initMap.lookup field = some ⟨i, value⟩ := by
    obtain ⟨top, htop⟩ := htopAt i hi
    exact (hall i top field htop hfield).2
  refine ⟨hdataSmall, hvaluesSmall, (hids k (hlen ▸ hkIds)).mp ?_, ?_, ?_, ?_⟩
  · refine List.ext_getElem? fun i => ?_
    by_cases hi : i < k
    · obtain ⟨field, hfield⟩ := hfieldAt i hi
      obtain ⟨value, hvalue⟩ := hentry i field hi hfield
      rw [List.getElem?_take_of_lt hi, List.getElem?_take_of_lt hi, hfield]
      exact (hpaired.own field _ (mem_of_lookup hvalue)).1
    · rw [List.getElem?_eq_none (by rw [List.length_take]; omega),
        List.getElem?_eq_none (by rw [List.length_take]; omega)]
  · refine List.nodup_iff_getElem?_ne_getElem?.mpr fun i j hij hj hsame => ?_
    rw [List.length_take] at hj
    obtain ⟨field, hfield⟩ := hfieldAt j (by omega)
    rw [List.getElem?_take_of_lt (by omega), List.getElem?_take_of_lt (by omega), hfield] at hsame
    obtain ⟨_, hvalue⟩ := hentry i field (by omega) hsame
    obtain ⟨_, hvalue'⟩ := hentry j field (by omega) hfield
    rw [hvalue] at hvalue'
    have hindex := (InitValue.mk.inj (Option.some.inj hvalue')).1
    omega
  · intro top hmem
    exact (le_windowEnd.mp (hstops top (hcut.tops ▸ hmem))).1
  · intro top hmem visit hvisit hstart htype
    have hle := hcut.first.topValues.2.1 top (hcut.tops ▸ hmem)
    have hvisit1 := (hcut.mem visit).mpr ⟨hvisit, by omega⟩
    obtain ⟨h, hresolve⟩ := hhandles visit hvisit1 htype
    refine ⟨h, hresolve, fun hdepth hnone => ?_⟩
    have htop : visit ∈ topValues log1 :=
      List.mem_filter.mpr ⟨hvisit1, beq_iff_eq.mpr hdepth⟩
    obtain ⟨i, hi⟩ := List.getElem?_of_mem htop
    obtain ⟨hlt, _⟩ := List.getElem?_eq_some_iff.mp hi
    obtain ⟨field, hfield⟩ := hfieldAt i (by omega)
    obtain ⟨value, hvalue⟩ := hentry i field (by omega) hfield
    obtain ⟨_, visit', hvisit', hfound⟩ := hpaired.own field _ (mem_of_lookup hvalue)
    obtain rfl := Option.some.inj (hi.symm.trans hvisit')
    exact hfound ⟨htype, hnone ▸ hresolve⟩

end Cut

/-- The static initializers of a verified class are decoded in lockstep with the
verifier exactly when nothing of them is cut, repeated or leads nowhere. -/
theorem static_init_lockstep_iff (texts : FloatTexts)
    (haccepted : Accepted image headerOff checkInsns st v methodHandleCount deviations)
    (hload : loadDexItem image headerOff = .ok item) (hdataOff : cd.classDataOff ≠ 0)
    (hdata : ClassData v.image (v.offsetToPtr cd.classDataOff) sf inf dm vm)
    (hoff : cd.staticValuesOff ≠ 0)
    (harray : v.verifyEncodedArrayAt methodHandleCount cd.staticValuesOff = .ok (q, log)) :
    DecodesInLockstep texts item cd sf log ↔
      (0 < min sf.length (topValues log).length →
        StaticInitFits v item cd sf log (min sf.length (topValues log).length)) := by
  have hl := loaded_of_loadDexItem haccepted hload
  have hintra := haccepted.intraOk
  have hgrammar := @Verifier.wp_verifyEncodedArrayAt v methodHandleCount cd.staticValuesOff
  rw [harray] at hgrammar
  obtain ⟨log1, size, p1, r, hcut⟩ := @valuesCut_exists _ _ _ _ _ sf.length hgrammar
  constructor
  · exact fits_of_lockstep hl hintra hcut hdataOff hdata hoff
  · exact lockstep_of_fits hl hintra hcut hdataOff hdata hoff

/-- Prints every float as one. -/
def oneTexts : FloatTexts where
  float _ := ⟨ascii "1f", by simp [ascii]⟩
  double _ := ⟨ascii "1", by simp [ascii]⟩

/-- A class that lists its one field twice as a static field, with two values. -/
def repeatedDex : Memory := [
  100, 101, 120, 10, 48, 51, 53, 0, 0, 0, 0, 0, 0, 0, 0, 0, 0, 0, 0, 0, 0, 0, 0, 0,
  0, 0, 0, 0, 0, 0, 0, 0, 16, 1, 0, 0, 112, 0, 0, 0, 120, 86, 52, 18, 0, 0, 0, 0,
  0, 0, 0, 0, 196, 0, 0, 0, 3, 0, 0, 0, 112, 0, 0, 0, 2, 0, 0, 0, 124, 0, 0, 0,
  0, 0, 0, 0, 0, 0, 0, 0, 1, 0, 0, 0, 132, 0, 0, 0, 0, 0, 0, 0, 0, 0, 0, 0,
  1, 0, 0, 0, 140, 0, 0, 0, 0, 0, 0, 0, 0, 0, 0, 0, 185, 0, 0, 0, 188, 0, 0, 0,
  193, 0, 0, 0, 0, 0, 0, 0, 1, 0, 0, 0, 1, 0, 0, 0, 2, 0, 0, 0, 1, 0, 0, 0,
  1, 0, 0, 0, 255, 255, 255, 255, 0, 0, 0, 0, 255, 255, 255, 255, 0, 0, 0, 0, 172, 0, 0, 0,
  180, 0, 0, 0, 2, 0, 0, 0, 0, 9, 0, 9, 2, 4, 1, 4, 2, 1, 73, 0, 3, 76, 65, 59,
  0, 1, 97, 0, 6, 0, 0, 0, 0, 0, 0, 0, 1, 0, 0, 0, 0, 0, 0, 0, 1, 0, 0, 0,
  3, 0, 0, 0, 112, 0, 0, 0, 2, 0, 0, 0, 2, 0, 0, 0, 124, 0, 0, 0, 4, 0, 0, 0,
  1, 0, 0, 0, 132, 0, 0, 0, 6, 0, 0, 0, 1, 0, 0, 0, 140, 0, 0, 0, 0, 16, 0, 0,
  1, 0, 0, 0, 196, 0, 0, 0]

/-- The runs over `repeatedDex`: the second value starts at 183, and the map
holds the first. -/
theorem repeatedDex_runs : (verifyDex repeatedDex true 0 {}).1.ok = true ∧
    (∀ p ∈ [172, 173, 174, 175, 176, 177, 178, 179], p < repeatedDex.length ∧
      byteAt repeatedDex p &&& 0x80 = 0 ∧
        ulebValue repeatedDex p 1 % 2 ^ 32 = byteAt repeatedDex p) ∧
    (do
      let v ← openVerifier repeatedDex 0 true
      let m ← (v.checkMap (VerifyImageState.seed {} repeatedDex.length)).1
      let item ← loadDexItem repeatedDex 0
      let cd ← item.reader.classDef 0
      let array ← v.verifyEncodedArrayAt 0 180
      let s ← staticInit oneTexts item cd
      pure (m, (cd.classDataOff, cd.staticValuesOff, v.offsetToPtr 172), array,
        (s.initMap.lookup 0).map InitValue.index)) =
      .ok (0, (172, 180, 172), (185, [⟨0, 181, 183, 0x04, 0⟩, ⟨0, 183, 185, 0x04, 0⟩]),
        some 0) := by
  refine ⟨?_, ?_, ?_⟩ <;> decide +kernel

/-- The class_data of `repeatedDex`. -/
theorem repeatedDex_classData {v : Verifier} (himage : v.image = repeatedDex) {p : Nat}
    (hp : p = 172) : ClassData v.image p [(0, 9), (0, 9)] [] [] [] := by
  subst hp
  rw [himage]
  have huleb (p : Nat) (hp : p < repeatedDex.length) (hsmall : byteAt repeatedDex p &&& 0x80 = 0)
      (hvalue : ulebValue repeatedDex p 1 % 2 ^ 32 = byteAt repeatedDex p) :
      UlebAt repeatedDex p (byteAt repeatedDex p) (p + 1) :=
    ⟨1, ⟨Nat.one_pos, by omega, hsmall⟩, by decide, hvalue.symm, rfl, hp⟩
  have h (p : Nat) (hin : p ∈ [172, 173, 174, 175, 176, 177, 178, 179]) :
      UlebAt repeatedDex p (byteAt repeatedDex p) (p + 1) := by
    obtain ⟨hlt, hsmall, hvalue⟩ := repeatedDex_runs.2.1 p hin
    exact huleb p hlt hsmall hvalue
  exact ⟨173, 174, 175, 176, 180, 180, 180, 180, 0, 0, 0, 0, h 172 (by decide), h 173 (by decide),
    h 174 (by decide), h 175 (by decide),
    .field rfl (.field rfl .nil (h 176 (by decide)) (h 177 (by decide))) (h 178 (by decide))
      (h 179 (by decide)), .nil, .nil, .nil⟩

theorem repeatedDex_run : ∃ v item cd s, openVerifier repeatedDex 0 true = .ok v ∧
    (v.checkMap (VerifyImageState.seed {} repeatedDex.length)).1 = .ok 0 ∧
    loadDexItem repeatedDex 0 = .ok item ∧ item.reader.classDef 0 = .ok cd ∧
    cd.classDataOff = 172 ∧ cd.staticValuesOff = 180 ∧ v.offsetToPtr 172 = 172 ∧
    v.verifyEncodedArrayAt 0 180 = .ok (185, [⟨0, 181, 183, 0x04, 0⟩, ⟨0, 183, 185, 0x04, 0⟩]) ∧
    staticInit oneTexts item cd = .ok s ∧
    (s.initMap.lookup 0).map InitValue.index = some 0 := by
  obtain ⟨-, -, hrun⟩ := repeatedDex_runs
  obtain ⟨v, hopen, hrun⟩ := bind_eq_ok.mp hrun
  obtain ⟨m, hmap, hrun⟩ := bind_eq_ok.mp hrun
  obtain ⟨item, hload, hrun⟩ := bind_eq_ok.mp hrun
  obtain ⟨cd, hclass, hrun⟩ := bind_eq_ok.mp hrun
  obtain ⟨array, harray, hrun⟩ := bind_eq_ok.mp hrun
  obtain ⟨s, hinit, hrun⟩ := bind_eq_ok.mp hrun
  obtain ⟨rfl, hoffs, rfl, hlookup⟩ : m = 0 ∧ (cd.classDataOff, cd.staticValuesOff,
      v.offsetToPtr 172) = (172, 180, 172) ∧ array = _ ∧ _ = some 0 := by
    simpa only [pure_eq_ok, Except.ok.injEq, Prod.mk.injEq] using hrun
  obtain ⟨hdata, hoff, hptr⟩ : cd.classDataOff = 172 ∧ cd.staticValuesOff = 180 ∧
      v.offsetToPtr 172 = 172 := by simpa only [Prod.mk.injEq] using hoffs
  exact ⟨v, item, cd, s, hopen, hmap, hload, hclass, hdata, hoff, hptr, harray, hinit, hlookup⟩

theorem static_init_lockstep_iff_repeatedDex : ∃ v item cd sf q log,
    openVerifier repeatedDex 0 true = .ok v ∧ loadDexItem repeatedDex 0 = .ok item ∧
    item.reader.classDef 0 = .ok cd ∧
    ClassData v.image (v.offsetToPtr cd.classDataOff) sf [] [] [] ∧
    v.verifyEncodedArrayAt 0 cd.staticValuesOff = .ok (q, log) ∧
    (DecodesInLockstep oneTexts item cd sf log ↔
      (0 < min sf.length (topValues log).length →
        StaticInitFits v item cd sf log (min sf.length (topValues log).length))) := by
  obtain ⟨v, item, cd, s, hopen, hmap, hload, hclass, hdata, hoff, hptr, harray, _, _⟩ :=
    repeatedDex_run
  obtain ⟨v', m, deviations, haccepted⟩ := accepted_of_verifyDex repeatedDex_runs.1
  obtain rfl := Except.ok.inj (haccepted.opened.symm.trans hopen)
  obtain rfl := Except.ok.inj (haccepted.map.symm.trans hmap)
  have hlayout := repeatedDex_classData haccepted.openSpec.2.1
    (show v'.offsetToPtr cd.classDataOff = 172 by rw [hdata, hptr])
  exact ⟨v', item, cd, _, _, _, hopen, hload, hclass, hlayout, hoff.symm ▸ harray,
    static_init_lockstep_iff oneTexts haccepted hload (by omega) hlayout (by omega)
      (hoff.symm ▸ harray)⟩

/-- The second value is decoded and dropped: its field has the first one. -/
theorem repeatedDex_not_lockstep : (verifyDex repeatedDex true 0 {}).1.ok = true ∧
    ∃ v item cd q log, openVerifier repeatedDex 0 true = .ok v ∧
      loadDexItem repeatedDex 0 = .ok item ∧ item.reader.classDef 0 = .ok cd ∧
      ClassData v.image (v.offsetToPtr cd.classDataOff) [(0, 9), (0, 9)] [] [] [] ∧
      v.verifyEncodedArrayAt 0 cd.staticValuesOff = .ok (q, log) ∧
      ¬DecodesInLockstep oneTexts item cd [(0, 9), (0, 9)] log := by
  refine ⟨repeatedDex_runs.1, ?_⟩
  obtain ⟨v, item, cd, s, hopen, _, hload, hclass, hdata, hoff, hptr, harray, hinit, hlookup⟩ :=
    repeatedDex_run
  obtain ⟨v', _, _, haccepted⟩ := accepted_of_verifyDex repeatedDex_runs.1
  obtain rfl := Except.ok.inj (haccepted.opened.symm.trans hopen)
  have himage := haccepted.openSpec.2.1
  refine ⟨v', item, cd, _, _, hopen, hload, hclass,
    repeatedDex_classData himage (by rw [hdata, hptr]), hoff.symm ▸ harray, fun hlockstep => ?_⟩
  obtain ⟨s', hinit', _, value, hvalue⟩ := hlockstep 1 ⟨0, 183, 185, 0x04, 0⟩ (0, 9) rfl rfl
  obtain rfl := Except.ok.inj (hinit.symm.trans hinit')
  rw [hvalue] at hlookup
  exact absurd (Option.some.inj hlookup) Nat.one_ne_zero

end Main

end Dexllm
