import Dexllm.Verifier.Inter

/-!
`CheckInterSection` on a dex that `CheckIntraSection` accepted: it stays inside
the image, and `InterOk` is what it leaves behind.
-/

namespace Dexllm

open Guarded Bytes Leb128 Mutf8

/-- A transitive relation that holds of neighbours holds of every pair. -/
theorem strict_of_adjacent {r : Nat → Nat → Prop} (htrans : ∀ a b c, r a b → r b c → r a c)
    {n : Nat} (hadj : ∀ i, i + 1 < n → r i (i + 1)) :
    ∀ i j, i < j → j < n → r i j := by
  intro i j hij hj
  induction j with
  | zero => omega
  | succ j ih =>
    rcases Nat.lt_succ_iff_lt_or_eq.mp hij with hlt | rfl
    · exact htrans _ _ _ (ih hlt (by omega)) (hadj j hj)
    · exact hadj i hj

/-- Entries `k` to `k + n` of the type list whose first entry is at `p`. -/
def typeEntries (mem : Memory) (p : Nat) : (k n : Nat) → List Nat
  | _, 0 => []
  | k, n + 1 => u2At mem (p + k * 2) :: typeEntries mem p (k + 1) n

/-- The type list at address `p`. -/
def typeListAt (mem : Memory) (p : Nat) : List Nat := typeEntries mem (p + 4) 0 (u4At mem p)

/-- The lexicographic order of index triples. -/
def TripleLess (a b : Nat × Nat × Nat) : Prop :=
  a.1 < b.1 ∨ (a.1 = b.1 ∧ (a.2.1 < b.2.1 ∨ (a.2.1 = b.2.1 ∧ a.2.2 < b.2.2)))

theorem TripleLess.trans {a b c : Nat × Nat × Nat} (hab : TripleLess a b)
    (hbc : TripleLess b c) : TripleLess a c := by
  unfold TripleLess at *
  omega

theorem wp_checkTripleOrder (reason : String) (prev cur : Nat × Nat × Nat) :
    wp (checkTripleOrder reason prev cur) fun _ => TripleLess prev cur := by
  simp only [checkTripleOrder, wp_bind, wp_failIf, wp_ite, wp_pure, TripleLess]
  intro h1
  refine ⟨fun h => .inl h, fun h2 h3 => ⟨fun h => .inr ⟨by omega, .inl h⟩, fun h4 h5 => ?_⟩⟩
  exact .inr ⟨by omega, .inr ⟨by omega, by omega⟩⟩

namespace Verifier

variable {v : Verifier} {methodHandleCount : Nat}

theorem IntraOk.stringAt (h : v.IntraOk methodHandleCount) {i : Nat}
    (hi : i < v.header.stringIdsSize) : ∃ us, v.StringAt i us := by
  obtain ⟨us, _, utf16Len, q, huleb, hspell⟩ := h.string i hi
  refine ⟨us, v.image.drop q, ?_, hspell⟩
  simp only [stringContent, stringDataOff_eq h.tables hi, bind_ok, skipUleb_drop huleb]

theorem IntraOk.typeAt (h : v.IntraOk methodHandleCount) {i : Nat} {us : List Nat}
    (hi : i < v.header.typeIdsSize) (hus : v.StringAt (v.descriptorIdxAt i) us) :
    v.TypeAt i us := by
  obtain ⟨s, hs, hspell⟩ := hus
  refine ⟨s, ?_, hspell⟩
  simp only [typeDesc, descriptorIdx_eq h.tables hi, bind_ok, hs]

theorem StringAt.unique {i : Nat} {us vs : List Nat} (hus : v.StringAt i us)
    (hvs : v.StringAt i vs) : us = vs := by
  obtain ⟨s, hs, bs, r, hbs, rfl⟩ := hus
  obtain ⟨t, ht, cs, r', hcs, rfl⟩ := hvs
  have heq : bs ++ 0 :: r = cs ++ 0 :: r' := Except.ok.inj (hs.symm.trans ht)
  have hbytes : bs = cs := by
    have htake := congrArg (List.takeWhile (· ≠ 0)) heq
    rwa [takeWhile_terminated hbs.ne_zero, takeWhile_terminated hcs.ne_zero] at htake
  subst hbytes
  exact spelling_units_unique hbs hcs

/-- String `idx` is used as a type descriptor, a shorty or a member name. -/
inductive IsIdentifier (v : Verifier) (idx : Nat) : Prop where
  | type (i : Nat) (hi : i < v.header.typeIdsSize) (h : v.descriptorIdxAt i = idx)
  | shorty (i : Nat) (hi : i < v.header.protoIdsSize)
      (h : (protoIdAt v.image (v.protoIdAddr i)).shortyIdx = idx)
  | field (i : Nat) (hi : i < v.header.fieldIdsSize)
      (h : (fieldIdAt v.image (v.fieldIdAddr i)).nameIdx = idx)
  | method (i : Nat) (hi : i < v.header.methodIdsSize)
      (h : (methodIdAt v.image (v.methodIdAddr i)).nameIdx = idx)

theorem IntraOk.identifier_lt (h : v.IntraOk methodHandleCount) {idx : Nat}
    (hident : v.IsIdentifier idx) : idx < v.header.stringIdsSize := by
  cases hident with
  | type i hi heq => exact heq ▸ h.type i hi
  | shorty i hi heq => exact heq ▸ (h.proto i hi).shorty
  | field i hi heq => exact heq ▸ (h.field i hi).name
  | method i hi heq => exact heq ▸ (h.method i hi).name

/-- A loop that marks one identifier in each round marks all of them. -/
private theorem wp_markLoop {n count : Nat} {ident : List Nat} {f : Nat → List Nat → Run (List Nat)}
    (index : Nat → Nat) (hlt : ∀ i, i < count → index i < n)
    (hf : ∀ i ident, i < count → f i ident = markIdentifier n (index i) ident) :
    wp (loop count ident f) fun ident' =>
      (∀ x ∈ ident, x ∈ ident') ∧ ∀ i, i < count → index i ∈ ident' := by
  refine wp_loop (fun j ident' => (∀ x ∈ ident, x ∈ ident') ∧ ∀ i, i < j → index i ∈ ident')
    ⟨fun x hx => hx, by intro i hi; omega⟩ ?_
  rintro j ident' hj ⟨hold, hnew⟩
  rw [hf j ident' hj, markIdentifier, if_pos (hlt j hj), wp_except_ok]
  refine ⟨fun x hx => List.mem_cons_of_mem _ (hold x hx), fun i hi => ?_⟩
  rcases Nat.lt_succ_iff_lt_or_eq.mp hi with hlt | rfl
  · exact List.mem_cons_of_mem _ (hnew i hlt)
  · exact List.mem_cons_self

/-- The identifier loops of `AcceptUnsortedValueStrings` mark every
identifier. -/
theorem wp_identifierStrings (h : v.IntraOk methodHandleCount) :
    wp v.identifierStrings fun ident => ∀ idx, v.IsIdentifier idx → idx ∈ ident := by
  simp only [identifierStrings, wp_bind]
  refine wp_mono (wp_markLoop v.descriptorIdxAt h.type fun i ident hi => ?_)
    fun ident1 h1 => ?_
  · rw [descriptorIdx_eq h.tables hi, bind_ok]
  refine wp_mono (wp_markLoop (fun i => (protoIdAt v.image (v.protoIdAddr i)).shortyIdx)
    (fun i hi => (h.proto i hi).shorty) fun i ident hi => ?_) fun ident2 h2 => ?_
  · rw [readProtoId_eq h.tables hi, bind_ok]
  refine wp_mono (wp_markLoop (fun i => (fieldIdAt v.image (v.fieldIdAddr i)).nameIdx)
    (fun i hi => (h.field i hi).name) fun i ident hi => ?_) fun ident3 h3 => ?_
  · rw [readFieldId_eq h.tables hi, bind_ok]
  refine wp_mono (wp_markLoop (fun i => (methodIdAt v.image (v.methodIdAddr i)).nameIdx)
    (fun i hi => (h.method i hi).name) fun i ident hi => ?_) fun ident4 h4 idx hident => ?_
  · rw [readMethodId_eq h.tables hi, bind_ok]
  cases hident with
  | type i hi heq => exact heq ▸ h4.1 _ (h3.1 _ (h2.1 _ (h1.2 i hi)))
  | shorty i hi heq => exact heq ▸ h4.1 _ (h3.1 _ (h2.2 i hi))
  | field i hi heq => exact heq ▸ h4.1 _ (h3.2 i hi)
  | method i hi heq => exact heq ▸ h4.2 i hi

section StringOrder

variable {units : Nat → List Nat}
  (hunits : ∀ i, i < v.header.stringIdsSize → v.StringAt i (units i))

include hunits

theorem compareStrings_eq {i j : Nat} (hi : i < v.header.stringIdsSize)
    (hj : j < v.header.stringIdsSize) :
    ∃ n, v.compareStrings i j = .ok n ∧ (n < 0 ↔ units i < units j) := by
  obtain ⟨s, hs, hspell⟩ := hunits i hi
  obtain ⟨t, ht, hspell'⟩ := hunits j hj
  obtain ⟨n, hn, hiff, _⟩ := compare_spelled hspell hspell'
  exact ⟨n, by simp only [compareStrings, hs, ht, bind_ok, hn], hiff⟩

/-- With no pair out of order the whole table is strictly increasing. -/
theorem wp_countOutOfOrder :
    wp v.countOutOfOrder fun outOfOrder =>
      (outOfOrder = 0 → ∀ i, i + 1 < v.header.stringIdsSize → units i < units (i + 1)) ∧
        (v.checkInsns = true → outOfOrder = 0) := by
  refine wp_mono (wp_loop (fun j outOfOrder =>
    (outOfOrder = 0 → ∀ i, i < j → units i < units (i + 1)) ∧
      (v.checkInsns = true → outOfOrder = 0)) ⟨by intro _ i hi; omega, fun _ => rfl⟩ ?_) ?_
  · rintro j outOfOrder hj ⟨hsorted, hstrict⟩
    obtain ⟨n, hn, hiff⟩ := compareStrings_eq hunits (show j < v.header.stringIdsSize by omega)
      (show j + 1 < v.header.stringIdsSize by omega)
    simp only [hn, bind_ok, wp_ite, wp_bind, wp_failIf, wp_pure]
    refine ⟨fun _ hlenient => ⟨by omega, fun h => absurd h hlenient⟩, fun horder => ?_⟩
    refine ⟨fun hzero i hi => ?_, hstrict⟩
    rcases Nat.lt_succ_iff_lt_or_eq.mp hi with hlt | rfl
    · exact hsorted hzero i hlt
    · exact hiff.mp (by omega)
  · rintro outOfOrder ⟨hsorted, hstrict⟩
    exact ⟨fun hzero i hi => hsorted hzero i (by omega), hstrict⟩

/-- The marked strings before string `i` are ordered, and `prev` is the last of
them. -/
def AcceptedBefore (ident : List Nat) (units : Nat → List Nat) (i : Nat)
    (prev : Option Nat) : Prop :=
  (∀ a b, a ∈ ident → b ∈ ident → a < b → b < i → units a < units b) ∧
    (∀ a, a ∈ ident → a < i → ∃ j, prev = some j ∧ a ≤ j) ∧
    ∀ j, prev = some j → j ∈ ident ∧ j < i

theorem wp_acceptStringsFrom {ident : List Nat} (rounds i : Nat) (prev : Option Nat)
    (hrounds : i + rounds = v.header.stringIdsSize)
    (hinv : AcceptedBefore ident units i prev) :
    wp (v.acceptStringsFrom ident rounds i prev) fun ok => ok = true →
      ∀ a b, a ∈ ident → b ∈ ident → a < b → b < v.header.stringIdsSize →
        units a < units b := by
  induction rounds generalizing i prev with
  | zero =>
    obtain rfl : i = v.header.stringIdsSize := by omega
    exact fun _ => hinv.1
  | succ rounds ih =>
    have hi : i < v.header.stringIdsSize := by omega
    have hempty : ∃ b, v.emptyStringAfterFirst i = .ok b := by
      unfold emptyStringAfterFirst
      split
      · obtain ⟨s, hs, bs, r, hbs, rfl⟩ := hunits i hi
        cases bs with
        | nil => exact ⟨_, by simp only [hs, bind_ok, List.nil_append, deref]; rfl⟩
        | cons b bs => exact ⟨_, by simp only [hs, bind_ok, List.cons_append, deref]; rfl⟩
      · exact ⟨false, rfl⟩
    obtain ⟨empty, hempty⟩ := hempty
    obtain ⟨hordered, hlast, hprev⟩ := hinv
    simp only [acceptStringsFrom, hempty, bind_ok, wp_ite, wp_pure]
    refine ⟨fun _ => by simp, fun _ => ⟨fun hvalue => ?_, fun hmarked => ?_⟩⟩
    · -- a value string: the marked strings before `i + 1` are those before `i`
      have hsame : ∀ a, a ∈ ident → a < i + 1 → a < i := by
        intro a ha hlt
        rcases Nat.lt_succ_iff_lt_or_eq.mp hlt with h | rfl
        · exact h
        · exact absurd ha hvalue
      refine ih (i + 1) prev (by omega) ⟨?_, ?_, ?_⟩
      · exact fun a b ha hb hab hlt => hordered a b ha hb hab (hsame b hb hlt)
      · exact fun a ha hlt => hlast a ha (hsame a ha hlt)
      · intro j hj
        have hj' := hprev j hj
        exact ⟨hj'.1, by omega⟩
    · have hident : i ∈ ident := by simpa using hmarked
      have hnext (hbefore : ∀ a, a ∈ ident → a < i → units a < units i) :
          AcceptedBefore ident units (i + 1) (some i) := by
        refine ⟨fun a b ha hb hab hlt => ?_, fun a ha hlt => ⟨i, rfl, by omega⟩, ?_⟩
        · rcases Nat.lt_succ_iff_lt_or_eq.mp hlt with h | rfl
          · exact hordered a b ha hb hab h
          · exact hbefore a ha hab
        · intro j hj
          obtain rfl := Option.some.inj hj
          exact ⟨hident, by omega⟩
      cases prev with
      | none =>
        refine ih (i + 1) _ (by omega) (hnext fun a ha hlt => ?_)
        obtain ⟨j, hj, _⟩ := hlast a ha hlt
        cases hj
      | some j =>
        obtain ⟨hjident, hji⟩ := hprev j rfl
        obtain ⟨n, hn, hiff⟩ := compareStrings_eq hunits (show j < v.header.stringIdsSize by omega) hi
        simp only [hn, bind_ok, wp_ite, wp_pure]
        refine ⟨fun _ => by simp, fun horder => ?_⟩
        have hjlt : units j < units i := hiff.mp (by omega)
        refine ih (i + 1) _ (by omega) (hnext fun a ha hlt => ?_)
        obtain ⟨k, hk, hle⟩ := hlast a ha hlt
        obtain rfl := Option.some.inj hk
        rcases Nat.lt_or_eq_of_le hle with hlt | rfl
        · exact lt_trans (hordered a j ha hjident hlt hji) hjlt
        · exact hjlt

/-- Either pass leaves the identifier strings strictly ordered by content. -/
theorem wp_checkInterStringIds (h : v.IntraOk methodHandleCount) :
    wp v.checkInterStringIds fun deviations =>
      (∀ a b, v.IsIdentifier a → v.IsIdentifier b → a < b → units a < units b) ∧
        (v.checkInsns = true → deviations = []) := by
  simp only [checkInterStringIds, wp_bind]
  refine wp_mono (wp_countOutOfOrder hunits) fun outOfOrder hcount => ?_
  rw [wp_ite]
  constructor
  · intro hunsorted
    simp only [acceptUnsortedValueStrings, wp_bind, wp_failIf, wp_pure]
    refine wp_mono (wp_identifierStrings h) fun ident hident => ?_
    have hstart : AcceptedBefore ident units 0 none :=
      ⟨by intro a b _ _ _ hb; omega, by intro a _ ha; omega, by intro j hj; cases hj⟩
    refine wp_mono (wp_acceptStringsFrom hunits _ 0 none (Nat.zero_add _) hstart)
      fun ok hok haccepted => ?_
    refine ⟨fun a b ha hb hab => ?_, fun hstrict => absurd (hcount.2 hstrict) hunsorted⟩
    exact hok (by simpa using haccepted) a b (hident a ha) (hident b hb) hab (h.identifier_lt hb)
  · intro hsorted
    refine ⟨fun a b ha hb hab => ?_, fun _ => rfl⟩
    exact strict_of_adjacent (r := fun a b => units a < units b) (fun _ _ _ => lt_trans)
      (hcount.1 (by simpa using hsorted)) a b hab (h.identifier_lt hb)

end StringOrder

theorem IntraOk.typeAt_exists (h : v.IntraOk methodHandleCount) {i : Nat}
    (hi : i < v.header.typeIdsSize) : ∃ us, v.TypeAt i us := by
  obtain ⟨us, hus⟩ := h.stringAt (h.type i hi)
  exact ⟨us, h.typeAt hi hus⟩

/-- Type `i` has a valid descriptor whose first byte satisfies `pred`. -/
def ValidType (v : Verifier) (i : Nat) (pred : Nat → Bool) : Prop :=
  ∃ c t, v.typeDesc i = .ok (c :: t) ∧ isValidDescriptor (c :: t) = .ok true ∧
    pred c.toNat = true

theorem wp_validType (h : v.IntraOk methodHandleCount) {i : Nat} {err : String}
    {pred : Nat → Bool} (hi : i < v.header.typeIdsSize) :
    wp (v.verifyTypeDescriptor i err pred) fun _ => v.ValidType i pred := by
  obtain ⟨us, hus⟩ := h.typeAt_exists hi
  exact wp_verifyTypeDescriptor hus

/-- String `i` is a valid member name. -/
def ValidName (v : Verifier) (i : Nat) : Prop :=
  ∃ s, v.stringContent i = .ok s ∧ isValidMemberName s = .ok true

theorem wp_validName (h : v.IntraOk methodHandleCount) {i : Nat} {reason : String}
    (hi : i < v.header.stringIdsSize) {rest : Run Unit} {post : Unit → Prop}
    (hrest : v.ValidName i → wp rest post) :
    wp (do
      let name ← v.stringContent i
      let valid ← isValidMemberName name
      failIf (valid = false) reason
      rest) post := by
  obtain ⟨us, s, hs, bs, r, hbs, rfl⟩ := h.stringAt hi
  have hname := wp_isValidMemberName hbs r
  simp only [hs, bind_ok, wp_bind, wp_failIf]
  cases hvalid : isValidMemberName (bs ++ 0 :: r) with
  | error e =>
    rw [hvalid] at hname
    exact wp_error hname
  | ok valid =>
    rw [wp_except_ok]
    intro hnot
    exact hrest ⟨_, hs, by simpa [hvalid] using hnot⟩

theorem wp_checkInterTypeId (h : v.IntraOk methodHandleCount) {i : Nat}
    (hi : i < v.header.typeIdsSize) :
    wp (v.checkInterTypeId i) fun _ => (v.ValidType i fun _ => true) ∧
      (i ≠ 0 → v.descriptorIdxAt (i - 1) < v.descriptorIdxAt i) := by
  simp only [checkInterTypeId, wp_bind, wp_onlyIf]
  refine wp_mono (wp_validType h hi) fun _ hvalid => ?_
  refine ⟨fun _ => ?_, fun hzero => ⟨hvalid, fun hne => absurd hne hzero⟩⟩
  simp only [descriptorIdx_eq h.tables (show i - 1 < v.header.typeIdsSize by omega),
    descriptorIdx_eq h.tables hi, wp_except_ok, wp_failIf]
  exact fun hlt => ⟨hvalid, fun _ => by omega⟩

/-- The parameter types of a proto_id. -/
def paramTypes (v : Verifier) (pr : ProtoId) : List Nat :=
  if pr.parametersOff = 0 then [] else typeListAt v.image (v.offsetToPtr pr.parametersOff)

/-- The order of proto_ids: by return type, then by parameter types. -/
def ProtoLess (v : Verifier) (p q : ProtoId) : Prop :=
  p.returnTypeIdx < q.returnTypeIdx ∨
    (p.returnTypeIdx = q.returnTypeIdx ∧ v.paramTypes p < v.paramTypes q)

theorem ProtoLess.trans {p q r : ProtoId} (hpq : v.ProtoLess p q) (hqr : v.ProtoLess q r) :
    v.ProtoLess p r := by
  rcases hpq with hpq | ⟨hpq, hparams⟩ <;> rcases hqr with hqr | ⟨hqr, hparams'⟩
  · exact .inl (by omega)
  · exact .inl (by omega)
  · exact .inl (by omega)
  · exact .inr ⟨by omega, lt_trans hparams hparams'⟩

/-- The parameter comparison accepts only a lexicographic increase. -/
theorem wp_compareParams {pn cn pt ct : Nat} (rounds k : Nat)
    (hrounds : rounds = min (pn - k) (cn - k)) (hk : k ≤ pn) (hk' : k ≤ cn)
    (hpt : k < pn → pt + pn * 2 ≤ v.image.length)
    (hct : k < cn → ct + cn * 2 ≤ v.image.length) :
    wp (v.compareParams cn pt ct rounds k) fun _ =>
      typeEntries v.image pt k (pn - k) < typeEntries v.image ct k (cn - k) := by
  induction rounds generalizing k with
  | zero =>
    simp only [compareParams, wp_failIf]
    intro hlonger
    obtain ⟨m, hm⟩ : ∃ m, cn - k = m + 1 := ⟨cn - k - 1, by omega⟩
    rw [show pn - k = 0 by omega, hm]
    exact List.nil_lt_cons _ _
  | succ rounds ih =>
    obtain ⟨m, hm⟩ : ∃ m, pn - k = m + 1 := ⟨pn - k - 1, by omega⟩
    obtain ⟨m', hm'⟩ : ∃ m', cn - k = m' + 1 := ⟨cn - k - 1, by omega⟩
    have hp := hpt (by omega)
    have hc := hct (by omega)
    rw [hm, hm']
    simp only [compareParams, wp_bind, wp_readU2, wp_ite, wp_pure, wp_failIf, typeEntries,
      List.cons_lt_cons_iff]
    refine ⟨by omega, by omega, fun hlt => .inl hlt, fun hge hle => ?_⟩
    have hrec := ih (k + 1) (by omega) (by omega) (by omega) (fun _ => hp) fun _ => hc
    rw [show pn - (k + 1) = m by omega, show cn - (k + 1) = m' by omega] at hrec
    exact wp_mono hrec fun _ hrest => .inr ⟨by omega, hrest⟩

/-- Reading a parameter list gives its length and its first entry. -/
theorem wp_protoParams {pr : ProtoId} (hpr : v.ProtoIdOk pr) :
    wp (v.protoParams pr) fun r => v.paramTypes pr = typeEntries v.image r.2 0 r.1 ∧
      (0 < r.1 → r.2 + r.1 * 2 ≤ v.image.length) := by
  have hin := v.endOfFile_le
  unfold protoParams
  rw [wp_ite]
  refine ⟨fun hzero => by simp [paramTypes, hzero, typeEntries], fun hne => ?_⟩
  have hspan := (hpr.parameters hne).span
  simp only [wp_bind, wp_readU4, wp_pure, paramTypes, hne, if_false, typeListAt]
  exact ⟨by omega, trivial, fun _ => by omega⟩

theorem wp_checkInterProtoId (h : v.IntraOk methodHandleCount) {i : Nat}
    (hi : i + 1 < v.header.protoIdsSize) :
    wp (v.checkInterProtoId i) fun _ => v.ProtoLess (protoIdAt v.image (v.protoIdAddr i))
      (protoIdAt v.image (v.protoIdAddr (i + 1))) := by
  simp only [checkInterProtoId, readProtoId_eq h.tables (show i < v.header.protoIdsSize by omega),
    readProtoId_eq h.tables hi, bind_ok, wp_bind, wp_failIf, wp_ite, wp_pure]
  have hp := h.proto i (by omega)
  have hq := h.proto (i + 1) hi
  generalize protoIdAt v.image (v.protoIdAddr i) = p at hp ⊢
  generalize protoIdAt v.image (v.protoIdAddr (i + 1)) = q at hq ⊢
  intro hge
  refine ⟨fun hlt => .inl hlt, fun hnlt => ?_⟩
  refine wp_mono (wp_protoParams hp) fun rp hrp => ?_
  refine wp_mono (wp_protoParams hq) fun rq hrq => ?_
  refine wp_mono (@wp_compareParams _ rp.1 _ _ _ _ 0 (by simp) (by omega) (by omega) hrp.2 hrq.2)
    fun _ hless => .inr ⟨by omega, ?_⟩
  rw [hrp.1, hrq.1]
  exact hless

def fieldTriple (f : FieldId) : Nat × Nat × Nat := (f.classIdx, f.nameIdx, f.typeIdx)

def methodTriple (m : MethodId) : Nat × Nat × Nat := (m.classIdx, m.nameIdx, m.protoIdx)

theorem wp_checkInterFieldId (h : v.IntraOk methodHandleCount) {i : Nat}
    (hi : i < v.header.fieldIdsSize) :
    wp (v.checkInterFieldId i) fun _ => i ≠ 0 →
      TripleLess (fieldTriple (fieldIdAt v.image (v.fieldIdAddr (i - 1))))
        (fieldTriple (fieldIdAt v.image (v.fieldIdAddr i))) := by
  have hf := h.field i hi
  simp only [checkInterFieldId, readFieldId_eq h.tables hi, bind_ok]
  generalize fieldIdAt v.image (v.fieldIdAddr i) = f at hf ⊢
  rw [wp_bind]
  refine wp_mono (wp_validType h hf.cls) fun _ _ => ?_
  rw [wp_bind]
  refine wp_mono (wp_validType h hf.type) fun _ _ => ?_
  refine wp_validName h hf.name fun _ => ?_
  rw [wp_onlyIf]
  refine ⟨fun _ => ?_, fun hzero hne => absurd hne hzero⟩
  rw [readFieldId_eq h.tables (show i - 1 < v.header.fieldIdsSize by omega), bind_ok]
  exact wp_mono (wp_checkTripleOrder _ _ _) fun _ hless _ => hless

/-- The class and the name of a method_id are a class or array descriptor and a
valid name. -/
structure MethodIdValid (v : Verifier) (m : MethodId) : Prop where
  cls : v.ValidType m.classIdx fun d => d == 0x4c || d == 0x5b
  name : v.ValidName m.nameIdx

theorem wp_checkInterMethodId (h : v.IntraOk methodHandleCount) {i : Nat}
    (hi : i < v.header.methodIdsSize) :
    wp (v.checkInterMethodId i) fun _ =>
      v.MethodIdValid (methodIdAt v.image (v.methodIdAddr i)) ∧ (i ≠ 0 →
        TripleLess (methodTriple (methodIdAt v.image (v.methodIdAddr (i - 1))))
          (methodTriple (methodIdAt v.image (v.methodIdAddr i)))) := by
  have hm := h.method i hi
  simp only [checkInterMethodId, readMethodId_eq h.tables hi, bind_ok]
  generalize methodIdAt v.image (v.methodIdAddr i) = m at hm ⊢
  rw [wp_bind]
  refine wp_mono (wp_validType h hm.cls) fun _ hcls => ?_
  refine wp_validName h hm.name fun hname => ?_
  rw [wp_onlyIf]
  refine ⟨fun _ => ?_, fun hzero => ⟨⟨hcls, hname⟩, fun hne => absurd hne hzero⟩⟩
  rw [readMethodId_eq h.tables (show i - 1 < v.header.methodIdsSize by omega), bind_ok]
  exact wp_mono (wp_checkTripleOrder _ _ _) fun _ hless => ⟨⟨hcls, hname⟩, fun _ => hless⟩

/-- Every member of the class_data at `off` is a member of type `cls`. -/
def DefinedBy (v : Verifier) (off cls : Nat) : Prop :=
  ∃ sf inf dm vm, ClassData v.image (v.offsetToPtr off) sf inf dm vm ∧
    (∀ m ∈ sf ++ inf, m.1 < v.header.fieldIdsSize ∧
      (fieldIdAt v.image (v.fieldIdAddr m.1)).classIdx = cls) ∧
    (∀ m ∈ dm ++ vm, m.1 < v.header.methodIdsSize ∧
      (methodIdAt v.image (v.methodIdAddr m.1)).classIdx = cls)

theorem wp_checkClassDataDefiners (h : v.TablesOk) (off cls : Nat) :
    wp (v.checkClassDataDefiners off cls) fun _ => v.DefinedBy off cls := by
  refine @wp_walkClassData _ _ _ _ _
      (fun idx => (fieldIdAt v.image (v.fieldIdAddr idx)).classIdx = cls)
      (fun idx _ => (methodIdAt v.image (v.methodIdAddr idx)).classIdx = cls) ?_ ?_ _
  · intro idx hidx
    rw [readFieldId_eq h hidx, bind_ok, wp_failIf]
    exact Decidable.not_not.mp
  · intro idx _ hidx
    rw [readMethodId_eq h hidx, bind_ok, wp_failIf]
    exact Decidable.not_not.mp

/-- What `VerifyClassDefs` establishes of one class_def. -/
structure ClassDefValid (v : Verifier) (cd : ClassDef) : Prop where
  cls : v.ValidType cd.classIdx fun d => d == 0x4c
  superclass : cd.superclassIdx ≠ kNoIndex → cd.superclassIdx ≠ cd.classIdx
  classData : cd.classDataOff ≠ 0 → v.DefinedBy cd.classDataOff cd.classIdx

theorem wp_checkSuperclass (h : v.IntraOk methodHandleCount) {c cls superclass : Nat}
    {table : List (Nat × Nat)} (hsuper : superclass < v.header.typeIdsSize) :
    wp (v.checkSuperclass c cls superclass table) fun _ => superclass ≠ cls := by
  simp only [checkSuperclass, wp_bind, wp_failIf, definedAt, hsuper, if_true, wp_except_ok]
  intro hne
  exact wp_mono (wp_validType h hsuper) fun _ _ _ => hne

theorem wp_checkInterfaces (h : v.IntraOk methodHandleCount) {cls off : Nat}
    (hlist : TypeListOk v.image v.endOfFile v.header.typeIdsSize (v.offsetToPtr off)) :
    wp (v.checkInterfaces cls off) fun _ => True := by
  have hin := v.endOfFile_le
  have hspan := hlist.span
  simp only [checkInterfaces, wp_bind, wp_readU4]
  refine ⟨by omega, ?_⟩
  refine wp_mono (@wp_forUpTo _ _ (fun _ => True) fun i hi => ?_) fun _ _ => trivial
  simp only [checkInterface, wp_bind, wp_readU2, wp_failIf]
  refine ⟨by omega, fun _ => ?_⟩
  refine wp_mono (wp_validType h (hlist.index i hi)) fun _ _ => ?_
  refine wp_mono (@wp_forUpTo _ _ (fun _ => True) fun j hj => ?_) fun _ _ => trivial
  simp only [wp_bind, wp_readU2, wp_failIf]
  exact ⟨by omega, fun _ => trivial⟩

/-- The table of a `VerifyClassDefs` loop after `c` rounds: it has exactly the
class_defs before `c`, each under its own type. -/
def TableBefore (v : Verifier) (c : Nat) (table : List (Nat × Nat)) : Prop :=
  ∀ type, table.lookup type = none ↔
    ∀ d, d < c → (classDefAt v.image (v.classDefAddr d)).classIdx ≠ type

theorem wp_verifyClassDef (h : v.IntraOk methodHandleCount) {c : Nat} {table : List (Nat × Nat)}
    (hc : c < v.header.classDefsSize) (htable : v.TableBefore c table) :
    wp (v.verifyClassDef c table) fun table' => v.TableBefore (c + 1) table' ∧
      v.ClassDefValid (classDefAt v.image (v.classDefAddr c)) ∧
      ∀ d, d < c → (classDefAt v.image (v.classDefAddr d)).classIdx ≠
        (classDefAt v.image (v.classDefAddr c)).classIdx := by
  have hcd := h.classDef c hc
  unfold TableBefore at htable ⊢
  simp only [verifyClassDef, readClassDef_eq h.tables hc, bind_ok, wp_bind]
  generalize hview : classDefAt v.image (v.classDefAddr c) = cd at hcd ⊢
  refine wp_mono (wp_validType h hcd.cls) fun _ hcls => ?_
  simp only [definedAt, hcd.cls, if_true, wp_except_ok, wp_failIf, not_not]
  intro hnew
  have hdistinct := (htable cd.classIdx).mp hnew
  have hsuper : wp (onlyIf (cd.superclassIdx ≠ kNoIndex)
      (v.checkSuperclass c cd.classIdx cd.superclassIdx table)) fun _ =>
        cd.superclassIdx ≠ kNoIndex → cd.superclassIdx ≠ cd.classIdx := by
    rw [wp_onlyIf]
    refine ⟨fun hsome => ?_, fun hnone hsome => absurd hsome hnone⟩
    exact wp_mono (wp_checkSuperclass h (hcd.superclass hsome)) fun _ hne _ => hne
  have hinterfaces : wp (onlyIf (cd.interfacesOff ≠ 0)
      (v.checkInterfaces cd.classIdx cd.interfacesOff)) fun _ => True := by
    rw [wp_onlyIf]
    exact ⟨fun hoff => wp_checkInterfaces h (hcd.interfaces hoff), fun _ => trivial⟩
  have hdata : wp (onlyIf (cd.classDataOff ≠ 0)
      (v.checkClassDataDefiners cd.classDataOff cd.classIdx)) fun _ =>
        cd.classDataOff ≠ 0 → v.DefinedBy cd.classDataOff cd.classIdx := by
    rw [wp_onlyIf]
    refine ⟨fun _ => ?_, fun hnone hsome => absurd hsome hnone⟩
    exact wp_mono (wp_checkClassDataDefiners h.tables _ _) fun _ hdef _ => hdef
  refine wp_mono hsuper fun _ hsuper => ?_
  refine wp_mono hinterfaces fun _ _ => ?_
  refine wp_mono hdata fun _ hdata => ?_
  refine ⟨fun type => ?_, ⟨hcls, hsuper, hdata⟩, hdistinct⟩
  rw [List.lookup_cons]
  by_cases htype : type = cd.classIdx
  · subst htype
    simp only [beq_self_eq_true, reduceCtorEq, false_iff, not_forall]
    exact ⟨c, by omega, by simp [hview]⟩
  · rw [show (type == cd.classIdx) = false by simpa using htype, htable type]
    constructor
    · intro hold d hd
      rcases Nat.lt_succ_iff_lt_or_eq.mp hd with hlt | rfl
      · exact hold d hlt
      · rw [hview]
        exact fun heq => htype heq.symm
    · exact fun hnew d hd => hnew d (by omega)

/-- What `CheckInterSection` establishes. -/
structure InterOk (v : Verifier) : Prop where
  identifiers : ∀ a b us vs, v.IsIdentifier a → v.IsIdentifier b → a < b → v.StringAt a us →
    v.StringAt b vs → us < vs
  typeValid : ∀ i, i < v.header.typeIdsSize → v.ValidType i fun _ => true
  typeOrder : ∀ i, i + 1 < v.header.typeIdsSize → v.descriptorIdxAt i < v.descriptorIdxAt (i + 1)
  protoOrder : ∀ i, i + 1 < v.header.protoIdsSize →
    v.ProtoLess (protoIdAt v.image (v.protoIdAddr i)) (protoIdAt v.image (v.protoIdAddr (i + 1)))
  fieldOrder : ∀ i, i + 1 < v.header.fieldIdsSize →
    TripleLess (fieldTriple (fieldIdAt v.image (v.fieldIdAddr i)))
      (fieldTriple (fieldIdAt v.image (v.fieldIdAddr (i + 1))))
  methodValid : ∀ i, i < v.header.methodIdsSize →
    v.MethodIdValid (methodIdAt v.image (v.methodIdAddr i))
  methodOrder : ∀ i, i + 1 < v.header.methodIdsSize →
    TripleLess (methodTriple (methodIdAt v.image (v.methodIdAddr i)))
      (methodTriple (methodIdAt v.image (v.methodIdAddr (i + 1))))
  classDefValid : ∀ c, c < v.header.classDefsSize →
    v.ClassDefValid (classDefAt v.image (v.classDefAddr c))
  classDefDistinct : ∀ c d, d < c → c < v.header.classDefsSize →
    (classDefAt v.image (v.classDefAddr d)).classIdx ≠
      (classDefAt v.image (v.classDefAddr c)).classIdx

theorem wp_verifyClassDefs (h : v.IntraOk methodHandleCount) :
    wp v.verifyClassDefs fun _ =>
      (∀ c, c < v.header.classDefsSize → v.ClassDefValid (classDefAt v.image (v.classDefAddr c))) ∧
      ∀ c d, d < c → c < v.header.classDefsSize →
        (classDefAt v.image (v.classDefAddr d)).classIdx ≠
          (classDefAt v.image (v.classDefAddr c)).classIdx := by
  simp only [verifyClassDefs, wp_bind, wp_pure]
  refine wp_mono (wp_loop (fun j table => v.TableBefore j table ∧
    (∀ c, c < j → v.ClassDefValid (classDefAt v.image (v.classDefAddr c))) ∧
    ∀ c d, d < c → c < j → (classDefAt v.image (v.classDefAddr d)).classIdx ≠
      (classDefAt v.image (v.classDefAddr c)).classIdx) ?_ ?_) fun _ hinv => hinv.2
  · exact ⟨fun type => by simp, by intro c hc; omega, by intro c d _ hc; omega⟩
  · rintro j table hj ⟨htable, hvalid, hdistinct⟩
    refine wp_mono (wp_verifyClassDef h hj htable) fun table' hround => ?_
    obtain ⟨htable', hvalid', hnew⟩ := hround
    refine ⟨htable', fun c hc => ?_, fun c d hd hc => ?_⟩
    · rcases Nat.lt_succ_iff_lt_or_eq.mp hc with hlt | rfl
      · exact hvalid c hlt
      · exact hvalid'
    · rcases Nat.lt_succ_iff_lt_or_eq.mp hc with hlt | rfl
      · exact hdistinct c d hd hlt
      · exact hnew d hd

/-- `CheckInterSection` reads only inside the image and establishes `InterOk`;
a strict pass records nothing. -/
theorem wp_checkInterSection (h : v.IntraOk methodHandleCount) :
    wp v.checkInterSection fun deviations =>
      v.InterOk ∧ (v.checkInsns = true → deviations = []) := by
  have hchoice : ∀ i, ∃ us, i < v.header.stringIdsSize → v.StringAt i us := by
    intro i
    by_cases hi : i < v.header.stringIdsSize
    · obtain ⟨us, hus⟩ := h.stringAt hi
      exact ⟨us, fun _ => hus⟩
    · exact ⟨[], fun hlt => absurd hlt hi⟩
  obtain ⟨units, hunits⟩ := Classical.axiomOfChoice hchoice
  simp only [checkInterSection, wp_bind, wp_pure]
  refine wp_mono (wp_checkInterStringIds hunits h) fun deviations hstrings => ?_
  refine wp_mono (wp_forUpTo fun i hi => wp_checkInterTypeId h hi) fun _ htypes => ?_
  refine wp_mono (wp_forUpTo fun i hi => wp_checkInterProtoId h (i := i) (by omega))
    fun _ hprotos => ?_
  refine wp_mono (wp_forUpTo fun i hi => wp_checkInterFieldId h hi) fun _ hfields => ?_
  refine wp_mono (wp_forUpTo fun i hi => wp_checkInterMethodId h hi) fun _ hmethods => ?_
  refine wp_mono (wp_verifyClassDefs h) fun _ hclassDefs => ?_
  refine ⟨⟨?_, fun i hi => (htypes i hi).1, ?_, ?_, ?_, fun i hi => (hmethods i hi).1, ?_,
    hclassDefs.1, hclassDefs.2⟩, hstrings.2⟩
  · intro a b us vs ha hb hab hus hvs
    rw [hus.unique (hunits a (h.identifier_lt ha)), hvs.unique (hunits b (h.identifier_lt hb))]
    exact hstrings.1 a b ha hb hab
  · exact fun i hi => (htypes (i + 1) hi).2 (Nat.succ_ne_zero i)
  · exact fun i hi => hprotos i (by omega)
  · exact fun i hi => hfields (i + 1) hi (Nat.succ_ne_zero i)
  · exact fun i hi => (hmethods (i + 1) hi).2 (Nat.succ_ne_zero i)

end Verifier

end Dexllm
