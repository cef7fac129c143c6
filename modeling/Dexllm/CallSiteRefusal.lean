import Dexllm.CallSiteItemSpecs

/-!
When `GetCallSite` refuses rather than guesses. It answers with an entry whose
elements all start inside the image and name something, and with the empty
result otherwise; so the one entry it should have refused is the one whose last
payload the end of the image cuts.
-/

namespace Dexllm

open Guarded Bytes Cursor Leb128

namespace Verifier

variable (v : Verifier)

/-- Call site `idx` is an array at `data`: the section and the offset in it lie
in the image. -/
structure CallSiteData (idx data : Nat) : Prop where
  listed : ∃ s, v.mapSection kCallSiteIdItem = some s ∧ idx < s.size ∧
    v.offsetToPtr s.offset + 4 * s.size ≤ v.image.length ∧
    u4At v.image (v.tableAt s.offset idx 4) ≠ 0 ∧
    data = v.offsetToPtr (u4At v.image (v.tableAt s.offset idx 4))
  inImage : data < v.image.length

/-- Call site `idx` has `count` elements, the first one at `first`: its count
lies in the image. -/
structure CallSiteArray (idx count first : Nat) : Prop where
  exists_data : ∃ data n, v.CallSiteData idx data ∧
    UlebWithin 5 v.image v.image.length data n ∧
    count = ulebValue v.image data n % 2 ^ 32 ∧ first = data + n

/-- An index the element at `p` holds is in range of its table. -/
def ElementInRange (p : Nat) : Prop :=
  (elementType v.image p = 0x15 → elementPayload v.image p < v.header.protoIdsSize) ∧
  (elementType v.image p = 0x16 → ∃ s, v.mapSection kMethodHandleItem = some s ∧
    elementPayload v.image p < s.size) ∧
  (elementType v.image p = 0x17 → elementPayload v.image p < v.header.stringIdsSize) ∧
  (elementType v.image p = 0x18 → elementPayload v.image p < v.header.typeIdsSize)

/-- The elements that may be resolved: at least three, whole, the first three a
method handle, a string and a proto, and every index in range of its table. -/
structure CallSiteWhole (count first : Nat) : Prop where
  three : 3 ≤ count
  handle : elementType v.image first = 0x16
  string : elementType v.image (elementAt v.image first 1) = 0x17
  proto : elementType v.image (elementAt v.image first 2) = 0x15
  fits : ∀ k < count, elementEnd v.image (elementAt v.image first k) ≤ v.image.length
  inRange : ∀ k < count, v.ElementInRange (elementAt v.image first k)

/-- The elements that are resolved. -/
structure CallSiteReads (item : DexItem) (count first : Nat) : Prop where
  three : 3 ≤ count
  handle : elementType v.image first = 0x16
  string : elementType v.image (elementAt v.image first 1) = 0x17
  proto : elementType v.image (elementAt v.image first 2) = 0x15
  reads : ∀ k < count, v.ElementReads item (elementAt v.image first k)

/-- `GetCallSite` refuses rather than guesses: it returns, resolves only an entry
that is whole and in range, and otherwise has learned nothing. -/
def RefusesCallSite (item : DexItem) (idx : Nat) : Prop :=
  ∃ info, item.getCallSite idx = .ok info ∧
    (info.ok = true → ∃ count first, v.CallSiteArray idx count first ∧
      v.CallSiteWhole count first) ∧
    (info.ok = false → info = {})

/-- The last payload of a resolved entry is not cut, and the method_handle
section of one that asks for a handle has no negative `int` as its offset. -/
def CallSiteSafe (item : DexItem) (idx : Nat) : Prop :=
  ∀ count first, v.CallSiteArray idx count first →
    (v.CallSiteReads item count first → elementAt v.image first count ≤ v.image.length) ∧
    (3 ≤ count → v.HandleElement first →
      ∀ s, v.mapSection kMethodHandleItem = some s → s.offset < 2 ^ 31)

end Verifier

section Entry

variable {v : Verifier} {item : DexItem} {methodHandleCount : Nat}

/-- The elements from `p` on read, `n` of them. -/
def ElementsRead (v : Verifier) (item : DexItem) (p n : Nat) : Prop :=
  ∀ k < n, v.ElementReads item (elementAt v.image p k)

theorem elementsRead_succ {p n : Nat} : ElementsRead v item p (n + 1) ↔
    v.ElementReads item p ∧ ElementsRead v item (elementEnd v.image p) n := by
  constructor
  · intro h
    refine ⟨h 0 (Nat.succ_pos n), fun k hk => ?_⟩
    rw [← elementAt_succ]
    exact h (k + 1) (by omega)
  · rintro ⟨hfirst, hrest⟩ k hk
    cases k with
    | zero => exact hfirst
    | succ k =>
      rw [elementAt_succ]
      exact hrest k (by omega)

/-- Past the end of the image nothing reads, wherever the cursor stopped. -/
theorem elementsRead_min {p n : Nat} :
    ElementsRead v item (min p v.image.length) n ↔ ElementsRead v item p n := by
  by_cases hp : p ≤ v.image.length
  · rw [Nat.min_eq_left hp]
  · cases n with
    | zero =>
      exact ⟨fun _ _ hk => absurd hk (Nat.not_lt_zero _),
        fun _ _ hk => absurd hk (Nat.not_lt_zero _)⟩
    | succ n =>
      constructor
      · intro h
        have hin := (elementsRead_succ.mp h).1.inImage
        omega
      · intro h
        have hin := (elementsRead_succ.mp h).1.inImage
        omega

theorem parseExtraArgs_spec (hl : Loaded v item) (hintra : v.IntraOk methodHandleCount)
    (hlist : v.MapListed) (hheader : HeaderValidated v.header) (hinter : v.InterOk)
    (hsafe : ∀ s, v.mapSection kMethodHandleItem = some s → s.offset < 2 ^ 31)
    (rounds p : Nat) (args : List CallSiteArg) :
    (∃ args', item.parseExtraArgs v.image.length rounds p args = .ok (some args') ∧
      ElementsRead v item p rounds) ∨
    (item.parseExtraArgs v.image.length rounds p args = .ok none ∧
      ¬ElementsRead v item p rounds) := by
  induction rounds generalizing p args with
  | zero => exact .inl ⟨args, rfl, fun _ hk => absurd hk (Nat.not_lt_zero _)⟩
  | succ rounds ih =>
    rw [DexItem.parseExtraArgs, elementsRead_succ]
    by_cases hp : p < v.image.length
    · obtain ⟨a, ha, hsome, _⟩ :=
        parseCallSiteArg_spec hl hintra hlist hheader hinter hp fun _ => hsafe
      rw [ha, bind_ok]
      cases a with
      | none =>
        refine .inr ⟨rfl, fun h => ?_⟩
        cases hsome.mpr h.1
      | some arg =>
        have hreads := hsome.mp rfl
        rcases ih (min (elementEnd v.image p) v.image.length) (args ++ [arg]) with
          ⟨args', hrun, hrest⟩ | ⟨hrun, hrest⟩
        · exact .inl ⟨args', hrun, hreads, elementsRead_min.mp hrest⟩
        · exact .inr ⟨hrun, fun h => hrest (elementsRead_min.mpr h.2)⟩
    · refine .inr ⟨?_, fun h => hp h.1.inImage⟩
      rw [parseCallSiteArg_past (by omega), bind_ok]
      rfl

theorem argKind_eq {type : Nat} : (argKind type = .handle ↔ type = 0x16) ∧
    (argKind type = .string ↔ type = 0x17) ∧ (argKind type = .proto ↔ type = 0x15) := by
  unfold argKind
  split <;> simp_all

/-- The entries that are resolved, element by element. -/
theorem callSiteReads_iff {n first : Nat} : v.CallSiteReads item (n + 3) first ↔
    (v.ElementReads item first ∧ argKind (elementType v.image first) = .handle) ∧
    (v.ElementReads item (elementAt v.image first 1) ∧
      argKind (elementType v.image (elementAt v.image first 1)) = .string) ∧
    (v.ElementReads item (elementAt v.image first 2) ∧
      argKind (elementType v.image (elementAt v.image first 2)) = .proto) ∧
    ElementsRead v item (elementAt v.image first 3) n := by
  have hsplit : ElementsRead v item first (n + 3) ↔ v.ElementReads item first ∧
      v.ElementReads item (elementAt v.image first 1) ∧
      v.ElementReads item (elementAt v.image first 2) ∧
      ElementsRead v item (elementAt v.image first 3) n := by
    rw [elementsRead_succ, elementsRead_succ, elementsRead_succ]
    rfl
  obtain ⟨hhandle, -, -⟩ := @argKind_eq (elementType v.image first)
  obtain ⟨-, hstring, -⟩ := @argKind_eq (elementType v.image (elementAt v.image first 1))
  obtain ⟨-, -, hproto⟩ := @argKind_eq (elementType v.image (elementAt v.image first 2))
  rw [hhandle, hstring, hproto]
  constructor
  · intro h
    obtain ⟨h0, h1, h2, hrest⟩ := hsplit.mp h.reads
    exact ⟨⟨h0, h.handle⟩, ⟨h1, h.string⟩, ⟨h2, h.proto⟩, hrest⟩
  · rintro ⟨⟨h0, ht0⟩, ⟨h1, ht1⟩, ⟨h2, ht2⟩, hrest⟩
    exact ⟨by omega, ht0, ht1, ht2, hsplit.mpr ⟨h0, h1, h2, hrest⟩⟩

section Answers

variable (hl : Loaded v item) (hintra : v.IntraOk methodHandleCount) (hlist : v.MapListed)
  (hheader : HeaderValidated v.header) (hinter : v.InterOk)

include hl hintra hlist hheader hinter

/-- The elements of an entry that asks for no unreadable method handle. -/
theorem parseCallSite_spec
    (hsafe : ∀ s, v.mapSection kMethodHandleItem = some s → s.offset < 2 ^ 31)
    {count first : Nat} (hfirst : first ≤ v.image.length) :
    (∃ info, item.parseCallSite v.image.length count first = .ok info ∧ info.ok = true ∧
      v.CallSiteReads item count first) ∨
    (item.parseCallSite v.image.length count first = .ok {} ∧
      ¬v.CallSiteReads item count first) := by
  rw [DexItem.parseCallSite]
  by_cases hcount : count < 3
  · rw [if_pos hcount]
    refine .inr ⟨rfl, fun h => ?_⟩
    have hthree := h.three
    omega
  rw [if_neg hcount]
  obtain ⟨n, rfl⟩ : ∃ n, count = n + 3 := ⟨count - 3, by omega⟩
  rw [callSiteReads_iff, Nat.add_sub_cancel]
  have hargs (kind : CallSiteArgKind) (p : Nat) :=
    @parseFixedArg_spec _ _ _ hl hintra hlist hheader hinter p kind fun _ => hsafe
  have hhandle := hargs .handle first
  have hstring := hargs .string (elementAt v.image first 1)
  have hproto := hargs .proto (elementAt v.image first 2)
  rw [Nat.min_eq_left hfirst] at hhandle
  rw [← elementAt_succ'] at hstring hproto
  rcases hhandle with ⟨e0, hrun0, h0⟩ | ⟨hrun0, hno⟩
  swap
  · rw [hrun0, bind_ok]
    exact .inr ⟨rfl, fun h => hno h.1⟩
  rw [hrun0, bind_ok]
  rcases hstring with ⟨e1, hrun1, h1⟩ | ⟨hrun1, hno⟩
  swap
  · simp only [show elementEnd v.image first = elementAt v.image first 1 from rfl, hrun1, bind_ok]
    exact .inr ⟨rfl, fun h => hno h.2.1⟩
  simp only [show elementEnd v.image first = elementAt v.image first 1 from rfl, hrun1, bind_ok]
  rcases hproto with ⟨e2, hrun2, h2⟩ | ⟨hrun2, hno⟩
  swap
  · rw [hrun2, bind_ok]
    exact .inr ⟨rfl, fun h => hno h.2.2.1⟩
  simp only [hrun2, bind_ok]
  rcases parseExtraArgs_spec hl hintra hlist hheader hinter hsafe n
    (min (elementAt v.image first 3) v.image.length) [] with ⟨args, hrun, hrest⟩ | ⟨hrun, hno⟩
  · simp only [hrun, bind_ok]
    exact .inl ⟨_, rfl, rfl, h0, h1, h2, elementsRead_min.mp hrest⟩
  · simp only [hrun, bind_ok]
    exact .inr ⟨rfl, fun h => hno (elementsRead_min.mpr h.2.2.2)⟩

/-- Elements whose first one asks for no method handle: none of them is looked
up. -/
theorem parseCallSite_of_not_handle {count first : Nat} (hfirst : first ≤ v.image.length)
    (hnot : ¬v.HandleElement first) :
    item.parseCallSite v.image.length count first = .ok {} ∧
      ¬v.CallSiteReads item count first := by
  have hreads : ¬(v.ElementReads item first ∧
      argKind (elementType v.image first) = .handle) := by
    rintro ⟨⟨hin, hresolves⟩, hkind⟩
    have htype := argKind_eq.1.mp hkind
    rw [htype] at hresolves
    obtain ⟨s, hs, hlt, _⟩ := hresolves
    have hsize := mapSection_size_lt hs
    exact hnot ⟨hin, htype, by omega⟩
  constructor
  · rw [DexItem.parseCallSite]
    split
    · rfl
    · have hhandle := @parseFixedArg_spec _ _ _ hl hintra hlist hheader hinter first .handle
        fun h => absurd h hnot
      rw [Nat.min_eq_left hfirst] at hhandle
      rcases hhandle with ⟨e0, _, h0⟩ | ⟨hrun, _⟩
      · exact absurd h0 hreads
      · rw [hrun, bind_ok]
        rfl
  · intro h
    obtain ⟨n, rfl⟩ : ∃ n, count = n + 3 := ⟨count - 3, by have := h.three; omega⟩
    exact hreads (callSiteReads_iff.mp h).1

omit hintra hinter in
/-- The first look-up of a section whose offset is a negative `int` throws. -/
theorem parseCallSite_thrown {count first : Nat} (hcount : 3 ≤ count)
    (hhandle : v.HandleElement first) {s : MapItem}
    (hs : v.mapSection kMethodHandleItem = some s) (hlarge : ¬s.offset < 2 ^ 31) :
    item.parseCallSite v.image.length count first = .error (.thrown "SLICER_CHECK failed") := by
  obtain ⟨hin, htype, hnarrow⟩ := hhandle
  have hbyte : readU1 item.reader.image first = .ok (byteAt v.image first) := by
    rw [hl.reader.image]
    exact read_of_le (by omega)
  have htype' : byteAt v.image first &&& 0x1f = 0x16 := htype
  have hwidth : payloadWidth (byteAt v.image first) = (byteAt v.image first >>> 5) + 1 := by
    rw [payloadWidth, htype', if_neg (by decide)]
  have hload : loadLE item.reader.image v.image.length ((byteAt v.image first >>> 5) + 1)
      (first + 1) =
      .ok (elementPayload v.image first, min (elementEnd v.image first) v.image.length) := by
    rw [hl.reader.image, loadLE_eq le_rfl, readLE_clip _ (by omega), elementPayload, elementEnd,
      hwidth]
  have hthrown := resolveMethodHandle_thrown hl hlist hheader hs hlarge
    (elementPayload v.image first)
  have hnarrow' : ¬2 ^ 32 ≤ elementPayload v.image first := by omega
  rw [DexItem.parseCallSite, if_neg (by omega), DexItem.parseFixedArg, DexItem.parseCallSiteArg,
    if_neg (by omega), hbyte, bind_ok]
  simp only [htype', hload, bind_ok, DexItem.callSiteArg, hnarrow', if_false, hthrown, bind_error]
  rfl

omit hintra hheader hinter in
/-- Entry `idx` of the section: an offset comes out of exactly an entry that is
an array in the image. -/
theorem callSiteDataOff_spec (idx : Nat) :
    (∃ off, item.callSiteDataOff ⟨v.range.begin_, v.image.length - v.range.begin_⟩ idx =
        .ok (some off) ∧ v.CallSiteData idx (v.offsetToPtr off)) ∨
    (item.callSiteDataOff ⟨v.range.begin_, v.image.length - v.range.begin_⟩ idx = .ok none ∧
      ∀ data, ¬v.CallSiteData idx data) := by
  rw [DexItem.callSiteDataOff, findMapSection_eq hl hlist, bind_ok]
  cases hsection : v.mapSection kCallSiteIdItem with
  | none =>
    refine .inr ⟨rfl, ?_⟩
    rintro data ⟨⟨s, hs, _⟩, _⟩
    rw [hsection] at hs
    cases hs
  | some s =>
    have hdata (data : Nat) : v.CallSiteData idx data ↔ (idx < s.size ∧
        v.offsetToPtr s.offset + 4 * s.size ≤ v.image.length ∧
        u4At v.image (v.tableAt s.offset idx 4) ≠ 0 ∧
        data = v.offsetToPtr (u4At v.image (v.tableAt s.offset idx 4))) ∧
        data < v.image.length := by
      constructor
      · rintro ⟨⟨s', hs', h⟩, hin⟩
        rw [hsection] at hs'
        obtain rfl := Option.some.inj hs'
        exact ⟨h, hin⟩
      · exact fun ⟨h, hin⟩ => ⟨⟨s, hsection, h⟩, hin⟩
    simp only [Option.map_some, hdata]
    by_cases hidx : s.size ≤ idx
    · rw [if_pos hidx]
      exact .inr ⟨rfl, fun data h => by omega⟩
    rw [if_neg hidx]
    by_cases hspan : v.image.length - v.range.begin_ ≤ s.offset ∨
        (v.image.length - v.range.begin_ - s.offset) / 4 < s.size
    · rw [if_pos hspan]
      refine .inr ⟨rfl, fun data h => ?_⟩
      obtain ⟨⟨_, hroom, _⟩, _⟩ := h
      simp only [Verifier.offsetToPtr] at hroom
      omega
    rw [if_neg hspan]
    have hread : readU4 item.reader.image (v.range.begin_ + s.offset + idx * 4) =
        .ok (u4At v.image (v.tableAt s.offset idx 4)) := by
      rw [hl.reader.image]
      apply read_of_le
      omega
    rw [hread, bind_ok]
    simp only [Verifier.offsetToPtr]
    by_cases hoff : u4At v.image (v.tableAt s.offset idx 4) = 0 ∨
        v.image.length - v.range.begin_ ≤ u4At v.image (v.tableAt s.offset idx 4)
    · rw [if_pos hoff]
      refine .inr ⟨rfl, fun data h => ?_⟩
      omega
    · rw [if_neg hoff]
      refine .inl ⟨_, rfl, ⟨by omega, by omega, by omega, rfl⟩, by omega⟩

omit hl hintra hlist hheader hinter in
theorem callSiteData_unique {idx data data' : Nat} (h : v.CallSiteData idx data)
    (h' : v.CallSiteData idx data') : data = data' := by
  obtain ⟨⟨s, hs, _, _, _, hdata⟩, _⟩ := h
  obtain ⟨⟨s', hs', _, _, _, hdata'⟩, _⟩ := h'
  obtain rfl := Option.some.inj (hs.symm.trans hs')
  exact hdata.trans hdata'.symm

omit hl hintra hlist hheader hinter in
/-- A call site has one array. -/
theorem callSiteArray_unique {idx count count' first first' : Nat}
    (h : v.CallSiteArray idx count first) (h' : v.CallSiteArray idx count' first') :
    count = count' ∧ first = first' := by
  obtain ⟨data, n, hdata, hn, hcount, hfirst⟩ := h
  obtain ⟨data', n', hdata', hn', hcount', hfirst'⟩ := h'
  obtain rfl := callSiteData_unique hdata hdata'
  have hread := (@readUleb_within _ _ _ _ _ 32 hn).symm.trans (readUleb_within hn')
  obtain ⟨hvalue, hcursor⟩ := Prod.mk.inj hread
  exact ⟨hcount.trans (hvalue.trans hcount'.symm), hfirst.trans (hcursor.trans hfirst'.symm)⟩

/-- `GetCallSite` answers with the elements of the entry's array, if it has
one. -/
theorem getCallSite_cases (idx : Nat) :
    (∃ count first, v.CallSiteArray idx count first ∧ first ≤ v.image.length ∧
      item.getCallSite idx = item.parseCallSite v.image.length count first) ∨
    (item.getCallSite idx = .ok {} ∧ ∀ count first, ¬v.CallSiteArray idx count first) := by
  have hin := v.range.inImage
  have hend : v.range.begin_ + (v.image.length - v.range.begin_) = v.image.length := by omega
  rw [DexItem.getCallSite, spanOf_eq hl hlist]
  simp only [hend]
  rcases callSiteDataOff_spec hl hlist idx with ⟨off, hrun, hdata⟩ | ⟨hrun, hnone⟩
  swap
  · rw [hrun, bind_ok]
    exact .inr ⟨rfl, fun count first ⟨data, _, hdata, _⟩ => hnone data hdata⟩
  rw [hrun, bind_ok]
  simp only [hl.reader.image]
  rw [loadUleb_eq le_rfl, bind_ok]
  have hlt : v.range.begin_ + off < v.image.length := hdata.inImage
  by_cases hcount : ∃ n, UlebWithin 5 v.image v.image.length (v.range.begin_ + off) n
  · obtain ⟨n, hn⟩ := hcount
    rw [readUleb_within hn]
    exact .inl ⟨_, _, ⟨_, n, hdata, hn, rfl, rfl⟩, hn.le_stop, rfl⟩
  · -- the count runs into the end of the image, so the first element is past it
    have hcut := (@readUleb_cases v.image _ _ 5 32 (by decide) (Nat.le_of_lt hlt)).resolve_left
      hcount
    have hread : readUleb 32 5 v.image v.image.length (v.range.begin_ + off) =
        ((readUleb 32 5 v.image v.image.length (v.range.begin_ + off)).1, v.image.length) :=
      Prod.ext rfl hcut
    refine .inr ⟨?_, ?_⟩
    · rw [hread]
      exact (parseCallSite_of_not_handle hl hintra hlist hheader hinter le_rfl
        fun h => Nat.lt_irrefl _ h.inImage).1
    · rintro count first ⟨data, n, hdata', hn, _, _⟩
      obtain rfl := callSiteData_unique hdata' hdata
      exact hcount ⟨n, hn⟩

omit hl hintra hlist hheader hinter in
/-- An entry that reads and whose last element ends in the image is whole. -/
theorem callSiteWhole_of_reads {count first : Nat} (h : v.CallSiteReads item count first)
    (hend : elementAt v.image first count ≤ v.image.length) : v.CallSiteWhole count first := by
  refine ⟨h.three, h.handle, h.string, h.proto, fun k hk => ?_, fun k hk => ?_⟩
  · rw [← elementAt_succ']
    rcases Nat.lt_succ_iff_lt_or_eq.mp (Nat.succ_lt_succ hk) with hlt | heq
    · exact Nat.le_of_lt (h.reads (k + 1) hlt).inImage
    · rwa [show k + 1 = count from heq]
  · have hresolves := (h.reads k hk).resolves
    refine ⟨fun htype => ?_, fun htype => ?_, fun htype => ?_, fun htype => ?_⟩
    · rwa [htype] at hresolves
    · rw [htype] at hresolves
      obtain ⟨s, hs, hlt, _⟩ := hresolves
      exact ⟨s, hs, hlt⟩
    · rwa [htype] at hresolves
    · rwa [htype] at hresolves

/-- `GetCallSite` refuses an entry rather than guesses exactly when the entry's
last payload is not cut and its method handles can be looked up. -/
theorem refusesCallSite_iff (idx : Nat) : v.RefusesCallSite item idx ↔ v.CallSiteSafe item idx := by
  rcases getCallSite_cases hl hintra hlist hheader hinter idx with
    ⟨count, first, harray, hfirst, hrun⟩ | ⟨hrun, hnone⟩
  swap
  · constructor
    · exact fun _ count first harray => absurd harray (hnone count first)
    · exact fun _ => ⟨{}, hrun, fun h => (nomatch h), fun _ => rfl⟩
  unfold Verifier.RefusesCallSite
  rw [hrun]
  by_cases hlarge : 3 ≤ count ∧ v.HandleElement first ∧
      ∃ s, v.mapSection kMethodHandleItem = some s ∧ ¬s.offset < 2 ^ 31
  · obtain ⟨hcount, hhandle, s, hs, hlarge⟩ := hlarge
    rw [parseCallSite_thrown hl hlist hheader hcount hhandle hs hlarge]
    constructor
    · rintro ⟨info, herror, _⟩
      cases herror
    · exact fun hsafe => absurd ((hsafe count first harray).2 hcount hhandle s hs) hlarge
  -- no look-up of the run throws
  have hanswer : (∃ info, item.parseCallSite v.image.length count first = .ok info ∧
      info.ok = true ∧ v.CallSiteReads item count first) ∨
      (item.parseCallSite v.image.length count first = .ok {} ∧
        ¬v.CallSiteReads item count first) := by
    by_cases hasks : 3 ≤ count ∧ v.HandleElement first
    · refine parseCallSite_spec hl hintra hlist hheader hinter (fun s hs => ?_) hfirst
      by_contra hs'
      exact hlarge ⟨hasks.1, hasks.2, s, hs, hs'⟩
    · by_cases hcount : 3 ≤ count
      · exact .inr (parseCallSite_of_not_handle hl hintra hlist hheader hinter hfirst
          fun h => hasks ⟨hcount, h⟩)
      · rw [DexItem.parseCallSite, if_pos (by omega)]
        exact .inr ⟨rfl, fun h => hcount h.three⟩
  have hsmall : 3 ≤ count → v.HandleElement first →
      ∀ s, v.mapSection kMethodHandleItem = some s → s.offset < 2 ^ 31 := by
    intro hcount hhandle s hs
    by_contra hs'
    exact hlarge ⟨hcount, hhandle, s, hs, hs'⟩
  rcases hanswer with ⟨info, hinfo, hok, hreads⟩ | ⟨hinfo, hnot⟩
  · constructor
    · rintro ⟨info', hinfo', hwhole, _⟩ count' first' harray'
      obtain ⟨rfl, rfl⟩ := callSiteArray_unique harray harray'
      obtain rfl := Except.ok.inj (hinfo.symm.trans hinfo')
      refine ⟨fun _ => ?_, hsmall⟩
      obtain ⟨count', first', harray', hwhole⟩ := hwhole hok
      obtain ⟨rfl, rfl⟩ := callSiteArray_unique harray harray'
      obtain ⟨n, rfl⟩ : ∃ n, count = n + 1 := ⟨count - 1, by have := hwhole.three; omega⟩
      rw [elementAt_succ']
      exact hwhole.fits n (Nat.lt_succ_self n)
    · intro hsafe
      refine ⟨info, hinfo, fun _ => ⟨count, first, harray, ?_⟩, fun h => ?_⟩
      · exact callSiteWhole_of_reads hreads
          ((hsafe count first harray).1 hreads)
      · rw [hok] at h
        cases h
  · constructor
    · intro _ count' first' harray'
      obtain ⟨rfl, rfl⟩ := callSiteArray_unique harray harray'
      exact ⟨fun h => absurd h hnot, hsmall⟩
    · exact fun _ => ⟨{}, hinfo, fun h => (nomatch h), fun _ => rfl⟩

end Answers

end Entry

section Main

variable {image : Memory} {headerOff methodHandleCount : Nat} {checkInsns : Bool}
  {st : VerifyImageState} {v : Verifier} {deviations : List String} {item : DexItem}

/-- For every call site of an accepted dex, `GetCallSite` refuses rather than
guesses exactly when the entry is safe. -/
theorem call_site_refused_iff
    (haccepted : Accepted image headerOff checkInsns st v methodHandleCount deviations)
    (hload : loadDexItem image headerOff = .ok item) (idx : Nat) :
    v.RefusesCallSite item idx ↔ v.CallSiteSafe item idx := by
  have hl := loaded_of_loadDexItem haccepted hload
  obtain ⟨r, hopen, hinit⟩ := bind_eq_ok.mp hload
  have hreader : item.reader = r := by
    simp only [initBaseCache, bind_eq_ok] at hinit
    obtain ⟨_, _, _, _, _, _, _, _, _, _, hitem⟩ := hinit
    rw [← Except.ok.inj hitem]
  have hheader : HeaderValidated v.header := by
    rw [← hl.reader.header, hreader]
    exact headerValidated_of_openReader hopen
  exact refusesCallSite_iff hl haccepted.intraOk (Verifier.mapListed_of_checkMap haccepted.map)
    hheader haccepted.interOk idx

/-- A call site at the end of the file: a method handle, a string, and a proto of
two bytes of which the file has one. -/
def cutSiteDex : Memory := [
  100, 101, 120, 10, 48, 51, 53, 0, 0, 0, 0, 0, 0, 0, 0, 0, 0, 0, 0, 0, 0, 0, 0, 0,
  0, 0, 0, 0, 0, 0, 0, 0, 27, 1, 0, 0, 112, 0, 0, 0, 120, 86, 52, 18, 0, 0, 0, 0,
  0, 0, 0, 0, 176, 0, 0, 0, 3, 0, 0, 0, 112, 0, 0, 0, 2, 0, 0, 0, 124, 0, 0, 0,
  1, 0, 0, 0, 132, 0, 0, 0, 0, 0, 0, 0, 0, 0, 0, 0, 1, 0, 0, 0, 144, 0, 0, 0,
  0, 0, 0, 0, 0, 0, 0, 0, 0, 0, 0, 0, 0, 0, 0, 0, 164, 0, 0, 0, 169, 0, 0, 0,
  172, 0, 0, 0, 0, 0, 0, 0, 1, 0, 0, 0, 1, 0, 0, 0, 1, 0, 0, 0, 0, 0, 0, 0,
  0, 0, 0, 0, 2, 0, 0, 0, 4, 0, 0, 0, 0, 0, 0, 0, 20, 1, 0, 0, 3, 76, 65, 59,
  0, 1, 86, 0, 1, 109, 0, 0, 8, 0, 0, 0, 0, 0, 0, 0, 1, 0, 0, 0, 0, 0, 0, 0,
  1, 0, 0, 0, 3, 0, 0, 0, 112, 0, 0, 0, 2, 0, 0, 0, 2, 0, 0, 0, 124, 0, 0, 0,
  3, 0, 0, 0, 1, 0, 0, 0, 132, 0, 0, 0, 5, 0, 0, 0, 1, 0, 0, 0, 144, 0, 0, 0,
  8, 0, 0, 0, 1, 0, 0, 0, 152, 0, 0, 0, 7, 0, 0, 0, 1, 0, 0, 0, 160, 0, 0, 0,
  0, 16, 0, 0, 1, 0, 0, 0, 176, 0, 0, 0, 3, 22, 0, 23, 0, 53, 0]

set_option maxRecDepth 20000 in
def cutSiteVerifier : Verifier :=
  ⟨cutSiteDex, 0, headerAt cutSiteDex 0, ⟨0, 283, by decide⟩, true⟩

set_option maxRecDepth 2000 in
theorem cutSiteDex_open : openVerifier cutSiteDex 0 true = .ok cutSiteVerifier := by
  rfl

set_option maxRecDepth 20000 in
/-- The dex is accepted, its call site is resolved, and the array at 276 has
three elements, the last one cut. -/
theorem cutSiteDex_runs : ((verifyDex cutSiteDex true 0 {}).1.ok = true ∧
      (do
        let item ← loadDexItem cutSiteDex 0
        let info ← item.getCallSite 0
        pure info.ok) = .ok true) ∧
    (cutSiteVerifier.mapSection kCallSiteIdItem = some ⟨7, 1, 160⟩ ∧ 0 < 1 ∧
      cutSiteVerifier.offsetToPtr 160 + 4 * 1 ≤ cutSiteDex.length ∧
      u4At cutSiteDex (cutSiteVerifier.tableAt 160 0 4) ≠ 0 ∧
      276 = cutSiteVerifier.offsetToPtr (u4At cutSiteDex (cutSiteVerifier.tableAt 160 0 4))) ∧
    277 ≤ cutSiteDex.length ∧ byteAt cutSiteDex 276 &&& 0x80 = 0 ∧
    3 = ulebValue cutSiteDex 276 1 % 2 ^ 32 ∧
    ¬elementEnd cutSiteDex (elementAt cutSiteDex 277 2) ≤ cutSiteDex.length := by
  decide

theorem cutSiteDex_run : (verifyDex cutSiteDex true 0 {}).1.ok = true ∧
    ∃ item info, loadDexItem cutSiteDex 0 = .ok item ∧ item.getCallSite 0 = .ok info ∧
      info.ok = true := by
  obtain ⟨⟨hok, hrun⟩, -⟩ := cutSiteDex_runs
  obtain ⟨item, hload, hrun⟩ := bind_eq_ok.mp hrun
  obtain ⟨info, hinfo, hrun⟩ := bind_eq_ok.mp hrun
  exact ⟨hok, item, info, hload, hinfo, Except.ok.inj hrun⟩

theorem call_site_refused_iff_cutSiteDex : ∃ item, loadDexItem cutSiteDex 0 = .ok item ∧
    (cutSiteVerifier.RefusesCallSite item 0 ↔ cutSiteVerifier.CallSiteSafe item 0) := by
  obtain ⟨hok, item, _, hload, _⟩ := cutSiteDex_run
  obtain ⟨v, m, deviations, haccepted⟩ := accepted_of_verifyDex hok
  obtain rfl := Except.ok.inj (haccepted.opened.symm.trans cutSiteDex_open)
  exact ⟨item, hload, call_site_refused_iff haccepted hload 0⟩

/-- Where the three elements are. -/
theorem cutSiteDex_array : cutSiteVerifier.CallSiteArray 0 3 277 := by
  obtain ⟨-, hlisted, hin, hend, hcount, -⟩ := cutSiteDex_runs
  have huleb : UlebWithin 5 cutSiteDex cutSiteDex.length 276 1 :=
    ⟨by omega, by omega, hin, fun i hi => by omega, .inl hend⟩
  exact ⟨276, 1, ⟨⟨⟨7, 1, 160⟩, hlisted⟩, hin⟩, huleb, hcount, rfl⟩

/-- The proto's second byte is not there, and the call site is resolved. -/
theorem cutSiteDex_guessed : (verifyDex cutSiteDex true 0 {}).1.ok = true ∧
    ∃ item, loadDexItem cutSiteDex 0 = .ok item ∧
      ¬cutSiteVerifier.RefusesCallSite item 0 := by
  obtain ⟨hok, item, info, hload, hinfo, hresolved⟩ := cutSiteDex_run
  refine ⟨hok, item, hload, ?_⟩
  rintro ⟨info', hinfo', hwhole, _⟩
  obtain rfl := Except.ok.inj (hinfo.symm.trans hinfo')
  obtain ⟨count, first, harray, hwhole⟩ := hwhole hresolved
  obtain ⟨rfl, rfl⟩ := callSiteArray_unique cutSiteDex_array harray
  have hfits := hwhole.fits 2 (by decide)
  obtain ⟨-, -, -, -, -, hcut⟩ := cutSiteDex_runs
  exact hcut hfits

end Main

end Dexllm
