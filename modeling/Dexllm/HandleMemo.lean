import Dexllm.HandleBudget
import Dexllm.Verifier.VerifySpecs

/-!
The memo of the method_handle walks of one image. An entry records what a walk
asked of the two id tables under the offset and the count of its section, which
are relative to the data range of the slice that walked it. A later slice that
finds the entry is judged rightly when its own section holds the same bytes.
-/

namespace Dexllm

open Guarded Bytes

/-- Seeding the budget leaves the memo alone. -/
theorem VerifyImageState.walked_seed (st : VerifyImageState) (imageSize : Nat) :
    (st.seed imageSize).walkedMethodHandles = st.walkedMethodHandles := by
  unfold seed
  split <;> rfl

/-- What one method_handle_item adds to the needs of its section. -/
def HandleSectionNeeds.add (needs : HandleSectionNeeds) (mh : MethodHandle) :
    HandleSectionNeeds :=
  if mh.methodHandleType ≤ kInstanceGet then
    { needs with fieldIds := max needs.fieldIds (mh.fieldOrMethodId + 1) }
  else { needs with methodIds := max needs.methodIds (mh.fieldOrMethodId + 1) }

/-- The needs of a section. -/
def needsOf (handles : List MethodHandle) : HandleSectionNeeds :=
  handles.foldl HandleSectionNeeds.add ⟨0, 0⟩

namespace Verifier

variable (v : Verifier)

/-- The id tables are large enough. -/
def Fits (needs : HandleSectionNeeds) : Prop :=
  needs.fieldIds ≤ v.header.fieldIdsSize ∧ needs.methodIds ≤ v.header.methodIdsSize

/-- A method_handle_item of a known type with an index of its own table. -/
def HandleOk (mh : MethodHandle) : Prop :=
  mh.methodHandleType ≤ kInvokeInterface ∧
    mh.fieldOrMethodId <
      if mh.methodHandleType ≤ kInstanceGet then v.header.fieldIdsSize else v.header.methodIdsSize

/-- Item `i` of the method_handle section at `off`. -/
def handleAt (off i : Nat) : MethodHandle :=
  methodHandleAt v.image (v.tableAt off i MethodHandle.bytes)

/-- The items of a method_handle section. -/
def sectionHandles (off count : Nat) : List MethodHandle := (List.range count).map (v.handleAt off)

/-- The method_handle item the loop of `CheckMap` reaches, from item `i` on. -/
def handleItem : (rounds i : Nat) → MapCursor → Run (Option MapItem)
  | 0, _, _ => pure none
  | rounds + 1, i, cursor => do
    let item ← v.readMapItem i
    let cursor ← v.checkMapItem i item cursor
    if item.type = kMethodHandleItem then pure (some item) else handleItem rounds (i + 1) cursor

end Verifier

section Needs

variable {v : Verifier}

theorem fits_add {needs : HandleSectionNeeds} {mh : MethodHandle} :
    v.Fits (needs.add mh) ↔ v.Fits needs ∧ mh.fieldOrMethodId <
      if mh.methodHandleType ≤ kInstanceGet then v.header.fieldIdsSize
      else v.header.methodIdsSize := by
  unfold HandleSectionNeeds.add Verifier.Fits
  split
  · simp only [max_le_iff, Nat.succ_le_iff]
    tauto
  · simp only [max_le_iff, Nat.succ_le_iff]
    tauto

theorem fits_foldl {handles : List MethodHandle} {needs : HandleSectionNeeds} :
    v.Fits (handles.foldl HandleSectionNeeds.add needs) ↔ v.Fits needs ∧
      ∀ mh ∈ handles, mh.fieldOrMethodId <
        if mh.methodHandleType ≤ kInstanceGet then v.header.fieldIdsSize
        else v.header.methodIdsSize := by
  induction handles generalizing needs with
  | nil => simp
  | cons mh handles ih =>
    rw [List.foldl_cons, ih, fits_add]
    simp only [List.mem_cons, forall_eq_or_imp]
    tauto

/-- The tables fit a section of known types exactly when every item is fine. -/
theorem fits_needsOf {handles : List MethodHandle}
    (htype : ∀ mh ∈ handles, mh.methodHandleType ≤ kInvokeInterface) :
    v.Fits (needsOf handles) ↔ ∀ mh ∈ handles, v.HandleOk mh := by
  have hempty : v.Fits ⟨0, 0⟩ := ⟨Nat.zero_le _, Nat.zero_le _⟩
  rw [needsOf, fits_foldl]
  exact ⟨fun h mh hmh => ⟨htype mh hmh, h.2 mh hmh⟩, fun h => ⟨hempty, fun mh hmh => (h mh hmh).2⟩⟩

end Needs

namespace Verifier

variable {v : Verifier}

section Walk

variable {off count : Nat}

/-- One round of the entry loop passes exactly on a fine item. -/
theorem verifyMethodHandle_eq_ok {i : Nat} {needs needs' : HandleSectionNeeds}
    (hspan : v.HandleSpanOk off count) (hi : i < count) :
    v.verifyMethodHandle off i needs = .ok needs' ↔
      v.HandleOk (v.handleAt off i) ∧ needs' = needs.add (v.handleAt off i) := by
  have hin := v.range.inImage
  simp only [HandleSpanOk, MethodHandle.bytes] at hspan
  have hread : read MethodHandle.bytes methodHandleAt v.image (v.tableAt off i MethodHandle.bytes) =
      .ok (v.handleAt off i) := by
    apply read_of_le
    simp only [tableAt, MethodHandle.bytes]
    omega
  rw [verifyMethodHandle, hread, bind_ok]
  generalize v.handleAt off i = mh
  unfold HandleOk HandleSectionNeeds.add
  by_cases htype : kInvokeInterface < mh.methodHandleType
  · have hbad : ¬mh.methodHandleType ≤ kInvokeInterface := Nat.not_le.mpr htype
    simp [failIf, fail, htype, hbad]
  have hgood : mh.methodHandleType ≤ kInvokeInterface := Nat.not_lt.mp htype
  simp only [failIf, htype, if_false, bind_ok, hgood, true_and]
  by_cases hfield : mh.methodHandleType ≤ kInstanceGet
  · by_cases hidx : mh.fieldOrMethodId < v.header.fieldIdsSize
    · have hle : ¬v.header.fieldIdsSize ≤ mh.fieldOrMethodId := Nat.not_le.mpr hidx
      simp [checkIndex, failIf, hfield, hidx, hle, pure, Except.pure, eq_comm]
    · have hle : v.header.fieldIdsSize ≤ mh.fieldOrMethodId := Nat.not_lt.mp hidx
      simp [checkIndex, failIf, fail, hfield, hidx, hle]
  · by_cases hidx : mh.fieldOrMethodId < v.header.methodIdsSize
    · have hle : ¬v.header.methodIdsSize ≤ mh.fieldOrMethodId := Nat.not_le.mpr hidx
      simp [checkIndex, failIf, hfield, hidx, hle, pure, Except.pure, eq_comm]
    · have hle : v.header.methodIdsSize ≤ mh.fieldOrMethodId := Nat.not_lt.mp hidx
      simp [checkIndex, failIf, fail, hfield, hidx, hle]

/-- The entry loop passes exactly on a fine section, and returns its needs. -/
theorem loop_verifyMethodHandle_eq_ok (hspan : v.HandleSpanOk off count)
    {needs : HandleSectionNeeds} :
    loop count ⟨0, 0⟩ (v.verifyMethodHandle off) = .ok needs ↔
      (∀ mh ∈ v.sectionHandles off count, v.HandleOk mh) ∧
        needs = needsOf (v.sectionHandles off count) := by
  have hpart : ∀ n ≤ count, ∀ needs, loop n ⟨0, 0⟩ (v.verifyMethodHandle off) = .ok needs ↔
      (∀ mh ∈ v.sectionHandles off n, v.HandleOk mh) ∧
        needs = needsOf (v.sectionHandles off n) := by
    intro n
    induction n with
    | zero =>
      intro _ needs
      simp [loop, loopFrom, sectionHandles, needsOf, eq_comm]
    | succ n ih =>
      intro hn needs
      have hsucc : v.sectionHandles off (n + 1) = v.sectionHandles off n ++ [v.handleAt off n] := by
        simp [sectionHandles, List.range_succ]
      have hstep := fun needs' => @verifyMethodHandle_eq_ok _ _ _ _ needs' needs hspan
          (show n < count by omega)
      rw [loop_succ, bind_eq_ok, hsucc, needsOf, List.foldl_append]
      simp only [ih (by omega), hstep, List.mem_append, List.mem_singleton, List.foldl_cons,
        List.foldl_nil]
      constructor
      · rintro ⟨_, ⟨hall, rfl⟩, hlast, rfl⟩
        refine ⟨?_, rfl⟩
        rintro mh (hmh | rfl)
        · exact hall mh hmh
        · exact hlast
      · rintro ⟨hall, rfl⟩
        exact ⟨_, ⟨fun mh hmh => hall mh (.inl hmh), rfl⟩, hall _ (.inr rfl), rfl⟩
  exact hpart count (Nat.le_refl _) needs

end Walk

section Scratch

variable {off count : Nat} {st : VerifyImageState}

/-- A memoised section is judged by its recorded needs. -/
theorem section_isOk_of_hit {needs : HandleSectionNeeds}
    (hhit : st.walkedMethodHandles.lookup (off, count) = some needs) :
    (v.verifyMethodHandleSection off count st).1.isOk = true ↔ v.Fits needs := by
  simp only [verifyMethodHandleSection, Scratch.bind_apply, Scratch.get_apply, Scratch.andThen_ok,
    hhit, Scratch.lift_apply, recheckMethodHandles, Fits]
  by_cases hfield : v.header.fieldIdsSize < needs.fieldIds
  · have hle : ¬needs.fieldIds ≤ v.header.fieldIdsSize := Nat.not_le.mpr hfield
    simp [failIf, fail, hfield, hle, Except.isOk, Except.toBool]
  · have hle : needs.fieldIds ≤ v.header.fieldIdsSize := Nat.not_lt.mp hfield
    by_cases hmethod : v.header.methodIdsSize < needs.methodIds
    · have hle' : ¬needs.methodIds ≤ v.header.methodIdsSize := Nat.not_le.mpr hmethod
      simp [failIf, fail, hfield, hmethod, hle', Except.isOk, Except.toBool]
    · have hle' : needs.methodIds ≤ v.header.methodIdsSize := Nat.not_lt.mp hmethod
      simp [failIf, hfield, hmethod, hle, hle', Except.isOk, Except.toBool]

/-- A section that is not memoised is walked. -/
theorem section_of_miss (hmiss : st.walkedMethodHandles.lookup (off, count) = none)
    (hbudget : count ≤ st.methodHandleEntriesLeft) :
    v.verifyMethodHandleSection off count st =
      match loop count ⟨0, 0⟩ (v.verifyMethodHandle off) with
      | .ok needs => (.ok (), (st.enter count).memoise off count needs)
      | .error e => (.error e, st.enter count) := by
  have hleft : ¬st.methodHandleEntriesLeft < count := Nat.not_lt.mpr hbudget
  simp only [verifyMethodHandleSection, Scratch.bind_apply, Scratch.get_apply, Scratch.andThen_ok,
    hmiss, failIf, hleft, if_false, Scratch.lift_apply, Scratch.set_apply]
  cases loop count ⟨0, 0⟩ (v.verifyMethodHandle off) <;> rfl

theorem section_isOk_of_miss (hspan : v.HandleSpanOk off count)
    (hmiss : st.walkedMethodHandles.lookup (off, count) = none)
    (hbudget : count ≤ st.methodHandleEntriesLeft) :
    (v.verifyMethodHandleSection off count st).1.isOk = true ↔
      ∀ mh ∈ v.sectionHandles off count, v.HandleOk mh := by
  have hloop := fun needs => @loop_verifyMethodHandle_eq_ok _ _ _ hspan needs
  rw [section_of_miss hmiss hbudget]
  cases hrun : loop count ⟨0, 0⟩ (v.verifyMethodHandle off) with
  | ok needs => simpa [Except.isOk, Except.toBool] using ((hloop needs).mp hrun).1
  | error e =>
    have hbad : ¬∀ mh ∈ v.sectionHandles off count, v.HandleOk mh := by
      intro hall
      have hok := (hloop _).mpr ⟨hall, rfl⟩
      rw [hrun] at hok
      cases hok
    simpa [Except.isOk, Except.toBool] using hbad

/-- What a section walk adds to the memo. -/
theorem mem_memo_of_section (hspan : v.HandleSpanOk off count)
    {entry : (Nat × Nat) × HandleSectionNeeds}
    (h : entry ∈ (v.verifyMethodHandleSection off count st).2.walkedMethodHandles) :
    entry ∈ st.walkedMethodHandles ∨
      ((∀ mh ∈ v.sectionHandles off count, v.HandleOk mh) ∧
        entry = ((off, count), needsOf (v.sectionHandles off count))) := by
  cases hlookup : st.walkedMethodHandles.lookup (off, count) with
  | some needs =>
    left
    simpa only [verifyMethodHandleSection, Scratch.bind_apply, Scratch.get_apply,
      Scratch.andThen_ok, hlookup, Scratch.lift_apply] using h
  | none =>
    by_cases hbudget : count ≤ st.methodHandleEntriesLeft
    · rw [section_of_miss hlookup hbudget] at h
      cases hrun : loop count ⟨0, 0⟩ (v.verifyMethodHandle off) with
      | ok needs =>
        obtain ⟨hall, rfl⟩ := (loop_verifyMethodHandle_eq_ok hspan).mp hrun
        simp only [hrun, VerifyImageState.memoise, VerifyImageState.enter, List.mem_cons] at h
        rcases h with h | h
        · exact .inr ⟨hall, h⟩
        · exact .inl h
      | error e =>
        simp only [hrun, VerifyImageState.enter] at h
        exact .inl h
    · left
      have hleft : st.methodHandleEntriesLeft < count := Nat.not_le.mp hbudget
      simpa [verifyMethodHandleSection, Scratch.bind_apply, hlookup, failIf, fail, hleft] using h

end Scratch

section MapItems

variable {i rounds : Nat} {item : MapItem} {cursor cursor' : MapCursor}

/-- The bit of a listed section is new, and stays set. -/
theorem usedBits_of_checkMapItem (h : v.checkMapItem i item cursor = .ok cursor') :
    cursor.usedBits &&& mapTypeToBitMask item.type = 0 ∧
      cursor'.usedBits = cursor.usedBits ||| mapTypeToBitMask item.type := by
  obtain ⟨_, _, h⟩ := bind_eq_ok.mp h
  obtain ⟨_, _, h⟩ := bind_eq_ok.mp h
  obtain ⟨_, _, h⟩ := bind_eq_ok.mp h
  obtain ⟨_, _, h⟩ := bind_eq_ok.mp h
  obtain ⟨_, hnew, h⟩ := bind_eq_ok.mp h
  obtain ⟨_, _, h⟩ := bind_eq_ok.mp h
  obtain rfl := Except.ok.inj h
  exact ⟨by simpa using failIf_eq_ok.mp hnew, rfl⟩

/-- Once a method_handle section is listed, the map list names no other, and
the rest of `CheckMap` neither reads nor writes the scratch. -/
theorem checkMapItems_of_listed (h : cursor.usedBits.testBit 8 = true) :
    ∃ r, ∀ st, v.checkMapItems rounds i cursor st = (r, st) := by
  induction rounds generalizing i cursor with
  | zero => exact ⟨.ok cursor, fun _ => rfl⟩
  | succ rounds ih =>
    simp only [checkMapItems, Scratch.lift_bind_apply]
    cases hread : v.readMapItem i with
    | error e => exact ⟨.error e, fun _ => rfl⟩
    | ok item =>
      simp only [Scratch.andThen_ok, Scratch.lift_bind_apply]
      cases hcheck : v.checkMapItem i item cursor with
      | error e => exact ⟨.error e, fun _ => rfl⟩
      | ok cursor' =>
        obtain ⟨hnew, hbits⟩ := usedBits_of_checkMapItem hcheck
        have hlisted : cursor'.usedBits.testBit 8 = true := by
          rw [hbits, Nat.testBit_or, h, Bool.true_or]
        have htype : item.type ≠ kMethodHandleItem := by
          intro htype
          have hbit := congrArg (fun n => n.testBit 8) hnew
          rw [htype] at hbit
          simp [Nat.testBit_and, h, mapTypeToBitMask, kMethodHandleItem] at hbit
          exact absurd hbit (by decide)
        simp only [Scratch.andThen_ok, htype, if_false]
        exact ih hlisted

theorem listed_of_checkMapItem (h : v.checkMapItem i item cursor = .ok cursor')
    (htype : item.type = kMethodHandleItem) : cursor'.usedBits.testBit 8 = true := by
  have hbit : (mapTypeToBitMask kMethodHandleItem).testBit 8 = true := by decide
  rw [(usedBits_of_checkMapItem h).2, Nat.testBit_or, htype, hbit, Bool.or_true]

/-- The scratch `CheckMap` leaves is the one its only section walk leaves. -/
theorem checkMapItems_scratch (st : VerifyImageState) :
    (v.checkMapItems rounds i cursor st).2 =
      match v.handleItem rounds i cursor with
      | .ok (some item) => (v.verifyMethodHandleSection item.offset item.size st).2
      | _ => st := by
  induction rounds generalizing i cursor with
  | zero => rfl
  | succ rounds ih =>
    simp only [checkMapItems, handleItem, Scratch.lift_bind_apply]
    cases hread : v.readMapItem i with
    | error e => rfl
    | ok item =>
      simp only [Scratch.andThen_ok, Scratch.lift_bind_apply, bind_ok]
      cases hcheck : v.checkMapItem i item cursor with
      | error e => rfl
      | ok cursor' =>
        simp only [Scratch.andThen_ok, bind_ok]
        by_cases htype : item.type = kMethodHandleItem
        · have hlisted := listed_of_checkMapItem hcheck htype
          obtain ⟨rest, hrest⟩ := @checkMapItems_of_listed v (i + 1) rounds
              { cursor' with methodHandleCount := item.size } hlisted
          simp only [htype, if_true, pure, Except.pure, Scratch.bind_apply]
          rcases hwalk : v.verifyMethodHandleSection item.offset item.size st with ⟨r, st'⟩
          cases r with
          | error e => rfl
          | ok _ => exact congrArg Prod.snd (hrest st')
        · simp only [htype, if_false]
          exact ih

/-- `CheckMap` passes only when its section walk does. -/
theorem section_isOk_of_checkMapItems {st : VerifyImageState}
    (h : (v.checkMapItems rounds i cursor st).1 = .ok cursor')
    (hitem : v.handleItem rounds i cursor = .ok (some item)) :
    (v.verifyMethodHandleSection item.offset item.size st).1.isOk = true := by
  induction rounds generalizing i cursor with
  | zero => cases hitem
  | succ rounds ih =>
    obtain ⟨found, hread, hitem⟩ := bind_eq_ok.mp hitem
    obtain ⟨next, hcheck, hitem⟩ := bind_eq_ok.mp hitem
    simp only [checkMapItems, Scratch.lift_bind_apply, hread, hcheck, Scratch.andThen_ok] at h
    by_cases htype : found.type = kMethodHandleItem
    · rw [if_pos htype] at h hitem
      obtain rfl := Option.some.inj (Except.ok.inj hitem)
      rw [Scratch.bind_apply] at h
      rcases hwalk : v.verifyMethodHandleSection found.offset found.size st with ⟨r, st'⟩
      cases r with
      | error e => simp [hwalk] at h
      | ok _ => rfl
    · rw [if_neg htype] at h hitem
      exact ih h hitem

/-- `CheckMap` reads the scratch for its section walk alone. -/
theorem checkMapItems_congr {st st' : VerifyImageState}
    (h : (v.checkMapItems rounds i cursor st).1 = .ok cursor')
    (hverdict : ∀ item, v.handleItem rounds i cursor = .ok (some item) →
      (v.verifyMethodHandleSection item.offset item.size st').1.isOk = true) :
    (v.checkMapItems rounds i cursor st').1 = .ok cursor' := by
  induction rounds generalizing i cursor with
  | zero => exact h
  | succ rounds ih =>
    simp only [checkMapItems, Scratch.lift_bind_apply] at h ⊢
    cases hread : v.readMapItem i with
    | error e => simp [hread] at h
    | ok found =>
      simp only [hread, Scratch.andThen_ok, Scratch.lift_bind_apply] at h ⊢
      cases hcheck : v.checkMapItem i found cursor with
      | error e => simp [hcheck] at h
      | ok next =>
        simp only [hcheck, Scratch.andThen_ok] at h ⊢
        simp only [handleItem, hread, hcheck, bind_ok] at hverdict
        by_cases htype : found.type = kMethodHandleItem
        · rw [if_pos htype] at h ⊢
          have hok := hverdict found (by rw [if_pos htype]; rfl)
          have hlisted := listed_of_checkMapItem hcheck htype
          obtain ⟨rest, hrest⟩ := @checkMapItems_of_listed v (i + 1) rounds
              { next with methodHandleCount := found.size } hlisted
          rw [Scratch.bind_apply] at h ⊢
          rcases hwalk : v.verifyMethodHandleSection found.offset found.size st with ⟨r, s1⟩
          rcases hwalk' : v.verifyMethodHandleSection found.offset found.size st' with ⟨r', s1'⟩
          rw [hwalk] at h
          rw [hwalk'] at hok
          cases r with
          | error e => simp at h
          | ok _ =>
            cases r' with
            | error e => cases hok
            | ok _ =>
              simp only [Scratch.andThen_ok, hrest] at h ⊢
              exact h
        · rw [if_neg htype] at h ⊢
          simp only [if_neg htype] at hverdict
          exact ih h hverdict

theorem handleSpanOk_of_handleItem (h : v.handleItem rounds i cursor = .ok (some item)) :
    v.HandleSpanOk item.offset item.size := by
  induction rounds generalizing i cursor with
  | zero => cases h
  | succ rounds ih =>
    obtain ⟨item', _, h⟩ := bind_eq_ok.mp h
    obtain ⟨cursor', hcheck, h⟩ := bind_eq_ok.mp h
    split at h
    · rename_i htype
      obtain rfl := Option.some.inj (Except.ok.inj h)
      exact post_of_ok wp_checkMapItem hcheck htype
    · exact ih h

end MapItems

end Verifier

section Slices

variable (image : Memory)

/-- The verifier of a slice and the method_handle section it is asked to walk. -/
def walkedSection (call : VerifyCall) : Option (Verifier × MapItem) :=
  let found : Run (Verifier × Option MapItem) := do
    let v ← openVerifier image call.headerOff call.checkInsns
    v.checkHeader
    let count ← v.readMapCount
    let item ← v.handleItem count 0 {}
    pure (v, item)
  match found with
  | .ok (v, some item) => some (v, item)
  | _ => none

/-- The verdict of `VerifyMethodHandleSection` for a slice, over the scratch
the calls before it left. -/
def sectionVerdict (st : VerifyImageState) (call : VerifyCall) : Option Bool :=
  (walkedSection image call).map fun (v, item) =>
    (v.verifyMethodHandleSection item.offset item.size (st.seed image.length)).1.isOk

/-- The entry budget covers the section unless the memo does. -/
def WithinBudget (st : VerifyImageState) (item : MapItem) : Prop :=
  st.walkedMethodHandles.lookup (item.offset, item.size) = none →
    item.size ≤ st.methodHandleEntriesLeft

/-- Two slices whose sections have the same offset and count find the same
bytes there. -/
def SharedSectionsAgree (calls : List VerifyCall) : Prop :=
  ∀ pre call, pre ++ [call] <+: calls → ∀ earlier ∈ pre, ∀ v item v' item',
    walkedSection image call = some (v, item) → walkedSection image earlier = some (v', item') →
      item.offset = item'.offset → item.size = item'.size →
      slice image (v.offsetToPtr item.offset) (item.size * MethodHandle.bytes) =
        slice image (v'.offsetToPtr item.offset) (item.size * MethodHandle.bytes)

/-- A memo entry was recorded by the walk of an earlier slice. -/
def RecordedBy (calls : List VerifyCall) (entry : (Nat × Nat) × HandleSectionNeeds) : Prop :=
  ∃ call ∈ calls, ∃ v item, walkedSection image call = some (v, item) ∧
    (∀ mh ∈ v.sectionHandles item.offset item.size, v.HandleOk mh) ∧
    entry = ((item.offset, item.size), needsOf (v.sectionHandles item.offset item.size))

variable {image}

theorem walkedSection_eq_some {call : VerifyCall} {v : Verifier} {item : MapItem} :
    walkedSection image call = some (v, item) ↔
      openVerifier image call.headerOff call.checkInsns = .ok v ∧ v.checkHeader = .ok () ∧
        ∃ count, v.readMapCount = .ok count ∧ v.handleItem count 0 {} = .ok (some item) := by
  simp only [walkedSection]
  constructor
  · intro h
    split at h
    · rename_i v' item' hfound
      obtain ⟨rfl, rfl⟩ := Prod.mk.inj (Option.some.inj h)
      obtain ⟨v', hopen, hfound⟩ := bind_eq_ok.mp hfound
      obtain ⟨_, hheader, hfound⟩ := bind_eq_ok.mp hfound
      obtain ⟨count, hcount, hfound⟩ := bind_eq_ok.mp hfound
      obtain ⟨found, hitem, hfound⟩ := bind_eq_ok.mp hfound
      obtain ⟨rfl, rfl⟩ := Prod.mk.inj (Except.ok.inj hfound)
      exact ⟨hopen, hheader, count, hcount, hitem⟩
    · cases h
  · rintro ⟨hopen, hheader, count, hcount, hitem⟩
    simp only [hopen, hheader, hcount, hitem, bind_ok]
    rfl

theorem walkedSection_spec {call : VerifyCall} {v : Verifier} {item : MapItem}
    (h : walkedSection image call = some (v, item)) :
    v.image = image ∧ v.HandleSpanOk item.offset item.size := by
  obtain ⟨hopen, _, count, _, hitem⟩ := walkedSection_eq_some.mp h
  exact ⟨(post_of_ok (wp_openVerifier _ _ _) hopen).2.1, Verifier.handleSpanOk_of_handleItem hitem⟩

/-- The scratch `CheckMap` leaves is the one its only section walk leaves. -/
theorem checkMap_scratch (v : Verifier) (st : VerifyImageState) :
    (v.checkMap st).2 =
      match v.readMapCount >>= fun count => v.handleItem count 0 {} with
      | .ok (some item) => (v.verifyMethodHandleSection item.offset item.size st).2
      | _ => st := by
  have htail (cursor : MapCursor) (st : VerifyImageState) :
      ((Scratch.lift (v.checkRequiredSections cursor.usedBits) >>= fun _ =>
        (pure cursor.methodHandleCount : Scratch VerifyImageState Nat)) st).2 = st := by
    rw [Scratch.lift_bind_apply]
    cases v.checkRequiredSections cursor.usedBits <;> rfl
  rw [Verifier.checkMap, Scratch.lift_bind_apply]
  cases v.readMapCount with
  | error e => rfl
  | ok count =>
    rw [Scratch.andThen_ok, Scratch.bind_scratch htail, Verifier.checkMapItems_scratch, bind_ok]

/-- The scratch `VerifyDex` leaves is the one its section walk leaves. -/
theorem verifyDex_scratch (call : VerifyCall) (st : VerifyImageState) :
    (verifyDex image call.checkInsns call.headerOff st).2 =
      match walkedSection image call with
      | some (v, item) =>
        (v.verifyMethodHandleSection item.offset item.size (st.seed image.length)).2
      | none => st.seed image.length := by
  change (Verifier.verifyPhases image call.headerOff call.checkInsns (st.seed image.length)).2 = _
  generalize st.seed image.length = seeded
  simp only [Verifier.verifyPhases, Scratch.lift_bind_apply, walkedSection]
  cases openVerifier image call.headerOff call.checkInsns with
  | error e => rfl
  | ok v =>
    simp only [Scratch.andThen_ok, Scratch.lift_bind_apply, bind_ok]
    cases v.checkHeader with
    | error e => rfl
    | ok _ =>
      rw [Scratch.andThen_ok, Scratch.bind_scratch fun _ _ => rfl, checkMap_scratch, bind_ok]
      cases v.readMapCount with
      | error e => rfl
      | ok count =>
        simp only [bind_ok]
        cases v.handleItem count 0 {} with
        | error e => rfl
        | ok found => cases found <;> rfl

/-- Every memo entry of a run was recorded by the walk of an earlier slice. -/
theorem recordedBy_afterCalls (calls : List VerifyCall) :
    ∀ entry ∈ (afterCalls image calls).walkedMethodHandles, RecordedBy image calls entry := by
  induction calls using List.reverseRecOn with
  | nil => simp [afterCalls]
  | append_singleton calls call ih =>
    have hold : ∀ entry ∈ ((afterCalls image calls).seed image.length).walkedMethodHandles,
        RecordedBy image (calls ++ [call]) entry := by
      intro entry hentry
      rw [VerifyImageState.walked_seed] at hentry
      obtain ⟨earlier, hmem, hrest⟩ := ih entry hentry
      exact ⟨earlier, by simp [hmem], hrest⟩
    intro entry hentry
    have hafter : afterCalls image (calls ++ [call]) =
        (verifyDex image call.checkInsns call.headerOff (afterCalls image calls)).2 := by
      simp [afterCalls]
    rw [hafter, verifyDex_scratch] at hentry
    cases hwalked : walkedSection image call with
    | none =>
      rw [hwalked] at hentry
      exact hold entry hentry
    | some found =>
      obtain ⟨v, item⟩ := found
      rw [hwalked] at hentry
      rcases Verifier.mem_memo_of_section (walkedSection_spec hwalked).2 hentry with hentry | hnew
      · exact hold entry hentry
      · exact ⟨call, by simp, v, item, hwalked, hnew⟩

/-- A section is the same list of items where its bytes are the same. -/
theorem sectionHandles_congr {v v' : Verifier} {off count : Nat} (himage : v.image = image)
    (himage' : v'.image = image)
    (h : slice image (v.offsetToPtr off) (count * MethodHandle.bytes) =
      slice image (v'.offsetToPtr off) (count * MethodHandle.bytes)) :
    v.sectionHandles off count = v'.sectionHandles off count := by
  apply List.map_congr_left
  intro i hi
  rw [List.mem_range] at hi
  have hview (w : Verifier) (hw : w.image = image) : w.handleAt off i =
      methodHandleAt (slice image (w.offsetToPtr off) (count * 8)) (i * 8) := by
    simp only [Verifier.handleAt, methodHandleAt, Verifier.tableAt, MethodHandle.bytes, hw,
      Verifier.offsetToPtr]
    rw [u2At_slice _ _ _ (by omega), u2At_slice _ _ _ (by omega)]
    simp only [Nat.add_assoc]
  rw [hview v himage, hview v' himage']
  exact congrArg (fun bytes => methodHandleAt bytes (i * 8)) h

/-- In a run whose slices agree on the sections they share, the memo changes no
verdict: while the budget lasts, each slice gets the verdict of a fresh state,
which is whether every item of its own section is fine. -/
theorem memo_changes_no_verdict {calls : List VerifyCall}
    (hagree : SharedSectionsAgree image calls) :
    ∀ pre call, pre ++ [call] <+: calls → ∀ v item, walkedSection image call = some (v, item) →
      WithinBudget ((afterCalls image pre).seed image.length) item →
      (sectionVerdict image (afterCalls image pre) call = some true ↔
        ∀ mh ∈ v.sectionHandles item.offset item.size, v.HandleOk mh) ∧
      sectionVerdict image (afterCalls image pre) call = sectionVerdict image {} call := by
  intro pre call hpre v item hwalked hbudget
  obtain ⟨himage, hspan⟩ := walkedSection_spec hwalked
  have hverdict (st : VerifyImageState) : sectionVerdict image st call =
      some (v.verifyMethodHandleSection item.offset item.size (st.seed image.length)).1.isOk := by
    rw [sectionVerdict, hwalked]
    rfl
  have hshared : (v.verifyMethodHandleSection item.offset item.size
      ((afterCalls image pre).seed image.length)).1.isOk = true ↔
        ∀ mh ∈ v.sectionHandles item.offset item.size, v.HandleOk mh := by
    cases hlookup : ((afterCalls image pre).seed image.length).walkedMethodHandles.lookup
        (item.offset, item.size) with
    | none => exact Verifier.section_isOk_of_miss hspan hlookup (hbudget hlookup)
    | some needs =>
      rw [Verifier.section_isOk_of_hit hlookup]
      have hmem : ((item.offset, item.size), needs) ∈
          (afterCalls image pre).walkedMethodHandles := by
        obtain ⟨_, _, hsplit, _⟩ := List.lookup_eq_some_iff.mp hlookup
        rw [VerifyImageState.walked_seed] at hsplit
        simp [hsplit]
      obtain ⟨earlier, hearlier, v', item', hwalked', hall, hentry⟩ :=
        recordedBy_afterCalls pre _ hmem
      obtain ⟨hkey, rfl⟩ := Prod.mk.inj hentry
      obtain ⟨hoff, hsize⟩ := Prod.mk.inj hkey
      have hbytes := hagree pre call hpre earlier hearlier v item v' item' hwalked hwalked' hoff hsize
      have hsame : v.sectionHandles item.offset item.size =
          v'.sectionHandles item'.offset item'.size := by
        rw [← hoff, ← hsize]
        exact sectionHandles_congr himage (walkedSection_spec hwalked').1 hbytes
      rw [← hsame] at hall ⊢
      exact fits_needsOf fun mh hmh => (hall mh hmh).1
  have hfresh : (v.verifyMethodHandleSection item.offset item.size
      (VerifyImageState.seed {} image.length)).1.isOk = true ↔
        ∀ mh ∈ v.sectionHandles item.offset item.size, v.HandleOk mh := by
    have hseed : VerifyImageState.seed {} image.length =
        { methodHandleEntriesLeft := image.length / MethodHandle.bytes + 1 } := rfl
    apply Verifier.section_isOk_of_miss hspan
    · rfl
    · have hin := v.range.inImage
      have hlen : v.image.length = image.length := congrArg List.length himage
      simp only [Verifier.HandleSpanOk, MethodHandle.bytes] at hspan
      simp only [hseed, MethodHandle.bytes]
      omega
  rw [hverdict, hverdict]
  refine ⟨by simpa using hshared, ?_⟩
  rw [Bool.eq_iff_iff.mpr (hshared.trans hfresh.symm)]

end Slices

/-- Two version 35 dexes of 180 bytes with one method handle each: a field
getter in the first, a handle of type `second` in the second. -/
def twinDexes (second : UInt8) : Memory := dex 0 ++ dex second
where
  mapItem (type off : Nat) : Memory :=
    [.ofNat type, .ofNat (type / 256), 0, 0, 1, 0, 0, 0, .ofNat off, 0, 0, 0]
  dex (handleType : UInt8) : Memory :=
    [0x64, 0x65, 0x78, 0x0a, 0x30, 0x33, 0x35, 0x00] ++ List.replicate 24 0 ++ [180, 0, 0, 0] ++
      [112, 0, 0, 0] ++ [0x78, 0x56, 0x34, 0x12] ++ List.replicate 8 0 ++ [128, 0, 0, 0] ++
      List.replicate 24 0 ++ [1, 0, 0, 0, 112, 0, 0, 0] ++ List.replicate 24 0 ++
      List.replicate 8 0 ++ [handleType, 0, 0, 0, 0, 0, 0, 0] ++
      [4, 0, 0, 0] ++ mapItem 0 0 ++ mapItem 4 112 ++ mapItem 8 120 ++ mapItem 0x1000 128

/-- Twins with the same handle agree on the section they share. -/
theorem memo_changes_no_verdict_twinDexes :
    sectionVerdict (twinDexes 0) (afterCalls (twinDexes 0) [⟨0, true⟩]) ⟨180, true⟩ =
      sectionVerdict (twinDexes 0) {} ⟨180, true⟩ := by
  have hbytes (call : VerifyCall) (hcall : call = ⟨0, true⟩ ∨ call = ⟨180, true⟩) :
      (walkedSection (twinDexes 0) call).map (fun (v, item) =>
        (item.size, slice (twinDexes 0) (v.offsetToPtr item.offset) (item.size * 8))) =
      some (1, List.replicate 8 0) := by
    rcases hcall with rfl | rfl <;> decide +kernel
  have hagree : SharedSectionsAgree (twinDexes 0) [⟨0, true⟩, ⟨180, true⟩] := by
    intro pre call hpre earlier hearlier v item v' item' hwalked hwalked' hoff hsize
    have hmem : call ∈ [(⟨0, true⟩ : VerifyCall), ⟨180, true⟩] := hpre.subset (by simp)
    have hmem' : earlier ∈ [(⟨0, true⟩ : VerifyCall), ⟨180, true⟩] :=
      hpre.subset (by simp [hearlier])
    have hnow := hbytes call (by simpa using hmem)
    have hthen := hbytes earlier (by simpa using hmem')
    rw [hwalked] at hnow
    rw [hwalked'] at hthen
    simp only [Option.map_some, ← hoff, ← hsize] at hthen
    exact (Prod.mk.inj (Option.some.inj (hnow.trans hthen.symm))).2
  have hsecond := hbytes ⟨180, true⟩ (.inr rfl)
  cases hwalked : walkedSection (twinDexes 0) ⟨180, true⟩ with
  | none => simp [hwalked] at hsecond
  | some found =>
    obtain ⟨v, item⟩ := found
    rw [hwalked] at hsecond
    have hsize : item.size = 1 := (Prod.mk.inj (Option.some.inj hsecond)).1
    have hbudget : 1 ≤ ((afterCalls (twinDexes 0) [⟨0, true⟩]).seed
        (twinDexes 0).length).methodHandleEntriesLeft := by
      decide +kernel
    exact (memo_changes_no_verdict hagree [⟨0, true⟩] ⟨180, true⟩ (List.prefix_refl _) v item hwalked
      fun _ => hsize ▸ hbudget).2

/-- The memo of the first dex makes the second one's section pass, although its
handle is of no known type. -/
theorem twinDexes_memo_differs :
    sectionVerdict (twinDexes 9) (afterCalls (twinDexes 9) [⟨0, true⟩]) ⟨180, true⟩ = some true ∧
      sectionVerdict (twinDexes 9) {} ⟨180, true⟩ = some false := by
  decide +kernel

end Dexllm
