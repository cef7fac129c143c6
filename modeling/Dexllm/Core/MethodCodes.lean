import Dexllm.Core.DexItemSpecs
import Dexllm.Flow.Insns

/-!
The code pointers `InitBaseCache` keeps for the methods of a dex. Behind the
strict verifier each leads to an accepted code item.
-/

namespace Dexllm

open Guarded Bytes Leb128

/-- `n` encoded methods of `InitBaseCache`: the cursor after them, and
`method_codes` with their code items. -/
def readMethodCodes (r : Reader) (n p : Nat) (codes : List (Option Nat)) :
    Run (Nat × List (Option Nat)) := do
  let (p, _, codes) ← loop n (p, 0, codes) fun _ (p, idx, codes) => do
    let (diff, p) ← readULeb128 r.image p
    let (_, p) ← readULeb128 r.image p
    let (codeOff, p) ← readULeb128 r.image p
    let idx := (idx + diff) % 2 ^ 32
    if codeOff ≠ 0 then do
      let code ← r.dataPtr codeOff Code.bytes
      let _ ← vectorAt codes idx
      pure (p, idx, codes.set idx (some code))
    else pure (p, idx, codes)
  pure (p, codes)

/-- The code items of a class_data item. -/
def readClassCodes (r : Reader) (off : Nat) (codes : List (Option Nat)) :
    Run (List (Option Nat)) := do
  let p ← r.dataPtr off 1
  let (staticFields, p) ← readULeb128 r.image p
  let (instanceFields, p) ← readULeb128 r.image p
  let (directMethods, p) ← readULeb128 r.image p
  let (virtualMethods, p) ← readULeb128 r.image p
  let p ← skipFields r.image staticFields p
  let p ← skipFields r.image instanceFields p
  let (p, codes) ← readMethodCodes r directMethods p codes
  let (_, codes) ← readMethodCodes r virtualMethods p codes
  pure codes

namespace DexItem

variable (item : DexItem)

/-- `method_codes`: the address of the code item of each method that has one. -/
def methodCodes : Run (List (Option Nat)) :=
  loop item.reader.header.classDefsSize (List.replicate item.reader.header.methodIdsSize none)
    fun c codes => do
      let cd ← item.reader.classDef c
      if cd.classDataOff = 0 then pure codes
      else readClassCodes item.reader cd.classDataOff codes

/-- The code item at an address. -/
def codeItem (a : Nat) : CodeItem :=
  let code := codeAt item.reader.image a
  ⟨item.reader.image, a + Code.bytes, code.insnsSize, code.triesSize⟩

/-- `GetMethodCode`. -/
def getMethodCode (codes : List (Option Nat)) (methodIdx : Nat) : Option CodeItem :=
  (codes.getD methodIdx none).map item.codeItem

end DexItem

/-- The class_data of an accepted dex, with the code items of its methods. -/
theorem Accepted.classCodes {image : Memory} {headerOff methodHandleCount : Nat}
    {checkInsns : Bool} {st : VerifyImageState} {v : Verifier} {deviations : List String}
    (h : Accepted image headerOff checkInsns st v methodHandleCount deviations) {c : Nat}
    (hc : c < v.header.classDefsSize)
    (hdata : (classDefAt v.image (v.classDefAddr c)).classDataOff ≠ 0) :
    ∃ sf inf dm vm, ClassData v.image
        (v.offsetToPtr (classDefAt v.image (v.classDefAddr c)).classDataOff) sf inf dm vm ∧
      ∀ m ∈ dm ++ vm, m.1 < v.header.methodIdsSize ∧
        (m.2 ≠ 0 → v.verifyCodeItem m.2 = .ok ()) := by
  have hintra := h.intra
  simp only [Verifier.checkIntraSection, bind_eq_ok] at hintra
  obtain ⟨_, _, _, _, _, _, _, _, _, _, _, hloop, _⟩ := hintra
  refine loop_invariant (fun j _ => ∀ c < j,
    (classDefAt v.image (v.classDefAddr c)).classDataOff ≠ 0 → ∃ sf inf dm vm, ClassData v.image
      (v.offsetToPtr (classDefAt v.image (v.classDefAddr c)).classDataOff) sf inf dm vm ∧
      ∀ m ∈ dm ++ vm, m.1 < v.header.methodIdsSize ∧ (m.2 ≠ 0 → v.verifyCodeItem m.2 = .ok ()))
    hloop ?_ ?_ c hc hdata
  · intro c hc
    omega
  · intro j s s' hj hinv hround c hcj hdata
    rcases Nat.lt_succ_iff_lt_or_eq.mp hcj with hlt | rfl
    · exact hinv c hlt hdata
    · simp only [Verifier.checkIntraClassDef, Verifier.readClassDef_eq h.tablesOk hj, bind_ok,
        bind_eq_ok] at hround
      obtain ⟨_, _, _, _, _, _, _, _, _, hclass, _⟩ := hround
      rw [onlyIf, if_pos hdata] at hclass
      exact (post_of_ok Verifier.wp_verifyClassData hclass).2

/-- Every kept code pointer leads to an accepted code item. -/
def CodesOk (v : Verifier) (codes : List (Option Nat)) : Prop :=
  codes.length = v.header.methodIdsSize ∧
    ∀ i a : Nat, codes[i]? = some (some a) →
      ∃ off, a = v.offsetToPtr off ∧ v.verifyCodeItem off = .ok ()

section Codes

variable {v : Verifier} {r : Reader} {codes : List (Option Nat)}

theorem CodesOk.set (h : CodesOk v codes) {i off : Nat} (hcode : v.verifyCodeItem off = .ok ()) :
    CodesOk v (codes.set i (some (v.offsetToPtr off))) := by
  refine ⟨by rw [List.length_set, h.1], fun j a hj => ?_⟩
  rw [List.getElem?_set] at hj
  split at hj
  · split at hj
    · exact ⟨off, (Option.some.inj (Option.some.inj hj)).symm, hcode⟩
    · cases hj
  · exact h.2 j a hj

theorem wp_readMethodCodes (hr : ReaderOf v r) {n p q last : Nat} {members : List (Nat × Nat)}
    (hlist : MemberList true v.image p n members q last)
    (hcodes : ∀ m ∈ members, m.1 < v.header.methodIdsSize ∧
      (m.2 ≠ 0 → v.verifyCodeItem m.2 = .ok ())) (h : CodesOk v codes) :
    wp (readMethodCodes r n p codes) fun result => result.1 = q ∧ CodesOk v result.2 := by
  have hloop : wp (loop n (p, 0, codes) fun _ (p, idx, codes) => do
      let (diff, p) ← readULeb128 r.image p
      let (_, p) ← readULeb128 r.image p
      let (codeOff, p) ← readULeb128 r.image p
      let idx := (idx + diff) % 2 ^ 32
      if codeOff ≠ 0 then do
        let code ← r.dataPtr codeOff Code.bytes
        let _ ← vectorAt codes idx
        pure (p, idx, codes.set idx (some code))
      else pure (p, idx, codes)) fun s => s.1 = q ∧ s.2.1 = last ∧ CodesOk v s.2.2 := by
    rw [hr.image]
    induction hlist with
    | nil => exact ⟨rfl, rfl, h⟩
    | field hextra => cases hextra
    | @method n q last diff q1 access q2 codeOff q3 members _ _ hdiff haccess hcode ih =>
      rw [loop_succ, wp_bind]
      have hprefix := fun m hm => hcodes m (List.mem_append_left _ hm)
      refine wp_mono (ih hprefix) fun s hs => ?_
      obtain ⟨p', idx', codes'⟩ := s
      obtain ⟨rfl, rfl, hok⟩ := hs
      obtain ⟨hidx, hitem⟩ := hcodes _ (List.mem_append_right _ List.mem_cons_self)
      simp only [readULeb128_eq hdiff, readULeb128_eq haccess, readULeb128_eq hcode, bind_ok,
        wp_ite, wp_bind, wp_pure]
      refine ⟨fun hne => ?_, fun _ => ⟨trivial, trivial, hok⟩⟩
      apply wp_dataPtr hr
      have hlt : (idx' + diff) % 2 ^ 32 < codes'.length := by
        rw [hok.1]
        exact hidx
      rw [vectorAt, List.getElem?_eq_getElem hlt]
      exact ⟨trivial, trivial, hok.set (hitem hne)⟩
  unfold readMethodCodes
  rw [wp_bind]
  refine wp_mono hloop fun s hs => ?_
  exact ⟨hs.1, hs.2.2⟩

theorem wp_readClassCodes (hr : ReaderOf v r) {off : Nat} {sf inf dm vm : List (Nat × Nat)}
    (hdata : ClassData v.image (v.offsetToPtr off) sf inf dm vm)
    (hcodes : ∀ m ∈ dm ++ vm, m.1 < v.header.methodIdsSize ∧
      (m.2 ≠ 0 → v.verifyCodeItem m.2 = .ok ())) (h : CodesOk v codes) :
    wp (readClassCodes r off codes) (CodesOk v) := by
  obtain ⟨p1, p2, p3, p4, q1, q2, q3, q4, l1, l2, l3, l4, hn1, hn2, hn3, hn4, hsf, hinf, hdm,
    hvm⟩ := hdata.layout
  simp only [readClassCodes, wp_bind]
  apply wp_dataPtr hr
  simp only [hr.image, readULeb128_eq hn1, readULeb128_eq hn2, readULeb128_eq hn3,
    readULeb128_eq hn4, skipFields_eq hsf, skipFields_eq hinf, wp_except_ok]
  have hdirect := fun m hm => hcodes m (List.mem_append_left _ hm)
  have hvirtual := fun m hm => hcodes m (List.mem_append_right _ hm)
  refine wp_mono (wp_readMethodCodes hr hdm hdirect h) fun s hs => ?_
  obtain ⟨p, codes'⟩ := s
  obtain ⟨rfl, hok⟩ := hs
  exact wp_mono (wp_readMethodCodes hr hvm hvirtual hok) fun _ hs => hs.2

end Codes

/-- The code pointers of a dex that was verified and loaded. -/
theorem codesOk_of_methodCodes {image : Memory} {headerOff methodHandleCount : Nat}
    {checkInsns : Bool} {st : VerifyImageState} {v : Verifier} {deviations : List String}
    {item : DexItem} {codes : List (Option Nat)}
    (h : Accepted image headerOff checkInsns st v methodHandleCount deviations)
    (hload : loadDexItem image headerOff = .ok item) (hcodes : item.methodCodes = .ok codes) :
    CodesOk v codes := by
  have hr := (loaded_of_loadDexItem h hload).reader
  have hintra := h.intraOk
  have hstart : CodesOk v (List.replicate v.header.methodIdsSize none) := by
    refine ⟨List.length_replicate, fun i a hi => ?_⟩
    rw [List.getElem?_replicate] at hi
    split at hi
    · cases Option.some.inj hi
    · cases hi
  unfold DexItem.methodCodes at hcodes
  rw [hr.header] at hcodes
  refine post_of_ok (wp_loop (fun _ => CodesOk v) hstart ?_) hcodes
  intro c codes hc hok
  simp only [Reader.classDef, wp_bind]
  apply wp_sectionAt hr (hr.header ▸ hintra.tables.classDefs)
  intro _
  rw [hr.header]
  rw [show v.tableAt v.header.classDefsOff c ClassDef.bytes = v.classDefAddr c from rfl, wp_ite]
  refine ⟨fun _ => hok, fun hdata => ?_⟩
  obtain ⟨sf, inf, dm, vm, hlayout, hmembers⟩ := h.classCodes hc hdata
  exact wp_readClassCodes hr hlayout hmembers hok

end Dexllm
