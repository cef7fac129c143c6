import Dexllm.Verifier.Code

/-!
The validators below a class_def read only inside the image. An accepted type
list and an accepted class_data also have the contents later passes rely on.
-/

namespace Dexllm

open Guarded Bytes Leb128

/-- The type list at address `p` lies before `stop` and names only the first
`types` types. -/
structure TypeListOk (mem : Memory) (stop types p : Nat) : Prop where
  span : p + 4 + u4At mem p * 2 ≤ stop
  index : ∀ i, i < u4At mem p → u2At mem (p + 4 + i * 2) < types

/-- `MemberList extra mem p n members q last`: the `n` encoded members from `p`
end at `q` with running index `last`. A member is an index delta, its access
flags and `extra` more numbers; `members` has each index with the last of its
numbers. -/
inductive MemberList (extra : Bool) (mem : Memory) (p : Nat) :
    Nat → List (Nat × Nat) → Nat → Nat → Prop where
  | nil : MemberList extra mem p 0 [] p 0
  | field {n q last diff q1 access q2 : Nat} {members : List (Nat × Nat)} (hextra : extra = false)
      (hlist : MemberList extra mem p n members q last) (hdiff : UlebAt mem q diff q1)
      (haccess : UlebAt mem q1 access q2) :
      MemberList extra mem p (n + 1) (members ++ [((last + diff) % 2 ^ 32, access)]) q2
        ((last + diff) % 2 ^ 32)
  | method {n q last diff q1 access q2 codeOff q3 : Nat} {members : List (Nat × Nat)}
      (hextra : extra = true) (hlist : MemberList extra mem p n members q last)
      (hdiff : UlebAt mem q diff q1) (haccess : UlebAt mem q1 access q2)
      (hcode : UlebAt mem q2 codeOff q3) :
      MemberList extra mem p (n + 1) (members ++ [((last + diff) % 2 ^ 32, codeOff)]) q3
        ((last + diff) % 2 ^ 32)

/-- The class_data at `p`: its four counts and its four lists. -/
structure ClassData (mem : Memory) (p : Nat)
    (staticFields instanceFields directMethods virtualMethods : List (Nat × Nat)) : Prop where
  layout : ∃ p1 p2 p3 p4 q1 q2 q3 q4 l1 l2 l3 l4,
    UlebAt mem p staticFields.length p1 ∧ UlebAt mem p1 instanceFields.length p2 ∧
    UlebAt mem p2 directMethods.length p3 ∧ UlebAt mem p3 virtualMethods.length p4 ∧
    MemberList false mem p4 staticFields.length staticFields q1 l1 ∧
    MemberList false mem q1 instanceFields.length instanceFields q2 l2 ∧
    MemberList true mem q2 directMethods.length directMethods q3 l3 ∧
    MemberList true mem q3 virtualMethods.length virtualMethods q4 l4

theorem MemberList.length_eq {extra : Bool} {mem : Memory} {p n q last : Nat}
    {members : List (Nat × Nat)} (h : MemberList extra mem p n members q last) :
    members.length = n := by
  induction h with
  | nil => rfl
  | field _ _ _ _ ih => simp [ih]
  | method _ _ _ _ _ ih => simp [ih]

/-- A width computed from a code unit covers what the decoder of its format
reads. -/
theorem wp_decodeInstruction {mem : Memory} {p : Nat}
    (h : p + 2 * getWidthFromFormat (getFormatFromOpcode (opcodeFromBytecode (u2At mem p))) ≤
      mem.length) : wp (decodeInstruction mem p) fun _ => True := by
  have hfirst : p + 2 ≤ mem.length := by
    have hpos : ∀ f, 1 ≤ getWidthFromFormat f := fun f => by cases f <;> decide
    have := hpos (getFormatFromOpcode (opcodeFromBytecode (u2At mem p)))
    omega
  have hregs (format : InstructionFormat) (inst vB regList : Nat) :
      wp (decodeRegList format inst vB regList) fun _ => True := by
    unfold decodeRegList
    split
    all_goals first | trivial | (split <;> trivial)
  simp only [decodeInstruction, unitAt, wp_bind, wp_readU2]
  refine ⟨by omega, ?_⟩
  simp only [Nat.mul_zero, Nat.add_zero] at h ⊢
  generalize getFormatFromOpcode (opcodeFromBytecode (u2At mem p)) = format at h ⊢
  cases format <;> simp only [getWidthFromFormat] at h <;>
    simp only [wp_bind, wp_readU2, wp_pure, fetchU4, fetchU8, unitAt, hregs, and_true] <;> omega

/-- The width of the instruction at `p`, once the units it needs are known to be
there. -/
theorem wp_getWidthFromBytecode {mem : Memory} {p : Nat}
    (h : p + 2 * headerUnits (u2At mem p) ≤ mem.length) :
    wp (getWidthFromBytecode mem p) fun w => isPayload (u2At mem p) = false →
      w = getWidthFromFormat (getFormatFromOpcode (opcodeFromBytecode (u2At mem p))) := by
  have hfirst : p + 2 ≤ mem.length := by
    have : 1 ≤ headerUnits (u2At mem p) := by unfold headerUnits; split <;> (try split) <;> omega
    omega
  simp only [getWidthFromBytecode, unitAt, wp_bind, wp_readU2, Nat.mul_zero, Nat.add_zero]
  refine ⟨hfirst, ?_⟩
  generalize u2At mem p = first at h ⊢
  simp only [wp_ite, wp_bind, wp_readU2, wp_pure, fetchU4, unitAt]
  refine ⟨fun hpacked => ?_, fun hpacked => ⟨fun hsparse => ?_, fun hsparse =>
    ⟨fun harray => ?_, fun _ => by simp⟩⟩⟩
  · subst hpacked
    simp only [headerUnits, true_or, if_true] at h
    exact ⟨by omega, by simp [isPayload]⟩
  · subst hsparse
    simp only [headerUnits, or_true, if_true] at h
    exact ⟨by omega, by simp [isPayload]⟩
  · subst harray
    simp only [headerUnits, hpacked, hsparse, or_self, if_false, if_true] at h
    exact ⟨by omega, by omega, by omega, by simp [isPayload]⟩

namespace Verifier

variable {v : Verifier}

theorem wp_verifyTypeList {off : Nat} {who : String} :
    wp (v.verifyTypeList off who) fun _ => off ≠ 0 →
      TypeListOk v.image v.endOfFile v.header.typeIdsSize (v.offsetToPtr off) := by
  have hin := v.endOfFile_le
  unfold verifyTypeList
  rw [wp_ite]
  refine ⟨fun hoff hne => absurd hoff hne, fun _ => ?_⟩
  simp only [wp_bind, wp_readU4]
  apply wp_checkListSize (by decide)
  intro _ hsize
  refine ⟨by omega, ?_⟩
  apply wp_checkListSize (by decide)
  intro _ hspan
  refine wp_mono (wp_forUpTo fun i hi => ?_) fun _ hindex _ => ⟨hspan, hindex⟩
  simp only [wp_bind, wp_readU2, wp_failIf]
  exact ⟨by omega, fun h => Nat.lt_of_not_le h⟩

theorem wp_verifyRegisters (registersSize opcode : Nat) (d : Instruction) :
    wp (verifyRegisters registersSize opcode d) fun _ => True := by
  simp only [verifyRegisters, wp_bind, wp_failIf, wp_onlyIf, implies_true, and_true]
  intro _ _ _ _ _ _ _
  refine wp_mono (@wp_forUpTo _ _ (fun _ => True) fun k _ => ?_) fun _ _ => trivial
  simp

theorem wp_verifyIndices (opcode : Nat) (d : Instruction) :
    wp (v.verifyIndices opcode d) fun _ => True := by
  simp only [verifyIndices, wp_bind, wp_failIf]
  intro _
  cases getIndexTypeFromOpcode opcode <;> simp

theorem wp_verifyTarget (insnsSize k opcode : Nat) (d : Instruction) :
    wp (verifyTarget insnsSize k opcode d) fun _ => True := by
  unfold verifyTarget
  cases branchUnits (getFormatFromOpcode opcode) d <;> simp

/-- `VerifyInsns` reads only inside the instructions it was given. -/
theorem wp_verifyInsnsFrom {insns insnsSize registersSize : Nat}
    (hspan : insns + insnsSize * 2 ≤ v.image.length) (fuel k : Nat) :
    wp (v.verifyInsnsFrom insns insnsSize registersSize fuel k) fun _ => True := by
  induction fuel generalizing k with
  | zero => trivial
  | succ fuel ih =>
    unfold verifyInsnsFrom
    rw [wp_ite]
    refine ⟨fun hk => ?_, fun _ => trivial⟩
    simp only [wp_bind, wp_readU2, wp_failIf, wp_onlyIf]
    refine ⟨by omega, fun hheader => ?_⟩
    refine wp_mono (wp_getWidthFromBytecode (by omega)) fun w hw hroom => ?_
    refine ⟨fun hpayload => ?_, fun _ => ih (k + w)⟩
    have hwidth := hw hpayload
    simp only [verifyInsn, wp_bind]
    refine wp_mono (wp_decodeInstruction (by omega)) fun d _ => ?_
    refine wp_mono (wp_verifyRegisters _ _ d) fun _ _ => ?_
    refine wp_mono (wp_verifyIndices _ d) fun _ _ => ?_
    refine wp_mono (wp_verifyTarget _ _ _ d) fun _ _ => ?_
    exact ih (k + w)

theorem wp_verifyHandler (insnsSize p : Nat) :
    wp (v.verifyHandler insnsSize p) fun _ => True := by
  simp only [verifyHandler, wp_bind, wp_failIf, wp_orFail]
  refine wp_mono wp_readSleb fun r hr pair hpair _ => ?_
  have hpairs : wp (loop pair.1.natAbs pair.2 fun _ p => v.verifyHandlerPair insnsSize p)
      fun _ => True := by
    refine wp_loop (fun _ _ => True) trivial fun j q _ _ => ?_
    simp only [verifyHandlerPair, wp_bind, wp_failIf, wp_pure]
    apply wp_readUlebOrFail
    intro _ _ _ _ _ _
    apply wp_readUlebOrFail
    intro _ _ _ _ _ _
    trivial
  refine wp_mono hpairs fun q _ => ?_
  rw [wp_ite]
  refine ⟨fun _ => ?_, fun _ => trivial⟩
  simp only [wp_bind, wp_failIf, wp_pure]
  apply wp_readUlebOrFail
  intro _ _ _ _ _ _
  trivial

theorem wp_verifyHandlers (insnsSize handlersBase handlersSize p : Nat) :
    wp (v.verifyHandlers insnsSize handlersBase handlersSize p) fun _ => True := by
  simp only [verifyHandlers, wp_bind, wp_pure]
  refine wp_loop (fun _ _ => True) trivial fun j s _ _ => ?_
  simp only [wp_bind, wp_pure]
  exact wp_verifyHandler insnsSize s.1

theorem wp_skipTryPadding (insnsEnd insnsSize : Nat) :
    wp (v.skipTryPadding insnsEnd insnsSize) fun _ => True := by
  have hin := v.endOfFile_le
  unfold skipTryPadding
  rw [wp_ite]
  refine ⟨fun _ => ?_, fun _ => trivial⟩
  simp only [wp_bind, wp_readU2, wp_failIf, wp_pure]
  apply wp_checkListSize (by decide)
  intro _ hspan
  exact ⟨by omega, fun _ => trivial⟩

theorem wp_verifyTries (insnsEnd insnsSize triesSize : Nat) :
    wp (v.verifyTries insnsEnd insnsSize triesSize) fun _ => True := by
  have hin := v.endOfFile_le
  simp only [verifyTries, wp_bind, wp_failIf, TryBlock.bytes, wp_pure]
  refine wp_mono (wp_skipTryPadding insnsEnd insnsSize) fun tryItems _ => ?_
  apply wp_checkListSize (by decide)
  intro _ hspan
  apply wp_readUlebOrFail
  intro handlersSize p _ _ _ _
  refine wp_mono (wp_verifyHandlers _ _ _ _) fun offsets _ => ?_
  refine wp_loop (fun _ _ => True) trivial fun t lastAddr ht _ => ?_
  simp only [verifyTryItem, wp_bind, wp_read, wp_failIf, wp_pure, TryBlock.bytes]
  exact ⟨by omega, fun _ _ _ _ => trivial⟩

/-- `VerifyCodeItem` reads only inside the image. -/
theorem wp_verifyCodeItem {off : Nat} : wp (v.verifyCodeItem off) fun _ => True := by
  have hin := v.endOfFile_le
  simp only [verifyCodeItem, wp_bind, wp_read, wp_failIf, wp_onlyIf, Code.bytes]
  apply wp_checkListSize (by decide)
  intro _ hcode
  refine ⟨by omega, fun _ _ => ?_⟩
  apply wp_checkListSize (by decide)
  intro _ hinsns
  have htries (n m k : Nat) : (m ≠ 0 → wp (v.verifyTries n k m) fun _ => True) ∧
      (¬m ≠ 0 → True) := ⟨fun _ => wp_verifyTries n k m, fun _ => trivial⟩
  refine ⟨fun _ => ?_, fun _ => htries _ _ _⟩
  exact wp_mono (wp_verifyInsnsFrom (by omega) _ 0) fun _ _ => htries _ _ _

/-- A walked field list is the encoded list at its start, and `check` accepted
every index. -/
theorem wp_walkFields {bad : String} {check : Nat → Run Unit} {post : Nat → Prop}
    (hcheck : ∀ idx, idx < v.header.fieldIdsSize → wp (check idx) fun _ => post idx)
    (n p : Nat) :
    wp (v.walkFields bad check n p) fun q => ∃ members last,
      MemberList false v.image p n members q last ∧
        ∀ m ∈ members, m.1 < v.header.fieldIdsSize ∧ post m.1 := by
  simp only [walkFields, wp_bind, wp_pure]
  refine wp_mono (wp_loop (fun j s => ∃ members,
    MemberList false v.image p j members s.1 s.2 ∧
      ∀ m ∈ members, m.1 < v.header.fieldIdsSize ∧ post m.1) ⟨[], .nil, by simp⟩ ?_) ?_
  · rintro j ⟨q, idx⟩ _ ⟨members, hlist, hall⟩
    simp only [wp_bind, wp_failIf, wp_pure]
    apply wp_readUlebOrFail
    intro diff q1 hdiff _ _
    apply wp_readUlebOrFail
    intro access q2 haccess _ _ hidx
    refine wp_mono (hcheck _ (by omega)) fun _ hpost => ?_
    refine ⟨_, .field rfl hlist hdiff haccess, ?_⟩
    intro m hm
    rcases List.mem_append.mp hm with hm | hm
    · exact hall m hm
    · obtain rfl := List.mem_singleton.mp hm
      exact ⟨by omega, hpost⟩
  · rintro ⟨q, last⟩ ⟨members, hlist, hall⟩
    exact ⟨members, last, hlist, hall⟩

theorem wp_walkMethods {bad : String} {check : Nat → Nat → Run Unit} {post : Nat → Nat → Prop}
    (hcheck : ∀ idx codeOff, idx < v.header.methodIdsSize →
      wp (check idx codeOff) fun _ => post idx codeOff) (n p : Nat) :
    wp (v.walkMethods bad check n p) fun q => ∃ members last,
      MemberList true v.image p n members q last ∧
        ∀ m ∈ members, m.1 < v.header.methodIdsSize ∧ post m.1 m.2 := by
  simp only [walkMethods, wp_bind, wp_pure]
  refine wp_mono (wp_loop (fun j s => ∃ members,
    MemberList true v.image p j members s.1 s.2 ∧
      ∀ m ∈ members, m.1 < v.header.methodIdsSize ∧ post m.1 m.2) ⟨[], .nil, by simp⟩ ?_) ?_
  · rintro j ⟨q, idx⟩ _ ⟨members, hlist, hall⟩
    simp only [wp_bind, wp_failIf, wp_pure]
    apply wp_readUlebOrFail
    intro diff q1 hdiff _ _
    apply wp_readUlebOrFail
    intro access q2 haccess _ _
    apply wp_readUlebOrFail
    intro codeOff q3 hcode _ _ hidx
    refine wp_mono (hcheck _ codeOff (by omega)) fun _ hpost => ?_
    refine ⟨_, .method rfl hlist hdiff haccess hcode, ?_⟩
    intro m hm
    rcases List.mem_append.mp hm with hm | hm
    · exact hall m hm
    · obtain rfl := List.mem_singleton.mp hm
      exact ⟨by omega, hpost⟩
  · rintro ⟨q, last⟩ ⟨members, hlist, hall⟩
    exact ⟨members, last, hlist, hall⟩

/-- A walked class_data item is the encoded item at its start, and every member
index was checked. -/
theorem wp_walkClassData {badField badMethod : String} {checkField : Nat → Run Unit}
    {checkMethod : Nat → Nat → Run Unit} {fieldPost : Nat → Prop} {methodPost : Nat → Nat → Prop}
    (hfield : ∀ idx, idx < v.header.fieldIdsSize → wp (checkField idx) fun _ => fieldPost idx)
    (hmethod : ∀ idx codeOff, idx < v.header.methodIdsSize →
      wp (checkMethod idx codeOff) fun _ => methodPost idx codeOff) (p : Nat) :
    wp (v.walkClassData badField badMethod checkField checkMethod p) fun _ =>
      ∃ sf inf dm vm, ClassData v.image p sf inf dm vm ∧
        (∀ m ∈ sf ++ inf, m.1 < v.header.fieldIdsSize ∧ fieldPost m.1) ∧
        (∀ m ∈ dm ++ vm, m.1 < v.header.methodIdsSize ∧ methodPost m.1 m.2) := by
  simp only [walkClassData, wp_bind, wp_pure]
  apply wp_readUlebOrFail
  intro n1 p1 hu1 _ _
  apply wp_readUlebOrFail
  intro n2 p2 hu2 _ _
  apply wp_readUlebOrFail
  intro n3 p3 hu3 _ _
  apply wp_readUlebOrFail
  intro n4 p4 hu4 _ _
  refine wp_mono (wp_walkFields hfield n1 p4) fun q1 h1 => ?_
  refine wp_mono (wp_walkFields hfield n2 q1) fun q2 h2 => ?_
  refine wp_mono (wp_walkMethods hmethod n3 q2) fun q3 h3 => ?_
  refine wp_mono (wp_walkMethods hmethod n4 q3) fun q4 h4 => ?_
  obtain ⟨sf, l1, hsf, hsfall⟩ := h1
  obtain ⟨inf, l2, hinf, hinfall⟩ := h2
  obtain ⟨dm, l3, hdm, hdmall⟩ := h3
  obtain ⟨vm, l4, hvm, hvmall⟩ := h4
  obtain rfl := hsf.length_eq
  obtain rfl := hinf.length_eq
  obtain rfl := hdm.length_eq
  obtain rfl := hvm.length_eq
  refine ⟨sf, inf, dm, vm,
    ⟨p1, p2, p3, p4, q1, q2, q3, q4, l1, l2, l3, l4, hu1, hu2, hu3, hu4, hsf, hinf, hdm, hvm⟩,
    ?_, ?_⟩
  · intro m hm
    exact (List.mem_append.mp hm).elim (hsfall m) (hinfall m)
  · intro m hm
    exact (List.mem_append.mp hm).elim (hdmall m) (hvmall m)

/-- An accepted class_data names methods of the table, each without code or with
an accepted code item. -/
theorem wp_verifyClassData {off : Nat} :
    wp (v.verifyClassData off) fun _ => v.offsetToPtr off < v.endOfFile ∧
      ∃ sf inf dm vm, ClassData v.image (v.offsetToPtr off) sf inf dm vm ∧
        ∀ m ∈ dm ++ vm, m.1 < v.header.methodIdsSize ∧
          (m.2 ≠ 0 → v.verifyCodeItem m.2 = .ok ()) := by
  simp only [verifyClassData, wp_bind, wp_failIf]
  intro hoff
  have hcode (idx codeOff : Nat) (_ : idx < v.header.methodIdsSize) :
      wp (onlyIf (codeOff ≠ 0) (v.verifyCodeItem codeOff)) fun _ =>
        codeOff ≠ 0 → v.verifyCodeItem codeOff = .ok () := by
    rw [wp_onlyIf]
    refine ⟨fun _ => ?_, fun hzero hne => absurd hne hzero⟩
    have hrun := @wp_verifyCodeItem v codeOff
    cases hcheck : v.verifyCodeItem codeOff with
    | ok _ => exact fun _ => rfl
    | error e =>
      rw [hcheck] at hrun
      cases e with
      | oob => exact hrun
      | reject => trivial
      | thrown => trivial
  have hfield (idx : Nat) (_ : idx < v.header.fieldIdsSize) :
      wp (pure () : Run Unit) fun _ => True := trivial
  refine wp_mono (wp_walkClassData hfield hcode _) fun _ h => ⟨by omega, ?_⟩
  obtain ⟨sf, inf, dm, vm, hdata, -, hmethods⟩ := h
  exact ⟨sf, inf, dm, vm, hdata, hmethods⟩

end Verifier

end Dexllm
