import Dexllm.Verifier.Encoded

/-!
`VerifyEncodedValue` accepts exactly what the grammar of `EncodedValue` allows,
one direction of which is proved here: an accepted value is a value of the
grammar, and its log is the grammar's. The annotations subtree reads only
inside the image.
-/

namespace Dexllm

open Guarded Bytes Leb128 Cursor

namespace Verifier

variable {v : Verifier} {methodHandleCount : Nat}

/-- The bounds the encoded values of this dex are checked against. -/
def valueLimits (v : Verifier) (methodHandleCount : Nat) : ValueLimits where
  stop := v.endOfFile
  protos := v.header.protoIdsSize
  methodHandles := methodHandleCount
  strings := v.header.stringIdsSize
  types := v.header.typeIdsSize
  fields := v.header.fieldIdsSize
  methods := v.header.methodIdsSize

theorem wp_readIndex {arg limit : Nat} {what : String} {p : Nat} :
    wp (v.readIndex arg limit what p) fun r =>
      r = (leValue v.image p (arg + 1), p + (arg + 1)) ∧ arg ≤ 3 ∧
        p + (arg + 1) ≤ v.endOfFile ∧ leValue v.image p (arg + 1) < limit := by
  have hin := v.endOfFile_le
  simp only [readIndex, wp_bind, wp_failIf]
  intro harg
  refine wp_mono (wp_loop (fun j s => s = (leValue v.image p j, p + j) ∧
    (0 < j → p + j ≤ v.endOfFile)) ⟨rfl, by omega⟩ ?_) ?_
  · rintro j ⟨value, q⟩ hj ⟨hs, _⟩
    obtain ⟨rfl, rfl⟩ := Prod.mk.inj hs
    simp only [wp_bind, wp_failIf, wp_readU1, wp_pure]
    intro hend
    refine ⟨by omega, rfl, fun _ => ?_⟩
    omega
  · rintro ⟨value, q⟩ ⟨hs, hend⟩
    obtain ⟨rfl, rfl⟩ := Prod.mk.inj hs
    intro hlimit
    rw [wp_pure]
    exact ⟨rfl, by omega, hend (Nat.succ_pos arg), Nat.lt_of_not_le hlimit⟩

theorem wp_verifyElements {value : ValueWalker} {item : LoggedItem}
    (hvalue : ∀ p, wp (value p) fun r => item p r.1 r.2) (size p : Nat) :
    wp (verifyElements value size p) fun r : Nat × List ValueVisit =>
      Elements item p size r.1 r.2 := by
  refine wp_loop (fun j (r : Nat × List ValueVisit) => Elements item p j r.1 r.2) .nil ?_
  rintro j ⟨q, log⟩ _ hinit
  simp only [wp_bind, wp_pure]
  exact wp_mono (hvalue q) fun r hr => .snoc hinit hr

theorem wp_verifyAnnotationValue {value : ValueWalker} {item : LoggedItem}
    (hvalue : ∀ p, wp (value p) fun r => item p r.1 r.2) (p : Nat) :
    wp ( v.verifyEncodedAnnotation value p) fun r =>
      ∃ typeIdx p1 size p2, UlebAt v.image p typeIdx p1 ∧ typeIdx < v.header.typeIdsSize ∧
        UlebAt v.image p1 size p2 ∧ p2 ≤ v.endOfFile ∧
        Elements (NamedValue v.image (v.valueLimits methodHandleCount) item) p2 size r.1 r.2 := by
  simp only [ verifyEncodedAnnotation, wp_bind, wp_failIf]
  apply wp_readUlebOrFail
  intro typeIdx p1 htype _ _ htypes
  apply wp_readUlebOrFail
  intro size p2 hsize _ hp2
  have hnamed (q : Nat) : wp (do
      let name ← v.readUlebOrFail q "encoded_annotation bad name"
      failIf (v.header.stringIdsSize ≤ name.1) "encoded_annotation name idx"
      value name.2) fun r => NamedValue v.image (v.valueLimits methodHandleCount) item q r.1 r.2 := by
    simp only [wp_bind, wp_failIf]
    apply wp_readUlebOrFail
    intro nameIdx q1 hname _ hq1 hlimit
    exact wp_mono (hvalue q1) fun r hr => ⟨nameIdx, q1, hname, hq1, Nat.lt_of_not_le hlimit, hr⟩
  refine wp_mono (wp_verifyElements hnamed size p2) fun r hr => ?_
  exact ⟨typeIdx, p1, size, p2, htype, by omega, hsize, hp2, hr⟩

/-- Every arm of `VerifyEncodedValue` accepts a payload of its type. -/
theorem wp_verifyPayload {value : ValueWalker} {item : LoggedItem}
    (hvalue : ∀ p, wp (value p) fun r => item p r.1 r.2) (type arg p : Nat)
    (hp : p ≤ v.endOfFile) :
    wp (v.verifyPayload methodHandleCount value type arg p) fun r =>
      Payload v.image (v.valueLimits methodHandleCount) item type arg p r.1 r.2.1 r.2.2 := by
  have hplain (n : Nat) (hwidth : plainWidth type arg = some n) :
      wp (do let q ← v.skipPayload p n; pure (q, 0, [])) fun r =>
        Payload v.image (v.valueLimits methodHandleCount) item type arg p r.1 r.2.1 r.2.2 := by
    simp only [skipPayload, wp_bind, wp_failIf, wp_pure]
    intro hroom
    exact .plain hwidth (show p + n ≤ v.endOfFile by omega)
  have hnone (hwidth : plainWidth type arg = some 0) :
      Payload v.image (v.valueLimits methodHandleCount) item type arg p p 0 [] :=
    .plain hwidth hp
  have hindex (limit : Nat) (what : String)
      (hlimit : (v.valueLimits methodHandleCount).index type = some limit) :
      wp (do let read ← v.readIndex arg limit what p; pure (read.2, read.1, [])) fun r =>
        Payload v.image (v.valueLimits methodHandleCount) item type arg p r.1 r.2.1 r.2.2 := by
    simp only [wp_bind, wp_pure]
    refine wp_mono wp_readIndex fun r hr => ?_
    obtain ⟨rfl, harg, hstop, hlt⟩ := hr
    exact .index hlimit harg hstop hlt
  unfold verifyPayload
  simp only
  split
  case h_1 => exact (wp_ite _ _ _ _).mpr ⟨fun h => hplain 1 (by simp [plainWidth, h]), fun _ => trivial⟩
  case h_2 => exact (wp_ite _ _ _ _).mpr ⟨fun h => hplain _ (by simp [plainWidth, h]), fun _ => trivial⟩
  case h_3 => exact (wp_ite _ _ _ _).mpr ⟨fun h => hplain _ (by simp [plainWidth, h]), fun _ => trivial⟩
  case h_4 => exact (wp_ite _ _ _ _).mpr ⟨fun h => hplain _ (by simp [plainWidth, h]), fun _ => trivial⟩
  case h_5 => exact (wp_ite _ _ _ _).mpr ⟨fun h => hplain _ (by simp [plainWidth, h]), fun _ => trivial⟩
  case h_6 => exact hplain _ rfl
  case h_7 => exact hplain _ rfl
  case h_8 => exact hindex _ _ rfl
  case h_9 => exact hindex _ _ rfl
  case h_10 => exact hindex _ _ rfl
  case h_11 => exact hindex _ _ rfl
  case h_12 => exact hindex _ _ rfl
  case h_13 => exact hindex _ _ rfl
  case h_14 => exact hindex _ _ rfl
  case h_15 => exact (wp_ite _ _ _ _).mpr ⟨fun h => hnone (by simp [plainWidth, h]), fun _ => trivial⟩
  case h_16 => exact (wp_ite _ _ _ _).mpr ⟨fun h => hnone (by simp [plainWidth, h]), fun _ => trivial⟩
  case h_17 =>
    rw [wp_ite]
    refine ⟨fun harg => ?_, fun _ => trivial⟩
    simp only [wp_bind, wp_pure]
    apply wp_readUlebOrFail
    intro size p1 hsize _ hp1
    exact wp_mono (wp_verifyElements hvalue size p1) fun r hr => .array rfl harg hsize hp1 hr
  case h_18 =>
    rw [wp_ite]
    refine ⟨fun harg => ?_, fun _ => trivial⟩
    simp only [wp_bind, wp_pure]
    refine wp_mono (@wp_verifyAnnotationValue _ methodHandleCount _ _ hvalue p)
      fun r hr => ?_
    obtain ⟨typeIdx, p1, size, p2, htype, hlt, hsize, hp2, helements⟩ := hr
    exact Payload.annotation rfl harg htype hlt hsize hp2 helements
  case h_19 => trivial

/-- An accepted encoded_value is a value of the grammar, with its log. -/
theorem wp_verifyEncodedValue (left p : Nat) :
    wp (v.verifyEncodedValue methodHandleCount left p) fun r =>
      ValueAt v.image (v.valueLimits methodHandleCount) left p r.1 r.2 := by
  have hin := v.endOfFile_le
  induction left generalizing p with
  | zero => trivial
  | succ left ih =>
    simp only [verifyEncodedValue, wp_bind, wp_failIf, wp_readU1, wp_pure]
    intro hp
    refine ⟨by omega, ?_⟩
    refine wp_mono (wp_verifyPayload ih _ _ (p + 1) (by omega)) fun r hr => ?_
    exact ⟨Nat.lt_of_not_le hp, r.2.1, r.2.2, hr, rfl⟩

/-- An accepted static_values array is an encoded array of the grammar. -/
theorem wp_verifyEncodedArrayAt (off : Nat) :
    wp (v.verifyEncodedArrayAt methodHandleCount off) fun r =>
      EncodedArray v.image (v.valueLimits methodHandleCount) (v.offsetToPtr off) r.1 r.2 := by
  simp only [verifyEncodedArrayAt, wp_bind, wp_failIf]
  intro _
  apply wp_readUlebOrFail
  intro size p1 hsize _ hp1
  refine wp_mono (wp_verifyElements (wp_verifyEncodedValue _) size p1) fun r hr => ?_
  exact ⟨size, p1, hsize, hp1, hr⟩

theorem wp_annotationStructAt {off size : Nat} {who : String} (hsize : 0 < size)
    {post : Nat → Prop} (h : ∀ p, p + size ≤ v.image.length → post p) :
    wp (v.annotationStructAt off size who) post := by
  have hin := v.endOfFile_le
  simp only [annotationStructAt, wp_bind, wp_failIf, wp_pure]
  intro _
  apply wp_checkListSize hsize
  intro _ hspan
  exact h _ (by omega)

theorem wp_verifyAnnotationItem (off : Nat) (seen : SeenAnnotations) :
    wp (v.verifyAnnotationItem methodHandleCount off seen) fun _ => True := by
  have hin := v.endOfFile_le
  unfold verifyAnnotationItem
  rw [wp_ite]
  refine ⟨fun _ => trivial, fun _ => ?_⟩
  simp only [wp_bind, wp_readU1, wp_failIf, wp_pure]
  apply wp_checkListSize (by decide)
  intro _ hspan
  refine ⟨by omega, fun _ => ?_⟩
  exact wp_mono (@wp_verifyAnnotationValue _ methodHandleCount _ _
      (wp_verifyEncodedValue kMaxDepth) _) fun _ _ => trivial

theorem wp_verifyAnnotationSet (off : Nat) (seen : SeenAnnotations) :
    wp (v.verifyAnnotationSet methodHandleCount off seen) fun _ => True := by
  have hin := v.endOfFile_le
  unfold verifyAnnotationSet
  rw [wp_ite]
  refine ⟨fun _ => trivial, fun _ => ?_⟩
  simp only [wp_bind, wp_readU4]
  apply wp_annotationStructAt (by decide)
  intro p hp
  refine ⟨hp, ?_⟩
  apply wp_checkListSize (by decide)
  intro _ hentries
  refine wp_loop (fun _ _ => True) trivial fun i seen hi _ => ?_
  simp only [wp_bind, wp_readU4, wp_failIf]
  exact ⟨by omega, fun _ => wp_verifyAnnotationItem _ seen⟩

theorem wp_verifyAnnotationSetRefList (off : Nat) (seen : SeenAnnotations) :
    wp (v.verifyAnnotationSetRefList methodHandleCount off seen) fun _ => True := by
  have hin := v.endOfFile_le
  unfold verifyAnnotationSetRefList
  rw [wp_ite]
  refine ⟨fun _ => trivial, fun _ => ?_⟩
  simp only [wp_bind, wp_readU4]
  apply wp_annotationStructAt (by decide)
  intro p hp
  refine ⟨hp, ?_⟩
  apply wp_checkListSize (by decide)
  intro _ hentries
  refine wp_loop (fun _ _ => True) trivial fun i seen hi _ => ?_
  simp only [wp_bind, wp_readU4, wp_ite, wp_pure]
  exact ⟨by omega, fun _ => wp_verifyAnnotationSet _ seen, fun _ => trivial⟩

theorem wp_verifyMemberAnnotations {listLabel indexLabel orderReason zeroReason : String}
    {limit : Nat} {verifyAt : Nat → SeenAnnotations → Run SeenAnnotations}
    (hverify : ∀ off seen, wp (verifyAt off seen) fun _ => True) (n p : Nat)
    (seen : SeenAnnotations) :
    wp (v.verifyMemberAnnotations listLabel indexLabel orderReason zeroReason limit verifyAt n p
      seen) fun _ => True := by
  have hin := v.endOfFile_le
  simp only [verifyMemberAnnotations, wp_bind, wp_pure, MemberAnnotationsItem.bytes]
  apply wp_checkListSize (by decide)
  intro _ hspan
  refine wp_loop (fun _ _ => True) trivial ?_
  rintro i ⟨last, seen⟩ hi _
  simp only [checkIndex, wp_bind, wp_read, wp_failIf, wp_pure]
  exact ⟨by omega, fun _ _ _ => hverify _ seen⟩

/-- The annotations subtree of a class_def is walked inside the image. -/
theorem wp_verifyAnnotationsDirectory (off : Nat) (seen : SeenAnnotations) :
    wp (v.verifyAnnotationsDirectory methodHandleCount off seen) fun _ => True := by
  unfold verifyAnnotationsDirectory
  rw [wp_ite]
  refine ⟨fun _ => trivial, fun _ => ?_⟩
  simp only [wp_bind, wp_read, AnnotationsDirectoryItem.bytes]
  apply wp_annotationStructAt (by decide)
  intro p hp
  refine ⟨hp, ?_⟩
  have hclass (off : Nat) (seen : SeenAnnotations) :
      wp (v.verifyClassAnnotations methodHandleCount off seen) fun _ => True := by
    unfold verifyClassAnnotations
    rw [wp_ite]
    exact ⟨fun _ => wp_verifyAnnotationSet off seen, fun _ => trivial⟩
  refine wp_mono (hclass _ _) fun seen _ => ?_
  refine wp_mono (wp_verifyMemberAnnotations wp_verifyAnnotationSet _ _ seen) fun seen _ => ?_
  refine wp_mono (wp_verifyMemberAnnotations wp_verifyAnnotationSet _ _ seen) fun seen _ => ?_
  exact wp_verifyMemberAnnotations wp_verifyAnnotationSetRefList _ _ seen

end Verifier

end Dexllm
