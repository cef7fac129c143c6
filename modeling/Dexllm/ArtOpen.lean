import Dexllm.CheckModes
import Dexllm.SourceImage

/-!
The ART-open flags of a source in the two check modes. The strict session
judges a slice it rejects a second time, over a scratch that only such slices
have used; the lenient session judges every slice over one scratch. The flags
agree exactly when the two scratches agree on the sections that matter.
-/

namespace Dexllm

open Guarded Bytes

section Own

variable (adler32 : Memory → Nat) (image : Memory)

/-- Some scratch makes the lenient pass accept the dex without a deviation, and
its checksum matches. -/
def ArtClean (off : Nat) : Prop :=
  checksumDeviations adler32 image off = [] ∧
    ∃ st, (verifyDex image false off st).1 = { ok := true }

/-- The two scratches of the strict session agree on the section of a slice that
the strict pass rejects and that is clean otherwise. -/
def SectionsAgree (st : GateScratch) (s : LogicalSlice) : Prop :=
  (verifyDex image true s.offset st.imageState).1.ok = false →
    ArtClean adler32 image s.offset →
      (sectionVerdict image st.imageState ⟨s.offset, false⟩ = some false ↔
        sectionVerdict image st.lenientState ⟨s.offset, false⟩ = some false)

variable {adler32 image}

theorem verifyDex_eq_clean {off : Nat} {checkInsns : Bool} {st : VerifyImageState} :
    (verifyDex image checkInsns off st).1 = { ok := true } ↔
      (verifyDex image checkInsns off st).1.ok = true ∧
        (verifyDex image checkInsns off st).1.artDeviations = [] := by
  simp only [verifyDex]
  cases (verify image off checkInsns st).1 with
  | ok deviations => simp [resultOf]
  | error e => cases e <;> simp [resultOf]

/-- The lenient pass is clean on a slice that is clean with some scratch,
unless its own scratch rejects the section. -/
theorem verifyDex_clean_iff {off : Nat} {st : VerifyImageState} :
    (verifyDex image false off st).1 = { ok := true } ↔
      sectionVerdict image st ⟨off, false⟩ ≠ some false ∧
        ∃ st', (verifyDex image false off st').1 = { ok := true } := by
  have haccepted {st : VerifyImageState} (h : (verifyDex image false off st).1 = { ok := true }) :
      ∃ v n, Accepted image off false st v n [] := by
    obtain ⟨hok, hdevs⟩ := verifyDex_eq_clean.mp h
    obtain ⟨v, n, deviations, hacc⟩ := accepted_of_verifyDex hok
    have hrun := verify_of_accepted hacc
    simp only [verifyDex, hrun, resultOf] at hdevs
    exact ⟨v, n, hdevs ▸ hacc⟩
  constructor
  · intro h
    obtain ⟨v, n, hacc⟩ := haccepted h
    exact ⟨@sectionVerdict_of_accepted _ ⟨off, false⟩ _ _ _ _ hacc, st, h⟩
  · rintro ⟨hverdict, st', h⟩
    obtain ⟨v, n, hacc⟩ := haccepted h
    have hrun := verify_of_accepted (@accepted_congr _ ⟨off, false⟩ _ _ _ _ _ hacc hverdict)
    simp only [verifyDex, hrun, resultOf]

variable {st : GateScratch} {s : LogicalSlice}

/-- In lenient mode a slice is open on its own when the pass is clean. -/
theorem artOwn_lenient : (classifySlice adler32 image false st s).1.artOwn = true ↔
    (verifyDex image false s.offset st.imageState).1 = { ok := true } ∧
      checksumDeviations adler32 image s.offset = [] := by
  rw [verifyDex_eq_clean]
  simp [classifySlice, and_assoc]

/-- In strict mode it is when the pass accepts, or when the second, lenient
verdict is clean. -/
theorem artOwn_strict : (classifySlice adler32 image true st s).1.artOwn = true ↔
    ((verifyDex image true s.offset st.imageState).1.ok = true ∨
      (verifyDex image false s.offset st.lenientState).1 = { ok := true }) ∧
        checksumDeviations adler32 image s.offset = [] := by
  cases hok : (verifyDex image true s.offset st.imageState).1.ok with
  | true =>
    have hclean : (verifyDex image true s.offset st.imageState).1.artDeviations = [] := by
      obtain ⟨v, n, deviations, hacc⟩ := accepted_of_verifyDex hok
      have hrun := verify_of_accepted hacc
      simp only [verifyDex, hrun, resultOf, hacc.deviations_eq_nil rfl]
    simp [classifySlice, hok, hclean]
  | false =>
    rw [verifyDex_eq_clean]
    simp [classifySlice, hok, and_assoc]

/-- The two sessions agree on a slice exactly when the scratches agree on its
section. -/
theorem artOwn_eq_iff {lenientState : VerifyImageState} :
    (classifySlice adler32 image true st s).1.artOwn =
        (classifySlice adler32 image false ⟨st.imageState, lenientState⟩ s).1.artOwn ↔
      SectionsAgree adler32 image st s := by
  rw [Bool.eq_iff_iff, artOwn_strict, artOwn_lenient]
  unfold SectionsAgree ArtClean
  cases hok : (verifyDex image true s.offset st.imageState).1.ok with
  | true => simp [verifyDex_lenient_of_strict hok]
  | false =>
    have himage := @verifyDex_clean_iff image s.offset st.imageState
    have hlenient := @verifyDex_clean_iff image s.offset st.lenientState
    rw [himage, hlenient]
    by_cases hchecksum : checksumDeviations adler32 image s.offset = []
    · by_cases hclean : ∃ st, (verifyDex image false s.offset st).1 = { ok := true }
      · simp only [hchecksum, hclean, Bool.false_eq_true, false_or, and_true, true_implies, ne_eq]
        exact not_iff_not.trans Iff.comm
      · simp [hclean]
    · simp [hchecksum]

end Own

section Sequence

variable {name : String} {many : Bool} {cursor : ArtCursor} {s : LogicalSlice}

theorem isNone_notOpened {seq : ArtSequence} {imageEnded : Bool} :
    (notOpened seq imageEnded s).isNone = (!seq.broken && !imageEnded && s.artOwn) := by
  unfold notOpened
  split
  · rename_i hbroken
    rw [hbroken]
    rfl
  split
  · rename_i hbroken hended
    rw [Bool.eq_false_iff.mpr hbroken, hended]
    rfl
  split
  · rename_i hown
    rw [hown, Bool.and_false]
    rfl
  · rename_i hbroken hended hown
    rw [Bool.eq_false_iff.mpr hbroken, Bool.eq_false_iff.mpr hended, Bool.ne_false_iff.mp hown]
    rfl

/-- A slice is opened when nothing has ended the source or the image before it
and it is open on its own. -/
theorem openSlice_artOpen : (openSlice name many cursor s).1.artOpen =
    (!cursor.seq.broken && !(cursor.imageEnded || cursor.afterLast) && s.artOwn) :=
  isNone_notOpened

theorem stop_broken (seq : ArtSequence) (label reason : String) :
    (seq.stop label reason).broken = true := by
  unfold ArtSequence.stop
  split
  · assumption
  · rfl

theorem openSlice_broken : (openSlice name many cursor s).2.seq.broken =
    (cursor.seq.broken || (!(cursor.imageEnded || cursor.afterLast) && !s.artOwn)) := by
  simp only [openSlice]
  split
  · rename_i h
    rw [stop_broken, h.1, h.2.1, h.2.2]
    rfl
  · rename_i h
    cases hbroken : cursor.seq.broken with
    | true => rfl
    | false =>
      have hclosed : (!(cursor.imageEnded || cursor.afterLast) && !s.artOwn) = false := by
        rw [Bool.and_eq_false_iff]
        by_contra hopen
        simp only [not_or, Bool.not_eq_false, Bool.not_eq_true'] at hopen
        exact h ⟨hbroken, hopen⟩
      rw [hclosed]
      rfl

end Sequence

section Session

variable (adler32 : Memory → Nat) (image : Memory) (name : String) (many : Bool)

/-- The sections agree at every slice the strict session reaches with the source
and the image still open. -/
def AgreeWhileOpen : GateScratch → ArtCursor → List LogicalSlice → Prop
  | _, _, [] => True
  | st, cursor, s :: slices =>
    (cursor.seq.broken = false → (cursor.imageEnded || cursor.afterLast) = false →
      SectionsAgree adler32 image st s) ∧
    AgreeWhileOpen (classifySlice adler32 image true st s).2
      (openSlice name many cursor (classifySlice adler32 image true st s).1).2 slices

/-- The flags of the slices and how the sequence ended. -/
def opens (checkInsns : Bool) (st : GateScratch) (cursor : ArtCursor)
    (slices : List LogicalSlice) : List Bool × Bool × Bool :=
  let (slices, cursor) :=
    openSlices name many cursor (classifySlices adler32 image checkInsns st slices)
  (slices.map LogicalSlice.artOpen, cursor.seq.broken, cursor.imageEnded)

variable {adler32 image name many}

theorem opens_cons {checkInsns : Bool} {st : GateScratch} {cursor : ArtCursor} {s : LogicalSlice}
    {slices : List LogicalSlice} :
    opens adler32 image name many checkInsns st cursor (s :: slices) =
      let round := classifySlice adler32 image checkInsns st s
      let next := openSlice name many cursor round.1
      let rest := opens adler32 image name many checkInsns round.2 next.2 slices
      (next.1.artOpen :: rest.1, rest.2) := rfl

/-- A round leaves the two sessions in step: the strict one's first scratch is
the lenient one's only scratch. -/
theorem classifySlice_imageState {st : GateScratch} {lenientState : VerifyImageState}
    {s : LogicalSlice} :
    ∃ lenientState', (classifySlice adler32 image false ⟨st.imageState, lenientState⟩ s).2 =
      ⟨(classifySlice adler32 image true st s).2.imageState, lenientState'⟩ := by
  refine ⟨_, congrArg (fun imageState => GateScratch.mk imageState _) ?_⟩
  exact verifyDex_lenient_scratch st.imageState

/-- What the two cursors have in common. -/
def InStep (cursor cursor' : ArtCursor) : Prop :=
  cursor.seq.broken = cursor'.seq.broken ∧ cursor.imageEnded = cursor'.imageEnded ∧
    cursor.afterLast = cursor'.afterLast

/-- Sessions with the same flags have scratches that agree while the sequence is
open, and those that do give the same flags and end alike. -/
theorem opens_agree {slices : List LogicalSlice} {st : GateScratch}
    {lenientState : VerifyImageState} {cursor cursor' : ArtCursor} (hstep : InStep cursor cursor') :
    ((opens adler32 image name many true st cursor slices).1 =
        (opens adler32 image name many false ⟨st.imageState, lenientState⟩ cursor' slices).1 →
      AgreeWhileOpen adler32 image name many st cursor slices) ∧
    (AgreeWhileOpen adler32 image name many st cursor slices →
      opens adler32 image name many true st cursor slices =
        opens adler32 image name many false ⟨st.imageState, lenientState⟩ cursor' slices) := by
  induction slices generalizing st lenientState cursor cursor' with
  | nil =>
    obtain ⟨hbroken, hended, _⟩ := hstep
    have hsame : opens adler32 image name many true st cursor [] =
        opens adler32 image name many false ⟨st.imageState, lenientState⟩ cursor' [] := by
      change ([], cursor.seq.broken, cursor.imageEnded) =
        ([], cursor'.seq.broken, cursor'.imageEnded)
      rw [hbroken, hended]
    exact ⟨fun _ => trivial, fun _ => hsame⟩
  | cons s slices ih =>
    obtain ⟨hbroken, hended, hlast⟩ := hstep
    obtain ⟨lenientState', hscratch⟩ :=
      @classifySlice_imageState adler32 image st lenientState s
    have hown := @artOwn_eq_iff adler32 image st s lenientState
    have hflag := @openSlice_artOpen name many cursor ((classifySlice adler32 image true st s).1)
    have hflag' := @openSlice_artOpen name many cursor'
        ((classifySlice adler32 image false ⟨st.imageState, lenientState⟩ s).1)
    have hnext := @openSlice_broken name many cursor ((classifySlice adler32 image true st s).1)
    have hnext' := @openSlice_broken name many cursor'
        ((classifySlice adler32 image false ⟨st.imageState, lenientState⟩ s).1)
    rw [← hbroken, ← hended, ← hlast] at hflag' hnext'
    have hhead : (openSlice name many cursor (classifySlice adler32 image true st s).1).1.artOpen =
          (openSlice name many cursor'
            (classifySlice adler32 image false ⟨st.imageState, lenientState⟩ s).1).1.artOpen ↔
        (cursor.seq.broken = false → (cursor.imageEnded || cursor.afterLast) = false →
          SectionsAgree adler32 image st s) := by
      rw [hflag, hflag', ← hown]
      cases cursor.seq.broken <;> cases (cursor.imageEnded || cursor.afterLast) <;> simp
    have hcursor (h : cursor.seq.broken = false → (cursor.imageEnded || cursor.afterLast) = false →
          SectionsAgree adler32 image st s) :
        InStep (openSlice name many cursor (classifySlice adler32 image true st s).1).2
          (openSlice name many cursor'
            (classifySlice adler32 image false ⟨st.imageState, lenientState⟩ s).1).2 := by
      refine ⟨?_, ?_, rfl⟩
      · rw [hnext, hnext']
        rw [← hown] at h
        cases hb : cursor.seq.broken with
        | true => rfl
        | false =>
          cases he : (cursor.imageEnded || cursor.afterLast) with
          | true => rfl
          | false => rw [h hb he]
      · change (cursor.imageEnded || cursor.afterLast) = (cursor'.imageEnded || cursor'.afterLast)
        rw [hended, hlast]
    have hrest := fun h =>
      @ih (classifySlice adler32 image true st s).2 lenientState' _ _ (hcursor h)
    rw [← hscratch] at hrest
    constructor
    · intro h
      obtain ⟨hopen, hflags⟩ := List.cons.inj h
      have hagree := hhead.mp hopen
      exact ⟨hagree, (hrest hagree).1 hflags⟩
    · rintro ⟨hagree, htail⟩
      have hsame := (hrest hagree).2 htail
      have hopen := hhead.mpr hagree
      simp only [opens_cons, hopen, hsame]

end Session

section Source

variable (adler32 : Memory → Nat) (image : Memory) (name : String) (seq : ArtSequence)

/-- The two modes give every slice the same flag, and the source and the image
end alike. -/
def SameArtOpen : Prop :=
  let strict := classifySourceImage adler32 image true name seq
  let lenient := classifySourceImage adler32 image false name seq
  strict.slices.map LogicalSlice.artOpen = lenient.slices.map LogicalSlice.artOpen ∧
    strict.seq.broken = lenient.seq.broken ∧ strict.missingEntry = lenient.missingEntry

/-- What the strict pass over the slices accepts, the lenient pass over a scratch
of its own accepts without a deviation. -/
def AcceptedLeniently : Prop :=
  ∀ done s rest, logicalDexSlices image = done ++ s :: rest →
    (verifyDex image true s.offset
      (afterCalls image (done.map fun s => ⟨s.offset, true⟩))).1.ok = true →
    (verifyDex image false s.offset
      (afterCalls image (done.map fun s => ⟨s.offset, false⟩))).1 = { ok := true }

variable {adler32 image name seq}

/-- Both passes leave the same scratch behind. -/
theorem afterCalls_mode (done : List LogicalSlice) :
    afterCalls image (done.map fun s => ⟨s.offset, false⟩) =
      afterCalls image (done.map fun s => ⟨s.offset, true⟩) := by
  induction done using List.reverseRecOn with
  | nil => rfl
  | append_singleton done s ih =>
    have hlast := @verifyDex_lenient_scratch image s.offset
        (afterCalls image (done.map fun s => ⟨s.offset, true⟩))
    rw [← ih] at hlast
    simp only [afterCalls, List.map_append, List.map_singleton, List.foldl_append,
      List.foldl_cons, List.foldl_nil] at hlast ih ⊢
    rw [hlast, ih]

theorem acceptedLeniently (image : Memory) : AcceptedLeniently image := by
  intro done s rest _ hok
  rw [afterCalls_mode]
  exact verifyDex_lenient_of_strict hok

theorem rejectSiblings_artOpen (n : Nat) (slices : List LogicalSlice) :
    (rejectSiblings n slices).map LogicalSlice.artOpen = slices.map LogicalSlice.artOpen := by
  unfold rejectSiblings
  split
  · rfl
  · rw [List.map_map]
    refine List.map_congr_left fun s _ => ?_
    simp only [Function.comp]
    split <;> rfl

/-- Classifying keeps what the split recorded about a slice. -/
theorem classifySlices_split (checkInsns : Bool) (st : GateScratch) (slices : List LogicalSlice) :
    (classifySlices adler32 image checkInsns st slices).map
        (fun s => (s.offset, s.size, s.lastEntry)) =
      slices.map fun s => (s.offset, s.size, s.lastEntry) := by
  induction slices generalizing st with
  | nil => rfl
  | cons s slices ih => exact congrArg (List.cons (s.offset, s.size, s.lastEntry)) (ih _)

/-- The container entry after `tail` that ART would read and the image does not
have. -/
def entryMissing (ends : Bool × Bool) (tail : LogicalSlice) : Bool :=
  !ends.1 && !ends.2 && !tail.lastEntry

/-- What a source's verdict says, in terms of its flags and its last slice. -/
theorem classifySourceImage_eq (checkInsns : Bool) {done : List LogicalSlice} {tail : LogicalSlice}
    (hslices : logicalDexSlices image = done ++ [tail]) :
    let many : Bool := 1 < (logicalDexSlices image).length
    let outcome := opens adler32 image name many checkInsns {} ⟨seq, false, false⟩
      (logicalDexSlices image)
    let verdict := classifySourceImage adler32 image checkInsns name seq
    verdict.slices.map LogicalSlice.artOpen = outcome.1 ∧
      verdict.seq.broken = (outcome.2.1 || entryMissing outcome.2 tail) ∧
      verdict.missingEntry =
        if entryMissing outcome.2 tail = true then
          some ("the v41 container entry expected at offset " ++
            toString ((tail.offset + tail.size) % 2 ^ 32) ++
            " (the previous entry is not its container's last) does not fit the image; ART's " ++
            "open fails there")
        else none := by
  have hsplit := @classifySlices_split adler32 image checkInsns {} (logicalDexSlices image)
  have hlength : (classifySlices adler32 image checkInsns {} (logicalDexSlices image)).length =
      (logicalDexSlices image).length := by
    simpa using congrArg List.length hsplit
  have hlast : ∃ s, (classifySlices adler32 image checkInsns {}
      (logicalDexSlices image)).getLast? = some s ∧
        s.offset = tail.offset ∧ s.size = tail.size ∧ s.lastEntry = tail.lastEntry := by
    have hmap := congrArg List.getLast? hsplit
    rw [hslices] at hmap ⊢
    simp only [List.getLast?_map, List.getLast?_concat, Option.map_some, Option.map_eq_some_iff,
      Prod.mk.injEq] at hmap
    exact hmap
  obtain ⟨s, hs, hoffset, hsize, hentry⟩ := hlast
  simp only [classifySourceImage, classifyImageSlices, hs, hlength, opens, hoffset, hsize, hentry,
    entryMissing]
  refine ⟨rejectSiblings_artOpen _ _, ?_, rfl⟩
  split
  · rename_i hmissing
    rw [stop_broken, hmissing, Bool.or_true]
  · rename_i hpresent
    rw [Bool.eq_false_iff.mpr hpresent, Bool.or_false]

/-- The two modes of a source agree on what ART opens exactly when, at every
slice reached with the sequence open, the two scratches of the strict session
agree on the slice's section (where the strict pass rejects it and it is clean
otherwise). -/
theorem sameArtOpen_iff (adler32 : Memory → Nat) (image : Memory) (name : String)
    (seq : ArtSequence) :
    SameArtOpen adler32 image name seq ∧ AcceptedLeniently image ↔
      AgreeWhileOpen adler32 image name (1 < (logicalDexSlices image).length) {}
        ⟨seq, false, false⟩ (logicalDexSlices image) := by
  have hstep : InStep ⟨seq, false, false⟩ ⟨seq, false, false⟩ := ⟨rfl, rfl, rfl⟩
  obtain ⟨hflags, hsame⟩ := @opens_agree adler32 image name
      (decide (1 < (logicalDexSlices image).length)) (logicalDexSlices image) {} {} _ _ hstep
  rcases (logicalDexSlices image).eq_nil_or_concat with hnil | ⟨done, tail, hconcat⟩
  · rw [hnil]
    have hempty (checkInsns : Bool) : classifySourceImage adler32 image checkInsns name seq =
        ⟨[], seq.stop name "no logical dex in image", none⟩ := by
      simp only [classifySourceImage, classifyImageSlices, hnil]
      rfl
    refine ⟨fun _ => trivial, fun _ => ⟨?_, acceptedLeniently image⟩⟩
    simp only [SameArtOpen, hempty, and_self]
  · rw [List.concat_eq_append] at hconcat
    obtain ⟨hopen, hbroken, hmissing⟩ :=
      @classifySourceImage_eq adler32 _ name seq true _ _ hconcat
    obtain ⟨hopen', hbroken', hmissing'⟩ :=
      @classifySourceImage_eq adler32 _ name seq false _ _ hconcat
    constructor
    · rintro ⟨⟨hequal, _⟩, _⟩
      exact hflags (hopen.symm.trans (hequal.trans hopen'))
    · intro hagree
      have houtcome := hsame hagree
      refine ⟨⟨?_, ?_, ?_⟩, acceptedLeniently image⟩
      · rw [hopen, hopen', houtcome]
      · rw [hbroken, hbroken', houtcome]
      · rw [hmissing, hmissing', houtcome]

end Source

/-- The checksum the zlib library computes. -/
def zlibAdler32 (bytes : Memory) : Nat :=
  let (a, b) := bytes.foldl
    (fun (a, b) c => ((a + c.toNat) % 65521, (b + a + c.toNat) % 65521)) (1, 0)
  b * 65536 + a

/-- Two version 41 dexes, each at the start of a container of its own. Both list
one method handle at the same offset: a getter of the field in the first, an
unknown handle type in the second, whose method also ends inside its only
instruction. -/
def splitContainers : Memory := [
  100, 101, 120, 10, 48, 52, 49, 0, 183, 25, 13, 29, 0, 0, 0, 0, 0, 0, 0, 0, 0, 0, 0, 0,
  0, 0, 0, 0, 0, 0, 0, 0, 124, 1, 0, 0, 120, 0, 0, 0, 120, 86, 52, 18, 0, 0, 0, 0,
  0, 0, 0, 0, 12, 1, 0, 0, 5, 0, 0, 0, 120, 0, 0, 0, 3, 0, 0, 0, 140, 0, 0, 0,
  1, 0, 0, 0, 152, 0, 0, 0, 1, 0, 0, 0, 164, 0, 0, 0, 1, 0, 0, 0, 172, 0, 0, 0,
  1, 0, 0, 0, 180, 0, 0, 0, 0, 0, 0, 0, 0, 0, 0, 0, 248, 2, 0, 0, 0, 0, 0, 0,
  248, 0, 0, 0, 251, 0, 0, 0, 0, 1, 0, 0, 3, 1, 0, 0, 6, 1, 0, 0, 0, 0, 0, 0,
  1, 0, 0, 0, 2, 0, 0, 0, 2, 0, 0, 0, 2, 0, 0, 0, 0, 0, 0, 0, 1, 0, 0, 0,
  3, 0, 0, 0, 1, 0, 0, 0, 4, 0, 0, 0, 1, 0, 0, 0, 1, 0, 0, 0, 255, 255, 255, 255,
  0, 0, 0, 0, 255, 255, 255, 255, 0, 0, 0, 0, 238, 0, 0, 0, 0, 0, 0, 0, 0, 0, 0, 0,
  0, 0, 0, 0, 1, 0, 0, 0, 0, 0, 0, 0, 0, 0, 0, 0, 1, 0, 0, 0, 14, 0, 1, 0,
  1, 0, 0, 9, 0, 9, 220, 1, 1, 73, 0, 3, 76, 65, 59, 0, 1, 86, 0, 1, 97, 0, 1, 109,
  0, 0, 0, 0, 9, 0, 0, 0, 0, 0, 0, 0, 1, 0, 0, 0, 0, 0, 0, 0, 1, 0, 0, 0,
  5, 0, 0, 0, 120, 0, 0, 0, 2, 0, 0, 0, 3, 0, 0, 0, 140, 0, 0, 0, 3, 0, 0, 0,
  1, 0, 0, 0, 152, 0, 0, 0, 4, 0, 0, 0, 1, 0, 0, 0, 164, 0, 0, 0, 5, 0, 0, 0,
  1, 0, 0, 0, 172, 0, 0, 0, 6, 0, 0, 0, 1, 0, 0, 0, 180, 0, 0, 0, 8, 0, 0, 0,
  1, 0, 0, 0, 212, 0, 0, 0, 0, 16, 0, 0, 1, 0, 0, 0, 12, 1, 0, 0, 100, 101, 120, 10,
  48, 52, 49, 0, 73, 25, 107, 163, 0, 0, 0, 0, 0, 0, 0, 0, 0, 0, 0, 0, 0, 0, 0, 0,
  0, 0, 0, 0, 124, 1, 0, 0, 120, 0, 0, 0, 120, 86, 52, 18, 0, 0, 0, 0, 0, 0, 0, 0,
  12, 1, 0, 0, 5, 0, 0, 0, 120, 0, 0, 0, 3, 0, 0, 0, 140, 0, 0, 0, 1, 0, 0, 0,
  152, 0, 0, 0, 1, 0, 0, 0, 164, 0, 0, 0, 1, 0, 0, 0, 172, 0, 0, 0, 1, 0, 0, 0,
  180, 0, 0, 0, 0, 0, 0, 0, 0, 0, 0, 0, 124, 1, 0, 0, 0, 0, 0, 0, 248, 0, 0, 0,
  251, 0, 0, 0, 0, 1, 0, 0, 3, 1, 0, 0, 6, 1, 0, 0, 0, 0, 0, 0, 1, 0, 0, 0,
  2, 0, 0, 0, 2, 0, 0, 0, 2, 0, 0, 0, 0, 0, 0, 0, 1, 0, 0, 0, 3, 0, 0, 0,
  1, 0, 0, 0, 4, 0, 0, 0, 1, 0, 0, 0, 1, 0, 0, 0, 255, 255, 255, 255, 0, 0, 0, 0,
  255, 255, 255, 255, 0, 0, 0, 0, 238, 0, 0, 0, 0, 0, 0, 0, 9, 0, 0, 0, 0, 0, 0, 0,
  1, 0, 0, 0, 0, 0, 0, 0, 0, 0, 0, 0, 1, 0, 0, 0, 20, 0, 1, 0, 1, 0, 0, 9,
  0, 9, 220, 1, 1, 73, 0, 3, 76, 65, 59, 0, 1, 86, 0, 1, 97, 0, 1, 109, 0, 0, 0, 0,
  9, 0, 0, 0, 0, 0, 0, 0, 1, 0, 0, 0, 0, 0, 0, 0, 1, 0, 0, 0, 5, 0, 0, 0,
  120, 0, 0, 0, 2, 0, 0, 0, 3, 0, 0, 0, 140, 0, 0, 0, 3, 0, 0, 0, 1, 0, 0, 0,
  152, 0, 0, 0, 4, 0, 0, 0, 1, 0, 0, 0, 164, 0, 0, 0, 5, 0, 0, 0, 1, 0, 0, 0,
  172, 0, 0, 0, 6, 0, 0, 0, 1, 0, 0, 0, 180, 0, 0, 0, 8, 0, 0, 0, 1, 0, 0, 0,
  212, 0, 0, 0, 0, 16, 0, 0, 1, 0, 0, 0, 12, 1, 0, 0]

/-- The strict session's second scratch has never seen the first dex's section,
the lenient session's scratch has: only the latter opens the second dex. -/
theorem splitContainers_not_same : ¬SameArtOpen zlibAdler32 splitContainers "a.dex" {} := by
  have hflags : (classifySourceImage zlibAdler32 splitContainers true "a.dex" {}).slices.map
        LogicalSlice.artOpen = [true, false] ∧
      (classifySourceImage zlibAdler32 splitContainers false "a.dex" {}).slices.map
        LogicalSlice.artOpen = [true, true] := by
    decide +kernel
  intro hsame
  have hequal := hsame.1
  rw [hflags.1, hflags.2] at hequal
  exact absurd hequal (by decide)

end Dexllm
