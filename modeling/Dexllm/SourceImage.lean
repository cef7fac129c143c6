import Dexllm.Verifier.Verify

/-!
The verdicts of one image of a source: its split into logical dexes, each
verified over the image's scratch, what ART's open would make of each, the
sequence in which ART opens them, and the rule that a container is loaded whole
or not at all. `adler32` is the checksum of the zlib library.
-/

namespace Dexllm

open Guarded Bytes

/-- A logical dex of an image, and what the gate makes of it. -/
structure LogicalSlice where
  offset : Nat
  size : Nat
  selfContained : Bool
  lastEntry : Bool
  containerBegin : Nat
  containerEnd : Nat
  ok : Bool := false
  reason : String := ""
  artDeviations : List String := []
  artOwn : Bool := false
  artReason : String := ""
  artOpen : Bool := false
  deriving DecidableEq, Repr

/-- `Header::ContainerOff` of a header that lies in the image. -/
def containerOffAt (image : Memory) (off : Nat) : Nat :=
  if kV41Size ≤ (headerAt image off).headerSize then u4At image (off + 116) else 0

/-- `Header::ContainerSize` of a header that lies in the image. -/
def containerSizeAt (image : Memory) (off : Nat) : Nat :=
  if kV41Size ≤ (headerAt image off).headerSize then u4At image (off + 112)
  else (headerAt image off).fileSize

/-- The slice whose header is at `off`. -/
def logicalSliceAt (image : Memory) (off : Nat) : LogicalSlice :=
  let header := headerAt image off
  let selfContained := decide (header.headerSize < kV41Size)
  let inContainer := containerOffAt image off
  let containerBegin := if inContainer ≤ off then (off - inContainer) % 2 ^ 32 else off % 2 ^ 32
  { offset := off % 2 ^ 32
    size := header.fileSize
    selfContained
    lastEntry := selfContained || inContainer + header.fileSize == containerSizeAt image off
    containerBegin
    containerEnd :=
      if selfContained = true then off % 2 ^ 32 + header.fileSize
      else containerBegin + containerSizeAt image off }

/-- The loop of `LogicalDexSlices` from `off` on, at most `rounds` slices. -/
def logicalDexSlicesFrom (image : Memory) : (rounds off : Nat) → List LogicalSlice
  | 0, _ => []
  | rounds + 1, off =>
    if image.length < off + kV41Size then []
    else
      let size := (headerAt image off).fileSize
      if size < kV41Size ∨ image.length < off + size then []
      else logicalSliceAt image off :: logicalDexSlicesFrom image rounds (off + size)

/-- `LogicalDexSlices`. -/
def logicalDexSlices (image : Memory) : List LogicalSlice :=
  logicalDexSlicesFrom image image.length 0

/-- `JoinReasons`. -/
def joinReasons (reasons : List String) : String :=
  reasons.foldl (fun out s => (if out = "" then out else out ++ "; ") ++ s) ""

/-- `0x%08x`. -/
def hex8 (n : Nat) : String :=
  let digits := Nat.toDigits 16 n
  "0x" ++ String.ofList (List.replicate (8 - digits.length) '0' ++ digits)

/-- The two scratches of `ClassifyImageSlices`. -/
structure GateScratch where
  imageState : VerifyImageState := {}
  lenientState : VerifyImageState := {}

section Classify

variable (adler32 : Memory → Nat) (image : Memory)

/-- `dex::ComputeChecksum`: the adler32 of the dex past its checksum. -/
def computeChecksum (off : Nat) : Nat :=
  adler32 (slice image (off + 12) ((headerAt image off).fileSize - 12)) % 2 ^ 32

/-- The deviation of a header whose checksum does not match. -/
def checksumDeviations (off : Nat) : List String :=
  let computed := computeChecksum adler32 image off
  if computed = (headerAt image off).checksum then []
  else ["header checksum " ++ hex8 (headerAt image off).checksum ++
    " does not match the adler32 " ++ hex8 computed ++ " ART computes on open"]

/-- One round of `ClassifyImageSlices`. -/
def classifySlice (checkInsns : Bool) (st : GateScratch) (s : LogicalSlice) :
    LogicalSlice × GateScratch :=
  let (vr, imageState) := verifyDex image checkInsns s.offset st.imageState
  let (lv, lenientState) :=
    if checkInsns = true ∧ vr.ok = false then verifyDex image false s.offset st.lenientState
    else (vr, st.lenientState)
  let checksum := checksumDeviations adler32 image s.offset
  let lenientDevs := lv.artDeviations ++ checksum
  let artOwn := lv.ok && lenientDevs.isEmpty
  ({ s with
      ok := vr.ok
      reason := vr.reason
      artDeviations := vr.artDeviations ++ checksum
      artOwn
      artReason :=
        if artOwn = true then "" else if lv.ok = true then joinReasons lenientDevs else lv.reason },
    ⟨imageState, lenientState⟩)

/-- The loop of `ClassifyImageSlices`. -/
def classifySlices (checkInsns : Bool) : GateScratch → List LogicalSlice → List LogicalSlice
  | _, [] => []
  | st, s :: slices =>
    let (s, st) := classifySlice adler32 image checkInsns st s
    s :: classifySlices checkInsns st slices

/-- `ClassifyImageSlices`. -/
def classifyImageSlices (checkInsns : Bool) : List LogicalSlice :=
  classifySlices adler32 image checkInsns {} (logicalDexSlices image)

end Classify

inductive LoadMode where
  | isolated
  | runtime
  deriving DecidableEq, Repr

/-- Where one source's ART open has got to. -/
structure ArtSequence where
  mode : LoadMode := .isolated
  broken : Bool := false
  why : String := ""
  deriving DecidableEq, Repr

/-- `ArtSequence::Break`. -/
def ArtSequence.stop (seq : ArtSequence) (name reason : String) : ArtSequence :=
  if seq.broken = true then seq else { seq with broken := true, why := name ++ ": " ++ reason }

/-- What the sequence loop of `ClassifySourceImage` carries from slice to
slice: `afterLast` is `last_entry` of the slice before. -/
structure ArtCursor where
  seq : ArtSequence
  imageEnded : Bool := false
  afterLast : Bool := false

/-- `not_opened`: why ART does not open a slice. -/
def notOpened (seq : ArtSequence) (imageEnded : Bool) (s : LogicalSlice) : Option String :=
  if seq.broken = true then
    some ("not opened: ART stops a source at the first dex it cannot open (" ++ seq.why ++ ")")
  else if imageEnded = true then
    some ("not opened: ART stops reading an image after a dex that is not followed by an " ++
      "entry of the same v41 container, and this one comes after it")
  else if s.artOwn = false then some ("ART would not open this dex: " ++ s.artReason)
  else none

/-- One round of the sequence loop. `many` says whether the image has more than
one slice. -/
def openSlice (name : String) (many : Bool) (cursor : ArtCursor) (s : LogicalSlice) :
    LogicalSlice × ArtCursor :=
  let label := if many = true then name ++ " @" ++ toString s.offset else name
  let seq := cursor.seq
  let imageEnded := cursor.imageEnded || cursor.afterLast
  let reason := notOpened seq imageEnded s
  let artOpen := reason.isNone
  let refused := seq.mode = .runtime ∧ s.ok = true ∧ artOpen = false
  ({ s with
      artOpen
      ok := if refused then false else s.ok
      reason := if refused then reason.getD "" else s.reason },
    { seq :=
        if seq.broken = false ∧ imageEnded = false ∧ s.artOwn = false then
          seq.stop label s.artReason
        else seq
      imageEnded
      afterLast := s.lastEntry })

/-- The sequence loop of `ClassifySourceImage`. -/
def openSlices (name : String) (many : Bool) :
    ArtCursor → List LogicalSlice → List LogicalSlice × ArtCursor
  | cursor, [] => ([], cursor)
  | cursor, s :: slices =>
    let (s, cursor) := openSlice name many cursor s
    let (rest, cursor) := openSlices name many cursor slices
    (s :: rest, cursor)

/-- `first_at`: the binary search for the first slice at or past `off`. -/
def firstAt (slices : List LogicalSlice) (off : Nat) : (rounds lo hi : Nat) → Nat
  | 0, lo, _ => lo
  | rounds + 1, lo, hi =>
    if lo < hi then
      let mid := lo + (hi - lo) / 2
      if ((slices.map LogicalSlice.offset).getD mid 0) < off then firstAt slices off rounds (mid + 1) hi
      else firstAt slices off rounds lo mid
    else lo

/-- The container at `begin_` is accepted whole: its members are accepted, lie
in its range, and share it with no other slice. -/
def containerWhole (n : Nat) (slices : List LogicalSlice) (begin_ : Nat) : Bool :=
  let isMember (s : LogicalSlice) : Bool := !s.selfContained && s.containerBegin == begin_
  let members := slices.zipIdx.filter fun (s, _) => isMember s
  match members with
  | [] => true
  | (c, _) :: _ =>
    let lo := firstAt slices begin_ slices.length 0 slices.length
    let hi := firstAt slices c.containerEnd slices.length 0 slices.length
    let inside := (members.filter fun (_, i) => lo ≤ i && i < hi).length
    decide (c.containerEnd ≤ n) && members.all (fun (s, _) => s.ok) && inside == hi - lo &&
      inside == members.length

/-- The sibling rule: a container that is not whole loses all its dexes. -/
def rejectSiblings (n : Nat) (slices : List LogicalSlice) : List LogicalSlice :=
  if slices.all LogicalSlice.ok then slices
  else slices.map fun s =>
    if s.ok = true ∧ s.selfContained = false ∧ containerWhole n slices s.containerBegin = false then
      { s with
        ok := false
        reason := "another dex in this v41 container failed verification, and a container dex " ++
          "cannot be loaded apart from its siblings" }
    else s

/-- What `ClassifySourceImage` returns and leaves in its arguments. -/
structure SourceVerdict where
  slices : List LogicalSlice
  seq : ArtSequence
  missingEntry : Option String := none
  deriving DecidableEq, Repr

/-- `ClassifySourceImage`. -/
def classifySourceImage (adler32 : Memory → Nat) (image : Memory) (checkInsns : Bool)
    (name : String) (seq : ArtSequence) : SourceVerdict :=
  let slices := classifyImageSlices adler32 image checkInsns
  match slices.getLast? with
  | none => ⟨[], seq.stop name "no logical dex in image", none⟩
  | some tail =>
    let (slices, cursor) := openSlices name (1 < slices.length) ⟨seq, false, false⟩ slices
    let next := (tail.offset + tail.size) % 2 ^ 32
    let missing := !cursor.seq.broken && !cursor.imageEnded && !tail.lastEntry
    { slices := rejectSiblings image.length slices
      seq :=
        if missing = true then
          cursor.seq.stop (name ++ " @" ++ toString next) "container entry does not fit"
        else cursor.seq
      missingEntry :=
        if missing = true then
          some ("the v41 container entry expected at offset " ++ toString next ++
            " (the previous entry is not its container's last) does not fit the image; ART's " ++
            "open fails there")
        else none }

end Dexllm
