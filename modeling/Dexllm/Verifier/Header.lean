import Dexllm.Verifier.Context

/-!
The opening of `DexVerifier::Verify` up to `CheckHeader`: where the header's
data range lies in the image, and that every id table lies inside it.
-/

namespace Dexllm

open Guarded Bytes

/-- `ComputeDataRange`: the whole container for a version 41 header, the dex
itself otherwise. -/
def computeDataRange (image : Memory) (headerOff : Nat) (hoff : headerOff ≤ image.length)
    (header : Header) : Run (DataRange image) :=
  let avail := image.length - headerOff
  if kV41Size ≤ avail ∧ kV41Size ≤ header.headerSize then do
    let containerOff ← readContainerOff image headerOff header
    failIf (headerOff < containerOff) "Dex container starts before the image"
    let baseOff := headerOff - containerOff
    let containerSize ← readContainerSize image headerOff header
    if hsize : image.length - baseOff < containerSize then
      fail "Dex container size is past the image"
    else
      pure ⟨baseOff, containerSize, by omega⟩
  else
    pure ⟨headerOff, min header.fileSize avail, by omega⟩

/-- The part of `Verify` before the phases: the header exists and its data
range can be computed. -/
def openVerifier (image : Memory) (headerOff : Nat) (checkInsns : Bool) : Run Verifier :=
  if hoff : headerOff ≤ image.length then do
    failIf (image.length - headerOff < kV40Size) "Empty or truncated file"
    let header ← read kV40Size headerAt image headerOff
    let range ← computeDataRange image headerOff hoff header
    pure ⟨image, headerOff, header, range, checkInsns⟩
  else
    fail "Empty or truncated file"

namespace Verifier

variable (v : Verifier)

/-- The checks of `CheckHeader` on one id table: offset and alignment, then the
byte span of its `size` items of `bytes` bytes. -/
def checkTable (off size bytes : Nat) (label : String) : Run Unit := do
  v.checkValidOffsetAndSize off size 4 label
  v.checkListSize (v.offsetToPtr off) size bytes (label ++ " span")

/-- The section block of `CheckHeader`. -/
def checkSections : Run Unit := do
  let header := v.header
  v.checkValidOffsetAndSize header.linkOff header.linkSize 0 "link"
  v.checkValidOffsetAndSize header.mapOff 4 4 "map"
  v.checkTable header.stringIdsOff header.stringIdsSize 4 "string-ids"
  v.checkTable header.typeIdsOff header.typeIdsSize 4 "type-ids"
  checkSizeLimit header.typeIdsSize (kNoIndex - 1) "type-ids"
  v.checkTable header.protoIdsOff header.protoIdsSize ProtoId.bytes "proto-ids"
  checkSizeLimit header.protoIdsSize (kNoIndex - 1) "proto-ids"
  v.checkTable header.fieldIdsOff header.fieldIdsSize FieldId.bytes "field-ids"
  v.checkTable header.methodIdsOff header.methodIdsSize MethodId.bytes "method-ids"
  v.checkTable header.classDefsOff header.classDefsSize ClassDef.bytes "class-defs"
  v.checkValidOffsetAndSize header.dataOff header.dataSize 0 "data"

/-- The version 41 container fields are self-consistent. -/
def checkContainer : Run Unit := do
  let containerSize ← readContainerSize v.image v.headerOff v.header
  let containerOff ← readContainerOff v.image v.headerOff v.header
  failIf (containerSize ≤ containerOff) "Dex container is too small"
  failIf (containerSize - containerOff < v.header.fileSize)
    "Header file_size is past multi-dex size"

def checkHeader : Run Unit := do
  failIf (v.header.magic.take 4 ≠ [0x64, 0x65, 0x78, 0x0a]) "Bad file magic"
  let version := getVersion v.header.magic
  failIf (version < kMinVersion ∨ kMaxVersion < version) "Unknown dex version"
  let headerSize := if kV41 ≤ version then kV41Size else kV40Size
  failIf (v.header.fileSize < headerSize) "Bad file size (too small)"
  failIf (v.avail < v.header.fileSize) "Bad file size (past image)"
  failIf (v.header.headerSize ≠ headerSize) "Bad header size"
  failIf (v.header.endianTag ≠ kEndianConstant) "Unexpected endian_tag"
  onlyIf (kV41 ≤ version) v.checkContainer
  v.checkSections

/-- The byte spans of the id tables and the map's count lie in the data
range. -/
structure TablesOk : Prop where
  map : v.header.mapOff + 4 ≤ v.range.size_
  strings : v.header.stringIdsOff + v.header.stringIdsSize * 4 ≤ v.range.size_
  types : v.header.typeIdsOff + v.header.typeIdsSize * 4 ≤ v.range.size_
  protos : v.header.protoIdsOff + v.header.protoIdsSize * 12 ≤ v.range.size_
  fields : v.header.fieldIdsOff + v.header.fieldIdsSize * 8 ≤ v.range.size_
  methods : v.header.methodIdsOff + v.header.methodIdsSize * 8 ≤ v.range.size_
  classDefs : v.header.classDefsOff + v.header.classDefsSize * 32 ≤ v.range.size_
  typeLimit : v.header.typeIdsSize ≤ kNoIndex - 1

section Specs

variable {v}

theorem wp_checkTable {off size bytes : Nat} {label : String} (hbytes : 0 < bytes)
    {post : Unit → Prop} (h : off + size * bytes ≤ v.range.size_ → post ()) :
    wp (v.checkTable off size bytes label) post := by
  simp only [checkTable, wp_bind]
  apply wp_checkValidOffsetAndSize
  intro _
  apply wp_checkListSize hbytes
  intro _ hspan
  apply h
  simp only [offsetToPtr, endOfFile] at hspan
  omega

theorem wp_checkSections : wp v.checkSections fun _ => v.TablesOk := by
  simp only [checkSections, checkSizeLimit, wp_bind]
  apply wp_checkValidOffsetAndSize
  intro _
  apply wp_checkValidOffsetAndSize
  intro hmap
  apply wp_checkTable (by decide)
  intro hstrings
  apply wp_checkTable (by decide)
  intro htypes
  rw [wp_failIf]
  intro hlimit
  apply wp_checkTable (by decide)
  intro hprotos
  rw [wp_failIf]
  intro _
  apply wp_checkTable (by decide)
  intro hfields
  apply wp_checkTable (by decide)
  intro hmethods
  apply wp_checkTable (by decide)
  intro hclassDefs
  apply wp_checkValidOffsetAndSize
  intro _
  exact ⟨hmap, hstrings, htypes, hprotos, hfields, hmethods, hclassDefs, by omega⟩

theorem wp_readContainerSize {mem : Memory} {a : Nat} {header : Header} {post : Nat → Prop}
    (hin : kV41Size ≤ header.headerSize → a + kV41Size ≤ mem.length) (h : ∀ n, post n) :
    wp (readContainerSize mem a header) post := by
  unfold readContainerSize
  rw [wp_ite]
  constructor
  · intro hv41
    have hend := hin hv41
    unfold kV41Size at hend
    rw [wp_readU4]
    exact ⟨by omega, h _⟩
  · intro _
    exact h _

theorem wp_readContainerOff {mem : Memory} {a : Nat} {header : Header} {post : Nat → Prop}
    (hin : kV41Size ≤ header.headerSize → a + kV41Size ≤ mem.length) (h : ∀ n, post n) :
    wp (readContainerOff mem a header) post := by
  unfold readContainerOff
  rw [wp_ite]
  constructor
  · intro hv41
    have hend := hin hv41
    unfold kV41Size at hend
    rw [wp_readU4]
    exact ⟨by omega, h _⟩
  · intro _
    exact h _

/-- `CheckHeader` reads only the header and leaves every id table inside the
data range. -/
theorem wp_checkHeader (hoff : v.headerOff ≤ v.image.length) :
    wp v.checkHeader fun _ => v.TablesOk := by
  simp only [checkHeader, wp_bind, wp_failIf, wp_onlyIf]
  intro _ _ _ hfile hsize _
  constructor
  · intro hversion
    simp only [hversion, if_true] at *
    have hin : kV41Size ≤ v.header.headerSize → v.headerOff + kV41Size ≤ v.image.length := by
      intro _
      unfold avail at hfile
      omega
    simp only [checkContainer, wp_bind, wp_failIf]
    apply wp_readContainerSize hin
    intro _
    apply wp_readContainerOff hin
    intro _ _ _
    exact wp_checkSections
  · intro _
    exact wp_checkSections

/-- The size fields of an accepted header: the dex fits behind it, and for a
version 41 header inside its container. -/
structure SizesOk (v : Verifier) : Prop where
  file : v.header.fileSize ≤ v.avail
  headerSize : v.header.headerSize = kV40Size ∨ v.header.headerSize = kV41Size
  header : v.header.headerSize ≤ v.header.fileSize
  container : v.header.headerSize = kV41Size →
    u4At v.image (v.headerOff + 116) + v.header.fileSize ≤ u4At v.image (v.headerOff + 112)

theorem sizesOk_of_checkHeader (h : v.checkHeader = .ok ()) : v.SizesOk := by
  simp only [checkHeader, bind_eq_ok, failIf_eq_ok] at h
  obtain ⟨_, _, _, _, _, hmin, _, hfile, _, hsize, _, _, _, hcontainer, _⟩ := h
  by_cases hversion : kV41 ≤ getVersion v.header.magic
  · simp only [hversion, if_true, onlyIf, not_not] at hmin hsize hcontainer
    have hbig : kV41Size ≤ v.header.headerSize := by omega
    simp only [checkContainer, readContainerSize, readContainerOff, hbig, if_true, bind_eq_ok,
      failIf_eq_ok] at hcontainer
    obtain ⟨size, hreadSize, off, hreadOff, _, hsmall, hfits⟩ := hcontainer
    obtain ⟨_, rfl⟩ := read_eq_ok.mp hreadSize
    obtain ⟨_, rfl⟩ := read_eq_ok.mp hreadOff
    exact ⟨by omega, .inr hsize, by omega, fun _ => by omega⟩
  · simp only [hversion, if_false, not_not] at hmin hsize
    refine ⟨by omega, .inl hsize, by omega, fun hv41 => ?_⟩
    rw [hsize] at hv41
    exact absurd hv41 (by decide)

end Specs

end Verifier

/-- Opening a verifier reads only inside the image and records the image, the
header offset and the check mode it was given. -/
theorem wp_openVerifier (image : Memory) (headerOff : Nat) (checkInsns : Bool) :
    wp (openVerifier image headerOff checkInsns) fun v =>
      v.headerOff ≤ v.image.length ∧ v.image = image ∧ v.headerOff = headerOff ∧
        v.checkInsns = checkInsns := by
  unfold openVerifier
  split
  · rename_i hoff
    simp only [wp_bind, wp_failIf, wp_read]
    intro havail
    refine ⟨by omega, ?_⟩
    unfold computeDataRange
    simp only [wp_ite]
    constructor
    · rintro ⟨havail41, _⟩
      have hin : kV41Size ≤ (headerAt image headerOff).headerSize →
          headerOff + kV41Size ≤ image.length := by
        intro _
        unfold kV41Size at havail41 ⊢
        omega
      simp only [wp_bind, wp_failIf]
      apply Verifier.wp_readContainerOff hin
      intro containerOff _
      apply Verifier.wp_readContainerSize hin
      intro containerSize
      split
      · trivial
      · exact ⟨hoff, rfl, rfl, rfl⟩
    · intro _
      exact ⟨hoff, rfl, rfl, rfl⟩
  · trivial

end Dexllm
