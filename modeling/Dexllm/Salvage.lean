import Mathlib.Data.List.Nodup
import Mathlib.Data.List.Pairwise
import Mathlib.Data.List.Perm.Subperm
import Mathlib.Data.List.TakeWhile
import Dexllm.SourceImage

/-!
The images that a session keeps of a source, and the dexes that the core splits
them into. An image with a rejected slice is kept as copies of the accepted
ones, a container as a whole, and the core splits each copy from its own first
byte.
-/

namespace Dexllm

open Guarded Bytes

/-- `kMaxLoadedDexes`. -/
def kMaxLoadedDexes : Nat := 2 ^ 16

/-- `EmitSliceVerdicts`, without its rows: the slices and the next dex id. -/
def emitSliceVerdicts (nextDexId : Nat) : List LogicalSlice → List LogicalSlice × Nat
  | [] => ([], nextDexId)
  | s :: slices =>
    let s :=
      if s.ok = true ∧ kMaxLoadedDexes ≤ nextDexId then
        { s with
          ok := false
          reason := "too many logical dexes in this session (the core addresses a " ++
            "dex_id as uint16_t, so at most 65536 can be loaded)" }
      else s
    let (rest, last) := emitSliceVerdicts (if s.ok = true then nextDexId + 1 else nextDexId) slices
    (s :: rest, last)

/-- The slices of an image as its source's walk leaves them. -/
def judgedSlices (adler32 : Memory → Nat) (image : Memory) (checkInsns : Bool) (name : String)
    (seq : ArtSequence) (nextDexId : Nat) : List LogicalSlice :=
  (emitSliceVerdicts nextDexId (classifySourceImage adler32 image checkInsns name seq).slices).1

/-- An image that the session keeps, and where it comes from in the source's. -/
structure KeptImage where
  baseOffset : Nat
  bytes : Memory

/-- `CopySlice`. -/
def copySlice (image : Memory) (start size : Nat) : KeptImage := ⟨start, slice image start size⟩

/-- The copies that the sink makes; `copied` is `containers_copied`. -/
def copies (image : Memory) : List Nat → List LogicalSlice → List KeptImage
  | _, [] => []
  | copied, s :: slices =>
    if s.ok = false then copies image copied slices
    else if s.selfContained = true then
      copySlice image s.offset s.size :: copies image copied slices
    else if s.containerBegin ∈ copied then copies image copied slices
    else
      copySlice image s.containerBegin ((s.containerEnd - s.containerBegin) % 2 ^ 32) ::
        copies image (s.containerBegin :: copied) slices

/-- The sink of `CollectInput`, for an image with an accepted slice. -/
def keptImages (image : Memory) (slices : List LogicalSlice) : List KeptImage :=
  if (slices.filter LogicalSlice.ok).length = slices.length then [⟨0, image⟩]
  else copies image [] slices

/-- The loop of the core's `ParseLogicalDexOffsets` from `off` on. -/
def parseLogicalDexOffsetsFrom (image : Memory) : (rounds off : Nat) → List Nat
  | 0, _ => []
  | rounds + 1, off =>
    if image.length < off + kV41Size then []
    else
      let size := (headerAt image off).fileSize
      if size < kV41Size ∨ image.length < off + size then []
      else off % 2 ^ 32 :: parseLogicalDexOffsetsFrom image rounds (off + size)

/-- The core's `ParseLogicalDexOffsets`. -/
def parseLogicalDexOffsets (image : Memory) : List Nat :=
  parseLogicalDexOffsetsFrom image image.length 0

/-- A dex that the core was handed: its provenance offset and its bytes. -/
structure HandedDex where
  offset : Nat
  bytes : Memory
  deriving DecidableEq

/-- The dexes that the core splits a kept image into. -/
def handedOf (kept : KeptImage) : List HandedDex :=
  (parseLogicalDexOffsets kept.bytes).map fun off =>
    ⟨kept.baseOffset + off, slice kept.bytes off (headerAt kept.bytes off).fileSize⟩

/-- The slice at its original bytes. -/
def LogicalSlice.original (image : Memory) (s : LogicalSlice) : HandedDex :=
  ⟨s.offset, slice image s.offset s.size⟩

/-- The core is handed the accepted slices and nothing else, and each of them
that is in a container comes with the whole of it. -/
structure HandsAccepted (image : Memory) (slices : List LogicalSlice) : Prop where
  exact : (keptImages image slices).flatMap handedOf =
    (slices.filter LogicalSlice.ok).map (LogicalSlice.original image)
  covered : (slices.filter LogicalSlice.ok).length ≠ slices.length →
    ∀ kept ∈ copies image [] slices, ∀ s ∈ slices, s.ok = true → s.selfContained = false →
    s.original image ∈ handedOf kept →
      kept.baseOffset ≤ s.containerBegin ∧
        s.containerEnd ≤ kept.baseOffset + kept.bytes.length

/-- A member of the container at `start` that was accepted. -/
def LogicalSlice.inContainer (start : Nat) (s : LogicalSlice) : Bool :=
  s.ok && !s.selfContained && s.containerBegin == start

/-- Where the copy of the container at `start` ends: the first accepted member
says so. -/
def copyEnd (slices : List LogicalSlice) (start : Nat) : Nat :=
  ((slices.find? (LogicalSlice.inContainer start)).map LogicalSlice.containerEnd).getD start

/-- What a copied container must be like to split into its accepted members. -/
structure CopySplits (image : Memory) (slices : List LogicalSlice) (s : LogicalSlice) : Prop where
  begins : ∃ t ∈ slices, t.offset = s.containerBegin
  inside : s.offset + s.size ≤ copyEnd slices s.containerBegin ∧
    s.containerEnd ≤ copyEnd slices s.containerBegin
  fits : copyEnd slices s.containerBegin ≤ image.length
  alone : ∀ t ∈ slices, s.containerBegin ≤ t.offset →
    t.offset + t.size ≤ copyEnd slices s.containerBegin → t.inContainer s.containerBegin = true

/-- A header of the splitter's rule lies at `off`. -/
def Fits (image : Memory) (off : Nat) : Prop :=
  off + kV41Size ≤ image.length ∧ kV41Size ≤ (headerAt image off).fileSize ∧
    off + (headerAt image off).fileSize ≤ image.length

/-- The slices are the strides of the image from `off` on. -/
inductive Strides (image : Memory) : Nat → List LogicalSlice → Prop where
  | done {off : Nat} (h : ¬Fits image off) : Strides image off []
  | next {s : LogicalSlice} {slices : List LogicalSlice} (hfits : Fits image s.offset)
      (hsize : s.size = (headerAt image s.offset).fileSize)
      (hbegin : s.containerBegin ≤ s.offset)
      (hend : s.selfContained = false → s.containerBegin ≤ s.containerEnd ∧
        s.containerEnd < s.containerBegin + 2 ^ 32)
      (hrest : Strides image (s.offset + s.size) slices) : Strides image s.offset (s :: slices)

section Strides

variable {image : Memory}

theorem strides_logicalDexSlicesFrom (hlen : image.length < 2 ^ 32) (rounds off : Nat)
    (hrounds : image.length ≤ off + rounds) :
    Strides image off (logicalDexSlicesFrom image rounds off) := by
  induction rounds generalizing off with
  | zero =>
    apply Strides.done
    rintro ⟨hheader, -, -⟩
    simp only [kV41Size] at hheader
    omega
  | succ rounds ih =>
    simp only [logicalDexSlicesFrom]
    split
    · apply Strides.done
      rintro ⟨hheader, -, -⟩
      omega
    · split
      · apply Strides.done
        rintro ⟨-, hsize, hstop⟩
        omega
      · rename_i hheader hsize
        have hoff : (logicalSliceAt image off).offset = off := by
          simp only [logicalSliceAt, kV41Size] at *
          omega
        have hrest := ih (off + (headerAt image off).fileSize) (by
          simp only [kV41Size] at *
          omega)
        have hnext : Strides image (logicalSliceAt image off).offset
            (logicalSliceAt image off ::
              logicalDexSlicesFrom image rounds (off + (headerAt image off).fileSize)) := by
          have hbegin : (logicalSliceAt image off).containerBegin ≤ off := by
            simp only [logicalSliceAt, kV41Size] at *
            split <;> omega
          apply Strides.next
          · rw [hoff]
            exact ⟨by omega, by omega, by omega⟩
          · rw [hoff]
            rfl
          · rw [hoff]
            exact hbegin
          · intro hself
            have hsize' : containerSizeAt image off < 2 ^ 32 := by
              unfold containerSizeAt
              split
              · exact u4At_lt _ _
              · exact u4At_lt _ _
            have hend : (logicalSliceAt image off).containerEnd =
                (logicalSliceAt image off).containerBegin + containerSizeAt image off := by
              simp only [logicalSliceAt] at hself ⊢
              rw [if_neg (by simpa using hself)]
            omega
          · rw [hoff]
            exact hrest
        rwa [hoff] at hnext

variable {slices : List LogicalSlice} {off : Nat}

theorem Strides.bounds (h : Strides image off slices) :
    ∀ s ∈ slices, off ≤ s.offset ∧ s.size = (headerAt image s.offset).fileSize ∧
      kV41Size ≤ s.size ∧ s.offset + s.size ≤ image.length := by
  induction h with
  | done _ => simp
  | @next s slices hfits hsize _ _ _ ih =>
    obtain ⟨_, hmin, hstop⟩ := hfits
    rw [← hsize] at hmin hstop
    intro t ht
    cases ht with
    | head => exact ⟨Nat.le_refl _, hsize, hmin, hstop⟩
    | tail _ ht =>
      obtain ⟨hle, hrest⟩ := ih t ht
      exact ⟨by omega, hrest⟩

theorem length_copy {base stop : Nat} (hstop : stop ≤ image.length) :
    (slice image base (stop - base)).length = stop - base := by
  rw [length_slice]
  omega

theorem fileSize_copy {base stop off : Nat} (hbase : base ≤ off) (hheader : off + kV41Size ≤ stop) :
    (headerAt (slice image base (stop - base)) (off - base)).fileSize =
      (headerAt image off).fileSize := by
  change u4At (slice image base (stop - base)) (off - base + 32) = u4At image (off + 32)
  simp only [kV41Size] at hheader
  rw [u4At_slice _ _ _ (by omega)]
  congr 1
  omega

/-- The core's splitter on a copy of `[base, stop)`, from a stride on: the
slices that the copy holds whole. -/
theorem Strides.parse_copy (h : Strides image off slices) {base stop : Nat} (hbase : base ≤ off)
    (hstop : stop ≤ image.length) (hlen : image.length < 2 ^ 32) (rounds : Nat)
    (hrounds : stop ≤ off + rounds) :
    parseLogicalDexOffsetsFrom (slice image base (stop - base)) rounds (off - base) =
      (slices.takeWhile fun s => s.offset + s.size ≤ stop).map fun s => s.offset - base := by
  have hcopy := @length_copy image base stop hstop
  have hmin' : kV41Size = 120 := rfl
  induction h generalizing rounds with
  | @done off h =>
    cases rounds with
    | zero => rfl
    | succ rounds =>
      simp only [parseLogicalDexOffsetsFrom, hcopy, List.takeWhile_nil, List.map_nil]
      split
      · rfl
      · rename_i hheader
        rw [fileSize_copy hbase (by omega)]
        split
        · rfl
        · exact absurd ⟨by omega, by omega, by omega⟩ h
  | @next s slices hfits hsize _ _ _ ih =>
    obtain ⟨_, hmin, _⟩ := hfits
    rw [← hsize] at hmin
    by_cases hwhole : s.offset + s.size ≤ stop
    · cases rounds with
      | zero =>
        simp only [kV41Size] at hmin
        omega
      | succ rounds =>
        have hrest := ih (by omega) rounds (by simp only [kV41Size] at hmin; omega)
        rw [List.takeWhile_cons_of_pos (by simpa using hwhole), List.map_cons, ← hrest]
        simp only [parseLogicalDexOffsetsFrom, hcopy]
        rw [if_neg (by omega), fileSize_copy hbase (by omega), ← hsize, if_neg (by omega),
          Nat.mod_eq_of_lt (by omega)]
        congr 2
        omega
    · rw [List.takeWhile_cons_of_neg (by simpa using hwhole)]
      cases rounds with
      | zero => rfl
      | succ rounds =>
        simp only [parseLogicalDexOffsetsFrom, hcopy]
        split
        · rfl
        · rw [fileSize_copy hbase (by omega), ← hsize, if_pos (by omega)]
          rfl

theorem slice_copy {base stop off size : Nat} (hbase : base ≤ off) (hsize : off + size ≤ stop) :
    slice (slice image base (stop - base)) (off - base) size = slice image off size := by
  unfold slice
  rw [List.drop_take, List.drop_drop, List.take_take]
  congr 1
  · omega
  · congr 1
    omega

/-- The dexes in a copy of `[base, stop)` when a slice begins at `base`. -/
theorem Strides.handed_copy {base stop : Nat} (h : Strides image base slices)
    (hstop : stop ≤ image.length) (hlen : image.length < 2 ^ 32) :
    handedOf (copySlice image base (stop - base)) =
      (slices.takeWhile fun s => s.offset + s.size ≤ stop).map (LogicalSlice.original image) := by
  have hparse := h.parse_copy (Nat.le_refl base) hstop hlen (stop - base) (by omega)
  have hcopy := @length_copy image base stop hstop
  have hbytes := h.bounds
  rw [Nat.sub_self] at hparse
  simp only [handedOf, parseLogicalDexOffsets, copySlice, hcopy, hparse, List.map_map]
  apply List.map_congr_left
  intro s hs
  have hfit : s.offset + s.size ≤ stop := by simpa using List.mem_takeWhile_imp hs
  obtain ⟨hle, hsize, hmin, _⟩ := hbytes s ((List.takeWhile_subset _) hs)
  simp only [Function.comp_apply, LogicalSlice.original]
  rw [fileSize_copy hle (by omega), ← hsize, slice_copy hle hfit]
  congr 1
  omega

theorem Strides.pairwise (h : Strides image off slices) :
    slices.Pairwise fun s t => s.offset + s.size ≤ t.offset := by
  induction h with
  | done _ => exact List.Pairwise.nil
  | next _ _ _ _ hrest ih => exact ih.cons fun t ht => (hrest.bounds t ht).1

/-- Past the slices that a copy holds whole it holds none. -/
theorem takeWhile_eq_filter_of_pairwise {stop : Nat}
    (h : slices.Pairwise fun s t => s.offset + s.size ≤ t.offset) :
    (slices.takeWhile fun s => s.offset + s.size ≤ stop) =
      slices.filter fun s => s.offset + s.size ≤ stop := by
  induction slices with
  | nil => rfl
  | cons s slices ih =>
    obtain ⟨hhead, htail⟩ := List.pairwise_cons.mp h
    by_cases hs : s.offset + s.size ≤ stop
    · rw [List.takeWhile_cons_of_pos (by simpa using hs),
        List.filter_cons_of_pos (by simpa using hs), ih htail]
    · rw [List.takeWhile_cons_of_neg (by simpa using hs),
        List.filter_cons_of_neg (by simpa using hs)]
      symm
      rw [List.filter_eq_nil_iff]
      intro t ht
      have hnext := hhead t ht
      simp only [decide_eq_true_eq]
      omega

/-- The strides from a slice on. -/
theorem Strides.from_slice (h : Strides image off slices) {t : LogicalSlice} (ht : t ∈ slices) :
    Strides image t.offset (slices.filter fun s => t.offset ≤ s.offset) := by
  induction h with
  | done _ => simp at ht
  | @next s slices hfits hsize hbegin hend hrest ih =>
    have hbounds := hrest.bounds
    cases ht with
    | head =>
      rw [List.filter_eq_self.mpr]
      · exact Strides.next hfits hsize hbegin hend hrest
      · intro t ht
        rw [decide_eq_true_eq]
        cases ht with
        | head => exact Nat.le_refl _
        | tail _ ht =>
          have hle := (hbounds t ht).1
          omega
    | tail _ ht =>
      have hle := (hbounds t ht).1
      have hmin : kV41Size ≤ s.size := by
        rw [hsize]
        exact hfits.2.1
      have hpos : kV41Size = 120 := rfl
      rw [List.filter_cons_of_neg (by rw [decide_eq_true_eq]; omega)]
      exact ih ht

/-- The dexes in a copy that begins at a slice are the slices in its range. -/
theorem Strides.handed_range (h : Strides image off slices) {t : LogicalSlice} (ht : t ∈ slices)
    {stop : Nat} (hstop : stop ≤ image.length) (hlen : image.length < 2 ^ 32) :
    handedOf (copySlice image t.offset (stop - t.offset)) =
      (slices.filter fun s => t.offset ≤ s.offset ∧ s.offset + s.size ≤ stop).map
        (LogicalSlice.original image) := by
  have hfrom := h.from_slice ht
  rw [hfrom.handed_copy hstop hlen, takeWhile_eq_filter_of_pairwise hfrom.pairwise,
    List.filter_filter]
  simp only [Bool.decide_and, Bool.and_comm]

theorem Strides.sorted (h : Strides image off slices) :
    slices.Pairwise fun s t => s.offset < t.offset := by
  have hpos : kV41Size = 120 := rfl
  apply h.pairwise.imp_of_mem
  intro s t hs _ hle
  have hmin := (h.bounds s hs).2.2.1
  omega

theorem Strides.eq_of_offset (h : Strides image off slices) {s t : LogicalSlice} (hs : s ∈ slices)
    (ht : t ∈ slices) (heq : s.offset = t.offset) : s = t := by
  have hapart : slices.Pairwise fun s t => s.offset ≠ t.offset :=
    h.sorted.imp Nat.ne_of_lt
  have hsymm : Std.Symm fun s t : LogicalSlice => s.offset ≠ t.offset := ⟨fun _ _ h => h.symm⟩
  by_contra hne
  exact hapart.forall hs ht hne heq

theorem filter_append_filter {α : Type} {l : List α} {p q r : α → Bool}
    (hfirst : l.Pairwise fun x y => p y = true → p x = true)
    (hor : ∀ x ∈ l, r x = (p x || q x)) (hapart : ∀ x ∈ l, p x = true → q x = false) :
    l.filter p ++ l.filter q = l.filter r := by
  induction l with
  | nil => rfl
  | cons x l ih =>
    obtain ⟨hhead, htail⟩ := List.pairwise_cons.mp hfirst
    have hrest := ih htail (fun y hy => hor y (List.mem_cons_of_mem _ hy))
      fun y hy => hapart y (List.mem_cons_of_mem _ hy)
    have hx := hor x List.mem_cons_self
    cases hp : p x with
    | true =>
      have hq := hapart x List.mem_cons_self hp
      rw [hp, Bool.true_or] at hx
      rw [List.filter_cons_of_pos hp, List.filter_cons_of_neg (by simp [hq]),
        List.filter_cons_of_pos hx, List.cons_append, hrest]
    | false =>
      have hnone : l.filter p = [] := by
        rw [List.filter_eq_nil_iff]
        intro y hy hpy
        rw [hhead y hy hpy] at hp
        cases hp
      rw [hp, Bool.false_or] at hx
      rw [hnone, List.nil_append] at hrest
      rw [List.filter_cons_of_neg (by simp [hp]), hnone, List.nil_append, List.filter_cons,
        List.filter_cons, hrest, hx]

end Strides

section Copies

variable {image : Memory} {slices : List LogicalSlice}

/-- The copy of the container at `start`. -/
def containerCopy (image : Memory) (slices : List LogicalSlice) (start : Nat) : KeptImage :=
  copySlice image start (copyEnd slices start - start)

theorem inContainer_iff {start : Nat} {s : LogicalSlice} : s.inContainer start = true ↔
    s.ok = true ∧ s.selfContained = false ∧ s.containerBegin = start := by
  simp [LogicalSlice.inContainer, and_assoc]

/-- `copied` holds the containers of the accepted slices in `done`. -/
def Copied (copied : List Nat) (done : List LogicalSlice) : Prop :=
  ∀ s ∈ done, s.ok = true → s.selfContained = false → s.containerBegin ∈ copied

theorem Copied.skip {copied : List Nat} {done : List LogicalSlice} {s : LogicalSlice}
    (h : Copied copied done)
    (hs : s.ok = true → s.selfContained = false → s.containerBegin ∈ copied) :
    Copied copied (done ++ [s]) := by
  intro t ht
  rcases List.mem_append.mp ht with ht | ht
  · exact h t ht
  · rw [List.mem_singleton] at ht
    subst ht
    exact hs

theorem Copied.copy {copied : List Nat} {done : List LogicalSlice} {s : LogicalSlice}
    (h : Copied copied done) : Copied (s.containerBegin :: copied) (done ++ [s]) := by
  apply Copied.skip
  · intro t ht hok hself
    exact List.mem_cons_of_mem _ (h t ht hok hself)
  · intro _ _
    exact List.mem_cons_self

/-- The first accepted member of a container says where its copy ends. -/
theorem copyEnd_first {copied : List Nat} {done rest : List LogicalSlice} {s : LogicalSlice}
    (h : Copied copied done) (hok : s.ok = true) (hself : s.selfContained = false)
    (hnew : s.containerBegin ∉ copied) :
    copyEnd (done ++ s :: rest) s.containerBegin = s.containerEnd := by
  have hnone : done.find? (LogicalSlice.inContainer s.containerBegin) = none := by
    rw [List.find?_eq_none]
    intro t ht hin
    obtain ⟨htok, htself, hbegin⟩ := inContainer_iff.mp hin
    exact hnew (hbegin ▸ h t ht htok htself)
  have hin : s.inContainer s.containerBegin = true := inContainer_iff.mpr ⟨hok, hself, rfl⟩
  rw [copyEnd, List.find?_append, hnone, List.find?_cons_of_pos hin]
  rfl

/-- `kept` is the copy that the accepted slice makes, or that is made for its
container. -/
def CopyOf (image : Memory) (slices : List LogicalSlice) (kept : KeptImage) (s : LogicalSlice) :
    Prop :=
  s.ok = true ∧ (s.selfContained = true ∧ kept = copySlice image s.offset s.size ∨
    s.selfContained = false ∧ kept = containerCopy image slices s.containerBegin)

theorem mem_copies {kept : KeptImage} {copied : List Nat} {done rest : List LogicalSlice}
    (hslices : slices = done ++ rest) (h : Copied copied done)
    (hrange : ∀ s ∈ slices, s.selfContained = false →
      s.containerBegin ≤ s.containerEnd ∧ s.containerEnd < s.containerBegin + 2 ^ 32)
    (hkept : kept ∈ copies image copied rest) :
    ∃ s ∈ rest, CopyOf image slices kept s := by
  induction rest generalizing copied done with
  | nil => simp [copies] at hkept
  | cons s rest ih =>
    have hnext : slices = (done ++ [s]) ++ rest := by simp [hslices]
    have hlift {copied : List Nat} (h : Copied copied (done ++ [s]))
        (hkept : kept ∈ copies image copied rest) :
        ∃ t ∈ s :: rest, CopyOf image slices kept t := by
      obtain ⟨t, ht, hcopy⟩ := ih hnext h hkept
      exact ⟨t, List.mem_cons_of_mem _ ht, hcopy⟩
    simp only [copies] at hkept
    split at hkept
    · rename_i hok
      exact hlift (h.skip fun hok' => by simp [hok] at hok') hkept
    · rename_i hok
      rw [Bool.not_eq_false] at hok
      split at hkept
      · rename_i hself
        cases hkept with
        | head => exact ⟨s, List.mem_cons_self, hok, .inl ⟨hself, rfl⟩⟩
        | tail _ hkept => exact hlift (h.skip fun _ hself' => by simp [hself] at hself') hkept
      · rename_i hself
        rw [Bool.not_eq_true] at hself
        split at hkept
        · rename_i hin
          exact hlift (h.skip fun _ _ => hin) hkept
        · rename_i hnew
          have hend := @copyEnd_first _ _ rest _ h hok hself hnew
          have hwidth := hrange s (by simp [hslices]) hself
          rw [← hslices] at hend
          cases hkept with
          | head =>
            refine ⟨s, List.mem_cons_self, hok, .inr ⟨hself, ?_⟩⟩
            rw [containerCopy, hend, Nat.mod_eq_of_lt (by omega)]
          | tail _ hkept => exact hlift h.copy hkept

/-- The slices that a copy holds between its begin and its end. -/
def inRange (start stop : Nat) (s : LogicalSlice) : Bool :=
  decide (start ≤ s.offset ∧ s.offset + s.size ≤ stop)

/-- A slice's own range holds that slice alone. -/
theorem Strides.filter_own (h : Strides image 0 slices) {done rest : List LogicalSlice}
    {s : LogicalSlice} (hslices : slices = done ++ s :: rest) :
    slices.filter (inRange s.offset (s.offset + s.size)) = [s] := by
  have hpos : kV41Size = 120 := rfl
  have hbounds := h.bounds
  have hpairs := h.pairwise
  rw [hslices] at hbounds hpairs ⊢
  obtain ⟨_, hlater, hbefore⟩ := List.pairwise_append.mp hpairs
  have hdone : done.filter (inRange s.offset (s.offset + s.size)) = [] := by
    rw [List.filter_eq_nil_iff]
    intro t ht
    have hlt := hbefore t ht s List.mem_cons_self
    have hmin := (hbounds t (List.mem_append_left _ ht)).2.2.1
    simp only [inRange, decide_eq_true_eq]
    omega
  have hrest : rest.filter (inRange s.offset (s.offset + s.size)) = [] := by
    rw [List.filter_eq_nil_iff]
    intro t ht
    have hlt := (List.pairwise_cons.mp hlater).1 t ht
    have hmin := (hbounds t (List.mem_append_right _ (List.mem_cons_of_mem _ ht))).2.2.1
    simp only [inRange, decide_eq_true_eq]
    omega
  rw [List.filter_append, hdone, List.filter_cons_of_pos (by simp [inRange]), hrest]
  rfl

theorem Strides.handed_own (h : Strides image 0 slices) (hlen : image.length < 2 ^ 32)
    {done rest : List LogicalSlice} {s : LogicalSlice} (hslices : slices = done ++ s :: rest) :
    handedOf (copySlice image s.offset s.size) = [s.original image] := by
  have hs : s ∈ slices := by simp [hslices]
  have hrange := h.handed_range hs (h.bounds s hs).2.2.2 hlen
  rw [Nat.add_sub_cancel_left] at hrange
  rw [hrange]
  exact congrArg (List.map _) (h.filter_own hslices)

/-- A copied container of the right kind splits into its accepted members. -/
theorem Strides.handed_container (h : Strides image 0 slices) (hlen : image.length < 2 ^ 32)
    {s : LogicalSlice} (hs : s ∈ slices) (hok : s.ok = true) (hself : s.selfContained = false)
    (hcond : ∀ t ∈ slices, t.ok = true → t.selfContained = false → CopySplits image slices t)
    (hbegin : ∀ t ∈ slices, t.containerBegin ≤ t.offset) :
    handedOf (containerCopy image slices s.containerBegin) =
      (slices.filter (LogicalSlice.inContainer s.containerBegin)).map
        (LogicalSlice.original image) := by
  have hsplits := hcond s hs hok hself
  obtain ⟨first, hfirst, hoff⟩ := hsplits.begins
  have hrange := h.handed_range hfirst hsplits.fits hlen
  rw [hoff] at hrange
  rw [containerCopy, hrange]
  congr 1
  apply List.filter_congr
  intro t ht
  rw [Bool.eq_iff_iff, decide_eq_true_eq]
  constructor
  · rintro ⟨hle, hstop⟩
    exact hsplits.alone t ht hle hstop
  · intro hin
    obtain ⟨htok, htself, hsame⟩ := inContainer_iff.mp hin
    have hinside := (hcond t ht htok htself).inside.1
    rw [hsame] at hinside
    exact ⟨hsame ▸ hbegin t ht, hinside⟩

/-- What the copies still to be made hand over: the accepted slices of the
containers not yet copied. -/
def keep (copied : List Nat) (s : LogicalSlice) : Bool :=
  s.ok && (s.selfContained || decide (s.containerBegin ∉ copied))

/-- The members of a container are next to each other, so its copy comes where
they stand. -/
theorem Strides.members_first (h : Strides image 0 slices) {copied : List Nat}
    {done rest : List LogicalSlice} {s : LogicalSlice} (hslices : slices = done ++ s :: rest)
    (hcopied : Copied copied done) (hok : s.ok = true) (hself : s.selfContained = false)
    (hnew : s.containerBegin ∉ copied)
    (hcond : ∀ t ∈ slices, t.ok = true → t.selfContained = false → CopySplits image slices t)
    (hbegin : s.containerBegin ≤ s.offset) :
    slices.filter (LogicalSlice.inContainer s.containerBegin) ++
        rest.filter (keep (s.containerBegin :: copied)) =
      (s :: rest).filter (keep copied) := by
  have hmem (t : LogicalSlice) (ht : t ∈ rest) : t ∈ slices := by simp [hslices, ht]
  have hsplits := hcond s (by simp [hslices]) hok hself
  have hdone : done.filter (LogicalSlice.inContainer s.containerBegin) = [] := by
    rw [List.filter_eq_nil_iff]
    intro t ht hin
    obtain ⟨htok, htself, hsame⟩ := inContainer_iff.mp hin
    exact hnew (hsame ▸ hcopied t ht htok htself)
  have hpairs := h.pairwise
  rw [hslices] at hpairs
  obtain ⟨hafter, hrest⟩ := List.pairwise_cons.mp (List.pairwise_append.mp hpairs).2.1
  have hfirst : rest.Pairwise fun x y => y.inContainer s.containerBegin = true →
      x.inContainer s.containerBegin = true := by
    refine hrest.imp_of_mem fun {x y} hx hy hxy hin => ?_
    obtain ⟨hyok, hyself, hsame⟩ := inContainer_iff.mp hin
    have hinside := (hcond y (hmem y hy) hyok hyself).inside.1
    have hlt := hafter x hx
    rw [hsame] at hinside
    exact hsplits.alone x (hmem x hx) (by omega) (by omega)
  have hparts := filter_append_filter (q := keep (s.containerBegin :: copied))
    (r := keep copied) hfirst
    (fun t _ => by
      by_cases hsame : t.containerBegin = s.containerBegin
      · cases htok : t.ok <;> cases htself : t.selfContained <;>
          simp [keep, LogicalSlice.inContainer, htok, htself, hsame, hnew]
      · cases htok : t.ok <;> cases htself : t.selfContained <;>
          simp [keep, LogicalSlice.inContainer, htok, htself, hsame])
    (fun t _ hin => by
      obtain ⟨_, htself, hsame⟩ := inContainer_iff.mp hin
      simp [keep, htself, hsame])
  have hin : s.inContainer s.containerBegin = true := inContainer_iff.mpr ⟨hok, hself, rfl⟩
  rw [hslices, List.filter_append, hdone, List.nil_append, List.filter_cons_of_pos hin,
    List.filter_cons_of_pos (by simp [keep, hok, hself, hnew]), List.cons_append, hparts]

theorem Strides.handed_copies (h : Strides image 0 slices) (hlen : image.length < 2 ^ 32)
    (hcond : ∀ t ∈ slices, t.ok = true → t.selfContained = false → CopySplits image slices t)
    (hbegin : ∀ t ∈ slices, t.containerBegin ≤ t.offset)
    (hwidth : ∀ s ∈ slices, s.selfContained = false →
      s.containerBegin ≤ s.containerEnd ∧ s.containerEnd < s.containerBegin + 2 ^ 32)
    {copied : List Nat} {done rest : List LogicalSlice} (hslices : slices = done ++ rest)
    (hcopied : Copied copied done) :
    (copies image copied rest).flatMap handedOf =
      (rest.filter (keep copied)).map (LogicalSlice.original image) := by
  induction rest generalizing copied done with
  | nil => rfl
  | cons s rest ih =>
    have hnext : slices = (done ++ [s]) ++ rest := by simp [hslices]
    have hs : s ∈ slices := by simp [hslices]
    simp only [copies]
    split
    · rename_i hok
      rw [List.filter_cons_of_neg (by simp [keep, hok])]
      exact ih hnext (hcopied.skip fun hok' => by simp [hok] at hok')
    · rename_i hok
      rw [Bool.not_eq_false] at hok
      split
      · rename_i hself
        rw [List.filter_cons_of_pos (by simp [keep, hok, hself]), List.flatMap_cons,
          h.handed_own hlen hslices, List.map_cons, List.singleton_append,
          ih hnext (hcopied.skip fun _ hself' => by simp [hself] at hself')]
      · rename_i hself
        rw [Bool.not_eq_true] at hself
        split
        · rename_i hin
          rw [List.filter_cons_of_neg (by simp [keep, hself, hin])]
          exact ih hnext (hcopied.skip fun _ _ => hin)
        · rename_i hnew
          have hend := @copyEnd_first _ _ rest _ hcopied hok hself hnew
          have hwide := hwidth s hs hself
          have hsplits := hcond s hs hok hself
          rw [← hslices] at hend
          have hcopy : copySlice image s.containerBegin
              ((s.containerEnd - s.containerBegin) % 2 ^ 32) =
                containerCopy image slices s.containerBegin := by
            rw [containerCopy, hend, Nat.mod_eq_of_lt (by omega)]
          rw [hcopy, List.flatMap_cons, h.handed_container hlen hs hok hself hcond hbegin,
            ih hnext hcopied.copy, ← List.map_append]
          rw [h.members_first hslices hcopied hok hself hnew hcond (hbegin s hs)]

/-- The slices lie where the strides of the image do. -/
structure SplitOf (image : Memory) (slices : List LogicalSlice) : Prop where
  strides : Strides image 0 slices
  begins : ∀ s ∈ slices, s.containerBegin ≤ s.offset
  widths : ∀ s ∈ slices, s.selfContained = false →
    s.containerBegin ≤ s.containerEnd ∧ s.containerEnd < s.containerBegin + 2 ^ 32

theorem Strides.splitOf (h : Strides image 0 slices) : SplitOf image slices := by
  have hfields {off : Nat} {slices : List LogicalSlice} (h : Strides image off slices) :
      ∀ s ∈ slices, s.containerBegin ≤ s.offset ∧ (s.selfContained = false →
        s.containerBegin ≤ s.containerEnd ∧ s.containerEnd < s.containerBegin + 2 ^ 32) := by
    induction h with
    | done _ => simp
    | next _ _ hbegin hend _ ih =>
      intro t ht
      cases ht with
      | head => exact ⟨hbegin, hend⟩
      | tail _ ht => exact ih t ht
  exact ⟨h, fun s hs => (hfields h s hs).1, fun s hs => (hfields h s hs).2⟩

theorem Copied.nil : Copied [] [] := by
  intro s hs
  cases hs

theorem mem_copies_nil {kept : KeptImage} (h : SplitOf image slices)
    (hkept : kept ∈ copies image [] slices) : ∃ s ∈ slices, CopyOf image slices kept s :=
  mem_copies rfl Copied.nil h.widths hkept

theorem original_inj (h : SplitOf image slices) {s t : LogicalSlice} (hs : s ∈ slices)
    (ht : t ∈ slices) (heq : s.original image = t.original image) : s = t :=
  h.strides.eq_of_offset hs ht (congrArg HandedDex.offset heq)

theorem handed_own_mem (h : SplitOf image slices) (hlen : image.length < 2 ^ 32)
    {s t : LogicalSlice} (hs : s ∈ slices) (ht : t ∈ slices)
    (hmem : s.original image ∈ handedOf (copySlice image t.offset t.size)) : s = t := by
  obtain ⟨done, rest, hslices⟩ := List.append_of_mem ht
  rw [h.strides.handed_own hlen hslices, List.mem_singleton] at hmem
  exact original_inj h hs ht hmem

/-- Copies of containers that split into their accepted members hand over the
accepted slices. -/
theorem handsAccepted_of_splits (h : SplitOf image slices) (hlen : image.length < 2 ^ 32)
    (hsome : (slices.filter LogicalSlice.ok).length ≠ slices.length)
    (hcond : ∀ s ∈ slices, s.ok = true → s.selfContained = false → CopySplits image slices s) :
    HandsAccepted image slices := by
  constructor
  · rw [keptImages, if_neg hsome,
      h.strides.handed_copies hlen hcond h.begins h.widths (List.nil_append slices).symm Copied.nil]
    congr 2
    funext s
    simp [keep]
  · intro _ kept hkept s hs hok hself hmem
    obtain ⟨t, ht, htok, hcopy⟩ := mem_copies_nil h hkept
    rcases hcopy with ⟨htself, rfl⟩ | ⟨htself, rfl⟩
    · obtain rfl := handed_own_mem h hlen hs ht hmem
      rw [htself] at hself
      cases hself
    · rw [h.strides.handed_container hlen ht htok htself hcond h.begins] at hmem
      obtain ⟨u, hu, heq⟩ := List.mem_map.mp hmem
      obtain ⟨humem, hin⟩ := List.mem_filter.mp hu
      obtain rfl := original_inj h humem hs heq
      obtain ⟨_, _, hsame⟩ := inContainer_iff.mp hin
      have hsplits := hcond u humem hok hself
      have hbegin := h.begins u humem
      obtain ⟨hstop, hend⟩ := hsplits.inside
      have hfits := hsplits.fits
      rw [hsame] at hstop hend hfits hbegin
      simp only [containerCopy, copySlice, hsame, length_copy hfits]
      exact ⟨Nat.le_refl _, by omega⟩

/-- Between the begin of a copied container and its end there are members only. -/
def MembersOnly (slices : List LogicalSlice) : Prop :=
  ∀ s ∈ slices, s.ok = true → s.selfContained = false → ∀ t ∈ slices,
    s.containerBegin ≤ t.offset → t.offset < copyEnd slices s.containerBegin →
      t.selfContained = false ∧ t.containerBegin = s.containerBegin

theorem slice_min {image : Memory} {start stop : Nat} :
    slice image start (stop - start) = slice image start (min stop image.length - start) := by
  simp only [slice]
  apply List.ext_getElem?
  intro i
  simp only [List.getElem?_take, List.getElem?_drop]
  by_cases hi : start + i < image.length
  · have hiff : i < stop - start ↔ i < min stop image.length - start := by omega
    simp only [hiff]
  · rw [List.getElem?_eq_none (by omega)]
    simp

/-- The splitter's first dex is at the first byte. -/
theorem handedOf_first {kept : KeptImage} {d : HandedDex} (h : d ∈ handedOf kept) :
    ∃ first ∈ handedOf kept, first.offset = kept.baseOffset := by
  simp only [handedOf, parseLogicalDexOffsets] at h ⊢
  cases hrounds : kept.bytes.length with
  | zero =>
    rw [hrounds] at h
    simp [parseLogicalDexOffsetsFrom] at h
  | succ rounds =>
    rw [hrounds] at h
    simp only [parseLogicalDexOffsetsFrom] at h ⊢
    split at h
    · simp at h
    · split at h
      · simp at h
      · rename_i hheader hsize
        rw [if_neg hheader, if_neg hsize]
        exact ⟨_, List.mem_map_of_mem List.mem_cons_self, rfl⟩

/-- What the core gets for an accepted member of a container, when the copies
hand over the accepted slices. -/
theorem container_of_handsAccepted (h : SplitOf image slices) (hlen : image.length < 2 ^ 32)
    (hmembers : MembersOnly slices)
    (hsome : (slices.filter LogicalSlice.ok).length ≠ slices.length)
    (hhands : HandsAccepted image slices) {s : LogicalSlice} (hs : s ∈ slices) (hok : s.ok = true)
    (hself : s.selfContained = false) :
    containerCopy image slices s.containerBegin ∈ copies image [] slices ∧
      (∃ t ∈ slices, t.offset = s.containerBegin) ∧
        s.offset + s.size ≤ min (copyEnd slices s.containerBegin) image.length ∧
          s.containerEnd ≤ min (copyEnd slices s.containerBegin) image.length := by
  have hexact := hhands.exact
  rw [keptImages, if_neg hsome] at hexact
  have hgiven : s.original image ∈ (copies image [] slices).flatMap handedOf := by
    rw [hexact]
    exact List.mem_map_of_mem (List.mem_filter.mpr ⟨hs, hok⟩)
  obtain ⟨kept, hkept, hmem⟩ := List.mem_flatMap.mp hgiven
  have hcovered := hhands.covered hsome kept hkept s hs hok hself hmem
  obtain ⟨t, ht, htok, hcopy⟩ := mem_copies_nil h hkept
  rcases hcopy with ⟨htself, rfl⟩ | ⟨htself, rfl⟩
  · obtain rfl := handed_own_mem h hlen hs ht hmem
    rw [htself] at hself
    cases hself
  · obtain ⟨first, hfirst, hoff⟩ := handedOf_first hmem
    have hfirst' : first ∈ (slices.filter LogicalSlice.ok).map (LogicalSlice.original image) := by
      rw [← hexact]
      exact List.mem_flatMap.mpr ⟨_, hkept, hfirst⟩
    obtain ⟨u, hu, rfl⟩ := List.mem_map.mp hfirst'
    have humem := (List.mem_filter.mp hu).1
    have hbegins : u.offset = t.containerBegin := hoff
    have hrange := @Strides.handed_range _ _ _ h.strides u humem
      (min (copyEnd slices t.containerBegin) image.length) (Nat.min_le_right _ _) hlen
    rw [hbegins, copySlice, ← slice_min] at hrange
    rw [containerCopy, copySlice, hrange] at hmem
    obtain ⟨v, hv, heq⟩ := List.mem_map.mp hmem
    obtain ⟨hvmem, hin⟩ := List.mem_filter.mp hv
    obtain rfl := original_inj h hvmem hs heq
    rw [decide_eq_true_eq] at hin
    have hpos : kV41Size = 120 := rfl
    have hmin := (h.strides.bounds v hvmem).2.2.1
    have hsame := (hmembers t ht htok htself v hvmem hin.1 (by omega)).2
    rw [hsame]
    refine ⟨hkept, ⟨u, humem, hbegins⟩, hin.2, ?_⟩
    have hcover := hcovered.2
    simp only [containerCopy, copySlice, length_slice] at hcover
    omega

/-- Copies that hand over the accepted slices split into accepted members. -/
theorem splits_of_handsAccepted (h : SplitOf image slices) (hlen : image.length < 2 ^ 32)
    (hmembers : MembersOnly slices)
    (hsome : (slices.filter LogicalSlice.ok).length ≠ slices.length)
    (hhands : HandsAccepted image slices) {s : LogicalSlice} (hs : s ∈ slices) (hok : s.ok = true)
    (hself : s.selfContained = false) : CopySplits image slices s := by
  obtain ⟨hcopy, hbegins, hstop, hend⟩ :=
    container_of_handsAccepted h hlen hmembers hsome hhands hs hok hself
  have hfits : copyEnd slices s.containerBegin ≤ image.length := by
    have hin : s.inContainer s.containerBegin = true := inContainer_iff.mpr ⟨hok, hself, rfl⟩
    obtain ⟨first, hfirst⟩ : ∃ first,
        slices.find? (LogicalSlice.inContainer s.containerBegin) = some first := by
      rw [← Option.isSome_iff_exists, List.find?_isSome]
      exact ⟨s, hs, hin⟩
    obtain ⟨hfok, hfself, hsame⟩ := inContainer_iff.mp (List.find?_some hfirst)
    have hlast := (container_of_handsAccepted h hlen hmembers hsome hhands
      (List.mem_of_find?_eq_some hfirst) hfok hfself).2.2.2
    have heq : copyEnd slices s.containerBegin = first.containerEnd := by
      rw [copyEnd, hfirst]
      rfl
    rw [hsame, heq] at hlast
    omega
  refine ⟨hbegins, ⟨by omega, by omega⟩, hfits, fun t ht hle hin => ?_⟩
  have hpos : kV41Size = 120 := rfl
  have hmin := (h.strides.bounds t ht).2.2.1
  obtain ⟨htself, hsame⟩ := hmembers s hs hok hself t ht hle (by omega)
  obtain ⟨first, hfirst, hoff⟩ := hbegins
  have hrange := h.strides.handed_range hfirst hfits hlen
  rw [hoff] at hrange
  have hgiven : t.original image ∈ (copies image [] slices).flatMap handedOf := by
    apply List.mem_flatMap.mpr
    refine ⟨_, hcopy, ?_⟩
    rw [containerCopy, hrange]
    exact List.mem_map_of_mem (List.mem_filter.mpr ⟨ht, by simpa using ⟨hle, hin⟩⟩)
  have hexact := hhands.exact
  rw [keptImages, if_neg hsome] at hexact
  rw [hexact] at hgiven
  obtain ⟨u, hu, heq⟩ := List.mem_map.mp hgiven
  obtain ⟨humem, huok⟩ := List.mem_filter.mp hu
  obtain rfl := original_inj h humem ht heq
  exact inContainer_iff.mpr ⟨huok, htself, hsame⟩

end Copies

section Wholeness

variable {slices : List LogicalSlice}

/-- The binary search splits the slices at the first one not before `x`. -/
theorem lt_firstAt_iff (hsorted : slices.Pairwise fun s t => s.offset < t.offset) {x : Nat}
    (rounds : Nat) {lo hi : Nat} (hrounds : hi ≤ lo + rounds) (hhi : hi ≤ slices.length)
    (hbelow : ∀ i s, slices[i]? = some s → i < lo → s.offset < x)
    (habove : ∀ i s, slices[i]? = some s → hi ≤ i → x ≤ s.offset) {i : Nat} {s : LogicalSlice}
    (hs : slices[i]? = some s) : i < firstAt slices x rounds lo hi ↔ s.offset < x := by
  have hdone (hcross : hi ≤ lo) : i < lo ↔ s.offset < x := by
    constructor
    · exact hbelow i s hs
    · intro hlt
      by_contra hge
      have hle := habove i s hs (by omega)
      omega
  induction rounds generalizing lo hi with
  | zero => exact hdone (by omega)
  | succ rounds ih =>
    simp only [firstAt]
    split
    · rename_i hlt
      have hmid : lo + (hi - lo) / 2 < slices.length := by omega
      have hget : slices[lo + (hi - lo) / 2]? = some slices[lo + (hi - lo) / 2] :=
        List.getElem?_eq_getElem hmid
      have hoff : (slices.map LogicalSlice.offset).getD (lo + (hi - lo) / 2) 0 =
          slices[lo + (hi - lo) / 2].offset := by
        rw [List.getD_eq_getElem?_getD, List.getElem?_map, hget]
        rfl
      have hpairs := List.pairwise_iff_getElem.mp hsorted
      rw [hoff]
      split
      · rename_i hbefore
        have hnext (j : Nat) (t : LogicalSlice) (ht : slices[j]? = some t)
            (hj : j < lo + (hi - lo) / 2 + 1) : t.offset < x := by
          obtain ⟨hlen, rfl⟩ := List.getElem?_eq_some_iff.mp ht
          rcases Nat.lt_or_ge j (lo + (hi - lo) / 2) with hlt | hge
          · have hstep := hpairs j _ hlen hmid hlt
            omega
          · have heq : j = lo + (hi - lo) / 2 := by omega
            subst heq
            exact hbefore
        refine ih (by omega) hhi hnext habove fun hcross => ?_
        constructor
        · exact hnext i s hs
        · intro hx
          by_contra hge
          have hle := habove i s hs (by omega)
          omega
      · rename_i hafter
        have hnext (j : Nat) (t : LogicalSlice) (ht : slices[j]? = some t)
            (hj : lo + (hi - lo) / 2 ≤ j) : x ≤ t.offset := by
          obtain ⟨hlen, rfl⟩ := List.getElem?_eq_some_iff.mp ht
          rcases Nat.lt_or_ge (lo + (hi - lo) / 2) j with hlt | hge
          · have hstep := hpairs _ j hmid hlen hlt
            omega
          · have heq : j = lo + (hi - lo) / 2 := by omega
            subst heq
            omega
        refine ih (by omega) (by omega) hbelow hnext fun hcross => ?_
        constructor
        · exact hbelow i s hs
        · intro hx
          by_contra hge
          have hle := hnext i s hs (by omega)
          omega
    · exact hdone (by omega)

/-- A member of the container at `start`. -/
def LogicalSlice.memberOf (start : Nat) (s : LogicalSlice) : Bool :=
  !s.selfContained && s.containerBegin == start

theorem length_filter_zipIdx {p : LogicalSlice → Bool} (lo hi : Nat) :
    ((slices.zipIdx.filter fun (s, _) => p s).filter fun (_, i) => lo ≤ i && i < hi).length =
        hi - lo →
      ∀ i s, slices[i]? = some s → lo ≤ i → i < hi → p s = true := by
  intro hcount i s hs hlo hhi
  have hswap : (slices.zipIdx.filter fun (s, _) => p s).filter (fun (_, i) => lo ≤ i && i < hi) =
      (slices.zipIdx.filter fun (_, i) => lo ≤ i && i < hi).filter fun (s, _) => p s := by
    rw [List.filter_filter, List.filter_filter]
    simp only [Bool.and_comm]
  have hwindow : (slices.zipIdx.filter fun (_, i) => lo ≤ i && i < hi).length ≤ hi - lo := by
    have hnodup : ((slices.zipIdx.filter fun (_, i) => lo ≤ i && i < hi).map Prod.snd).Nodup := by
      apply List.Nodup.sublist (List.filter_sublist.map Prod.snd)
      rw [List.zipIdx_map_snd]
      exact List.nodup_range'
    have hsub : (slices.zipIdx.filter fun (_, i) => lo ≤ i && i < hi).map Prod.snd ⊆
        List.range' lo (hi - lo) := by
      intro j hj
      obtain ⟨⟨t, k⟩, hmem, rfl⟩ := List.mem_map.mp hj
      have hin := (List.mem_filter.mp hmem).2
      simp only [Bool.and_eq_true, decide_eq_true_eq] at hin
      rw [List.mem_range'_1]
      omega
    have hle := (hnodup.subperm hsub).length_le
    rwa [List.length_map, List.length_range'] at hle
  have hmem : (s, i) ∈ slices.zipIdx.filter fun (_, i) => lo ≤ i && i < hi := by
    refine List.mem_filter.mpr ⟨List.mk_mem_zipIdx_iff_getElem?.mpr hs, ?_⟩
    simp only [Bool.and_eq_true, decide_eq_true_eq]
    exact ⟨hlo, hhi⟩
  rw [hswap] at hcount
  rw [← hcount] at hwindow
  exact List.length_filter_eq_length_iff.mp
    (Nat.le_antisymm (List.length_filter_le _ _) hwindow) (s, i) hmem

/-- A container that is whole: its members are accepted, and in the range of its
first member lie members only. -/
theorem containerWhole_spec (hsorted : slices.Pairwise fun s t => s.offset < t.offset)
    {n start : Nat} (h : containerWhole n slices start = true) {first : LogicalSlice}
    (hfirst : slices.find? (LogicalSlice.memberOf start) = some first) :
    (∀ s ∈ slices, s.memberOf start = true → s.ok = true) ∧
      ∀ s ∈ slices, start ≤ s.offset → s.offset < first.containerEnd →
        s.memberOf start = true := by
  have hsearch (x i : Nat) (s : LogicalSlice) (hs : slices[i]? = some s) :
      i < firstAt slices x slices.length 0 slices.length ↔ s.offset < x := by
    apply lt_firstAt_iff hsorted slices.length (by omega) (Nat.le_refl _) _ _ hs
    · intro j t _ hj
      omega
    · intro j t ht hj
      rw [List.getElem?_eq_none hj] at ht
      cases ht
  have hhead : (slices.zipIdx.find? fun x => x.1.memberOf start).map Prod.fst = some first := by
    have hmap := @List.find?_map _ _ (LogicalSlice.memberOf start) Prod.fst slices.zipIdx
    rw [List.zipIdx_map_fst, hfirst] at hmap
    exact hmap.symm
  obtain ⟨⟨c, k⟩, hfind, hc⟩ := Option.map_eq_some_iff.mp hhead
  simp only at hc
  subst hc
  have hmembers : (slices.zipIdx.filter fun x => x.1.memberOf start).head? = some (c, k) := by
    rw [List.head?_filter]
    exact hfind
  simp only [containerWhole] at h
  split at h
  · rename_i hnil
    have hempty : (slices.zipIdx.filter fun x => x.1.memberOf start) = [] := hnil
    rw [hempty] at hmembers
    cases hmembers
  · rename_i c' k' rest hcons
    have hcons' : (slices.zipIdx.filter fun x => x.1.memberOf start) = (c', k') :: rest := hcons
    rw [hcons'] at hmembers
    obtain ⟨rfl, rfl⟩ := Prod.mk.inj (Option.some.inj hmembers)
    simp only [Bool.and_eq_true, decide_eq_true_eq, beq_iff_eq] at h
    obtain ⟨⟨⟨_, hok⟩, hinside⟩, _⟩ := h
    constructor
    · intro s hs hmember
      obtain ⟨i, hi⟩ := List.mem_iff_getElem?.mp hs
      have hmem : (s, i) ∈ slices.zipIdx.filter fun x => x.1.memberOf start :=
        List.mem_filter.mpr ⟨List.mk_mem_zipIdx_iff_getElem?.mpr hi, hmember⟩
      exact List.all_eq_true.mp hok (s, i) hmem
    · intro s hs hle hlt
      obtain ⟨i, hi⟩ := List.mem_iff_getElem?.mp hs
      have hlo := hsearch start i s hi
      have hhi := hsearch c'.containerEnd i s hi
      exact @length_filter_zipIdx slices (LogicalSlice.memberOf start) _ _ hinside i s hi
        (by omega) (by omega)

/-- Where a slice lies, which no verdict changes. -/
def LogicalSlice.span (s : LogicalSlice) : Nat × Nat × Bool × Nat × Nat :=
  (s.offset, s.size, s.selfContained, s.containerBegin, s.containerEnd)

theorem span_eq_iff {s t : LogicalSlice} : s.span = t.span ↔ s.offset = t.offset ∧
    s.size = t.size ∧ s.selfContained = t.selfContained ∧
      s.containerBegin = t.containerBegin ∧ s.containerEnd = t.containerEnd := by
  simp [LogicalSlice.span]

/-- What the sibling rule leaves of a slice. -/
def siblingVerdict (n : Nat) (slices : List LogicalSlice) (s : LogicalSlice) : LogicalSlice :=
  if s.ok = true ∧ s.selfContained = false ∧ containerWhole n slices s.containerBegin = false then
    { s with
      ok := false
      reason := "another dex in this v41 container failed verification, and a container dex " ++
        "cannot be loaded apart from its siblings" }
  else s

theorem span_siblingVerdict {n : Nat} {s : LogicalSlice} :
    (siblingVerdict n slices s).span = s.span := by
  unfold siblingVerdict
  split
  · rfl
  · rfl

theorem siblingVerdict_of_ok {n : Nat} {s : LogicalSlice}
    (h : (siblingVerdict n slices s).ok = true) : siblingVerdict n slices s = s := by
  unfold siblingVerdict at h ⊢
  split
  · rename_i hlost
    rw [if_pos hlost] at h
    cases h
  · rfl

theorem memberOf_iff {start : Nat} {s : LogicalSlice} : s.memberOf start = true ↔
    s.selfContained = false ∧ s.containerBegin = start := by
  simp [LogicalSlice.memberOf]

theorem siblingVerdict_of_whole {n : Nat} {s : LogicalSlice}
    (h : containerWhole n slices s.containerBegin = true) : siblingVerdict n slices s = s := by
  unfold siblingVerdict
  rw [if_neg]
  rintro ⟨_, _, hpart⟩
  rw [h] at hpart
  cases hpart

theorem whole_of_siblingVerdict {n : Nat} {s : LogicalSlice}
    (hok : (siblingVerdict n slices s).ok = true) (hself : s.selfContained = false) :
    containerWhole n slices s.containerBegin = true := by
  rw [← Bool.not_eq_false]
  intro hpart
  have hkept := siblingVerdict_of_ok hok
  rw [hkept] at hok
  unfold siblingVerdict at hkept
  rw [if_pos ⟨hok, hself, hpart⟩] at hkept
  have hlost := congrArg LogicalSlice.ok hkept
  rw [hok] at hlost
  cases hlost

/-- The first accepted member of a whole container is its first member. -/
theorem copyEnd_siblings {n start : Nat} {first : LogicalSlice}
    (hwhole : containerWhole n slices start = true)
    (hok : ∀ s ∈ slices, s.memberOf start = true → s.ok = true)
    (hfirst : slices.find? (LogicalSlice.memberOf start) = some first) :
    copyEnd (slices.map (siblingVerdict n slices)) start = first.containerEnd := by
  have hsame : slices.filter (LogicalSlice.inContainer start ∘ siblingVerdict n slices) =
      slices.filter (LogicalSlice.memberOf start) := by
    apply List.filter_congr
    intro s hs
    rw [Function.comp_apply, Bool.eq_iff_iff, inContainer_iff, memberOf_iff]
    obtain ⟨_, _, hself, hbegin, _⟩ := span_eq_iff.mp (@span_siblingVerdict slices n s)
    rw [hself, hbegin]
    constructor
    · exact And.right
    · rintro ⟨hself, rfl⟩
      rw [siblingVerdict_of_whole hwhole]
      exact ⟨hok s hs (memberOf_iff.mpr ⟨hself, rfl⟩), hself, rfl⟩
  have hmember := memberOf_iff.mp (List.find?_some hfirst)
  have hkept : siblingVerdict n slices first = first :=
    siblingVerdict_of_whole (hmember.2 ▸ hwhole)
  rw [copyEnd, List.find?_map, ← List.head?_filter, hsame, List.head?_filter, hfirst]
  simp [hkept]

/-- After the sibling rule a copied container has only members in its range. -/
theorem membersOnly_rejectSiblings {n : Nat}
    (hsorted : slices.Pairwise fun s t => s.offset < t.offset)
    (hsome : slices.all LogicalSlice.ok = false) : MembersOnly (rejectSiblings n slices) := by
  have hverdicts : rejectSiblings n slices = slices.map (siblingVerdict n slices) := by
    rw [rejectSiblings, if_neg (by simp [hsome])]
    rfl
  rw [hverdicts]
  intro s hs hok hself t ht hle hlt
  obtain ⟨s, hsmem, rfl⟩ := List.mem_map.mp hs
  obtain ⟨t, htmem, rfl⟩ := List.mem_map.mp ht
  rw [siblingVerdict_of_ok hok] at hself hle hlt ⊢
  have hwhole := whole_of_siblingVerdict hok hself
  obtain ⟨first, hfirst⟩ : ∃ first,
      slices.find? (LogicalSlice.memberOf s.containerBegin) = some first := by
    rw [← Option.isSome_iff_exists, List.find?_isSome]
    exact ⟨s, hsmem, memberOf_iff.mpr ⟨hself, rfl⟩⟩
  obtain ⟨haccepted, honly⟩ := containerWhole_spec hsorted hwhole hfirst
  rw [copyEnd_siblings hwhole haccepted hfirst] at hlt
  obtain ⟨hoff, _, htself, hbegin, _⟩ := span_eq_iff.mp (@span_siblingVerdict slices n t)
  rw [hoff] at hle hlt
  rw [htself, hbegin]
  exact memberOf_iff.mp (honly t htmem hle hlt)

end Wholeness

section Judged

variable {adler32 : Memory → Nat} {image : Memory} {checkInsns : Bool} {name : String}
  {seq : ArtSequence} {nextDexId : Nat}

theorem span_classifySlices {st : GateScratch} {slices : List LogicalSlice} :
    (classifySlices adler32 image checkInsns st slices).map LogicalSlice.span =
      slices.map LogicalSlice.span := by
  induction slices generalizing st with
  | nil => rfl
  | cons s slices ih =>
    simp only [classifySlices, List.map_cons, ih]
    rfl

theorem span_openSlices {many : Bool} {cursor : ArtCursor} {slices : List LogicalSlice} :
    (openSlices name many cursor slices).1.map LogicalSlice.span =
      slices.map LogicalSlice.span := by
  induction slices generalizing cursor with
  | nil => rfl
  | cons s slices ih =>
    simp only [openSlices, List.map_cons, ih]
    rfl

theorem span_rejectSiblings {n : Nat} {slices : List LogicalSlice} :
    (rejectSiblings n slices).map LogicalSlice.span = slices.map LogicalSlice.span := by
  rw [rejectSiblings]
  split
  · rfl
  · rw [List.map_map]
    apply List.map_congr_left
    intro s _
    exact span_siblingVerdict

theorem span_emitSliceVerdicts {slices : List LogicalSlice} :
    (emitSliceVerdicts nextDexId slices).1.map LogicalSlice.span =
      slices.map LogicalSlice.span := by
  induction slices generalizing nextDexId with
  | nil => rfl
  | cons s slices ih =>
    simp only [emitSliceVerdicts, List.map_cons, ih]
    congr 1
    split
    · rfl
    · rfl

theorem span_classifySourceImage :
    (classifySourceImage adler32 image checkInsns name seq).slices.map LogicalSlice.span =
      (logicalDexSlices image).map LogicalSlice.span := by
  have hclassify := @span_classifySlices adler32 image checkInsns {} (logicalDexSlices image)
  simp only [classifySourceImage, classifyImageSlices]
  split
  · rename_i hnone
    rw [List.getLast?_eq_none_iff.mp hnone] at hclassify
    exact hclassify
  · rw [span_rejectSiblings, span_openSlices, hclassify]

theorem Strides.of_span {off : Nat} {slices slices' : List LogicalSlice}
    (h : Strides image off slices)
    (hspan : slices'.map LogicalSlice.span = slices.map LogicalSlice.span) :
    Strides image off slices' := by
  induction h generalizing slices' with
  | done h =>
    rw [List.map_nil, List.map_eq_nil_iff] at hspan
    rw [hspan]
    exact Strides.done h
  | @next s slices hfits hsize hbegin hend hrest ih =>
    cases slices' with
    | nil => cases hspan
    | cons t slices' =>
      obtain ⟨hhead, htail⟩ := List.cons.inj hspan
      obtain ⟨hoff, hsame, hself, hstart, hstop⟩ := span_eq_iff.mp hhead
      have hrest' := ih htail
      rw [← hoff, ← hsame] at hrest'
      rw [← hoff] at hfits hsize hbegin ⊢
      rw [← hsame] at hsize
      rw [← hstart] at hbegin
      rw [← hself, ← hstart, ← hstop] at hend
      exact Strides.next hfits hsize hbegin hend hrest'

theorem splitOf_judged (hlen : image.length < 2 ^ 32) :
    SplitOf image (judgedSlices adler32 image checkInsns name seq nextDexId) := by
  apply Strides.splitOf
  apply (strides_logicalDexSlicesFrom hlen image.length 0 (by omega)).of_span
  rw [judgedSlices, span_emitSliceVerdicts, span_classifySourceImage]
  rfl

theorem emitSliceVerdicts_of_room {slices : List LogicalSlice}
    (hroom : nextDexId + slices.length ≤ kMaxLoadedDexes) :
    (emitSliceVerdicts nextDexId slices).1 = slices := by
  induction slices generalizing nextDexId with
  | nil => rfl
  | cons s slices ih =>
    rw [List.length_cons] at hroom
    have hid : ¬(s.ok = true ∧ kMaxLoadedDexes ≤ nextDexId) := by omega
    simp only [emitSliceVerdicts, if_neg hid]
    rw [ih]
    split <;> omega

theorem length_emitSliceVerdicts {slices : List LogicalSlice} :
    (emitSliceVerdicts nextDexId slices).1.length = slices.length := by
  have hspan := congrArg List.length (@span_emitSliceVerdicts nextDexId slices)
  rwa [List.length_map, List.length_map] at hspan

/-- With room in the session a rejected slice was rejected before the sibling
rule. -/
theorem membersOnly_judged (hlen : image.length < 2 ^ 32)
    (hroom : nextDexId + (judgedSlices adler32 image checkInsns name seq nextDexId).length ≤
      kMaxLoadedDexes)
    (hsome : ((judgedSlices adler32 image checkInsns name seq nextDexId).filter
      LogicalSlice.ok).length ≠
        (judgedSlices adler32 image checkInsns name seq nextDexId).length) :
    MembersOnly (judgedSlices adler32 image checkInsns name seq nextDexId) := by
  rw [judgedSlices] at hroom hsome ⊢
  rw [length_emitSliceVerdicts] at hroom
  rw [emitSliceVerdicts_of_room hroom] at hsome ⊢
  have hclassify := @span_classifySlices adler32 image checkInsns {} (logicalDexSlices image)
  have hstrides := strides_logicalDexSlicesFrom hlen image.length 0 (by omega)
  simp only [classifySourceImage, classifyImageSlices] at hsome ⊢
  split at hsome
  · exact absurd rfl hsome
  · rename_i tail _
    have hopened (many : Bool) := (hstrides.of_span hclassify).of_span
      (@span_openSlices name many ⟨seq, false, false⟩ _)
    apply membersOnly_rejectSiblings (hopened _).sorted
    rw [← Bool.not_eq_true]
    intro hall
    simp only [rejectSiblings, if_pos hall] at hsome
    exact hsome (List.length_filter_eq_length_iff.mpr (List.all_eq_true.mp hall))

/-- A kept copy of every container begins at a slice and splits into accepted
members, or nothing was rejected and the image is kept as it is. -/
def SplitsRight (image : Memory) (slices : List LogicalSlice) : Prop :=
  image.length < 2 ^ 32 ∧ ((slices.filter LogicalSlice.ok).length = slices.length ∨
    ∀ s ∈ slices, s.ok = true → s.selfContained = false → CopySplits image slices s)

theorem handsAccepted_of_all {slices : List LogicalSlice} (h : SplitOf image slices)
    (hlen : image.length < 2 ^ 32)
    (hall : (slices.filter LogicalSlice.ok).length = slices.length) :
    HandsAccepted image slices := by
  constructor
  · have hwhole : slice image 0 (image.length - 0) = image := by simp [slice]
    have hhanded := h.strides.handed_copy (Nat.le_refl _) hlen
    have hfits : (slices.takeWhile fun s => s.offset + s.size ≤ image.length) = slices := by
      rw [List.takeWhile_eq_self_iff]
      intro s hs
      rw [decide_eq_true_eq]
      exact (h.strides.bounds s hs).2.2.2
    rw [copySlice, hwhole, hfits] at hhanded
    rw [keptImages, if_pos hall, List.flatMap_cons, List.flatMap_nil, List.append_nil, hhanded,
      List.filter_eq_self.mpr (List.length_filter_eq_length_iff.mp hall)]
  · intro hsome
    exact absurd hall hsome

/-- The core is handed the accepted slices and nothing else when the copies
split right, and in a session with room for the source only then. -/
theorem handsAccepted_iff (adler32 : Memory → Nat) (image : Memory) (checkInsns : Bool)
    (name : String) (seq : ArtSequence) (nextDexId : Nat) :
    let slices := judgedSlices adler32 image checkInsns name seq nextDexId
    (SplitsRight image slices → HandsAccepted image slices) ∧
      (image.length < 2 ^ 32 → nextDexId + slices.length ≤ kMaxLoadedDexes →
        HandsAccepted image slices → SplitsRight image slices) := by
  intro slices
  have hsplit (hlen : image.length < 2 ^ 32) : SplitOf image slices := splitOf_judged hlen
  constructor
  · rintro ⟨hlen, hcond⟩
    by_cases hall : (slices.filter LogicalSlice.ok).length = slices.length
    · exact handsAccepted_of_all (hsplit hlen) hlen hall
    · exact handsAccepted_of_splits (hsplit hlen) hlen hall (hcond.resolve_left hall)
  · intro hlen hroom hhands
    by_cases hall : (slices.filter LogicalSlice.ok).length = slices.length
    · exact ⟨hlen, .inl hall⟩
    · refine ⟨hlen, .inr fun s hs hok hself => ?_⟩
      exact splits_of_handsAccepted (hsplit hlen) hlen (membersOnly_judged hlen hroom hall) hall
        hhands hs hok hself

end Judged

/-- A rejected dex of 120 bytes, then the only dex of a version 41 container that
begins 60 bytes before it. The rejected dex holds the container's size where the
splitter looks for the size of a dex at the container's begin. -/
def shiftedContainer : Memory := [
  0, 0, 0, 0, 0, 0, 0, 0, 0, 0, 0, 0, 0, 0, 0, 0, 0, 0, 0, 0, 0, 0, 0, 0,
  0, 0, 0, 0, 0, 0, 0, 0, 120, 0, 0, 0, 0, 0, 0, 0, 0, 0, 0, 0, 0, 0, 0, 0,
  0, 0, 0, 0, 0, 0, 0, 0, 0, 0, 0, 0, 0, 0, 0, 0, 0, 0, 0, 0, 0, 0, 0, 0,
  0, 0, 0, 0, 0, 0, 0, 0, 0, 0, 0, 0, 0, 0, 0, 0, 0, 0, 0, 0, 208, 0, 0, 0,
  0, 0, 0, 0, 0, 0, 0, 0, 0, 0, 0, 0, 0, 0, 0, 0, 0, 0, 0, 0, 0, 0, 0, 0,
  100, 101, 120, 10, 48, 52, 49, 0, 0, 0, 0, 0, 0, 0, 0, 0, 0, 0, 0, 0, 0, 0, 0, 0,
  0, 0, 0, 0, 0, 0, 0, 0, 148, 0, 0, 0, 120, 0, 0, 0, 120, 86, 52, 18, 0, 0, 0, 0,
  0, 0, 0, 0, 180, 0, 0, 0, 0, 0, 0, 0, 0, 0, 0, 0, 0, 0, 0, 0, 0, 0, 0, 0,
  0, 0, 0, 0, 0, 0, 0, 0, 0, 0, 0, 0, 0, 0, 0, 0, 0, 0, 0, 0, 0, 0, 0, 0,
  0, 0, 0, 0, 0, 0, 0, 0, 0, 0, 0, 0, 0, 0, 0, 0, 208, 0, 0, 0, 60, 0, 0, 0,
  2, 0, 0, 0, 0, 0, 0, 0, 1, 0, 0, 0, 60, 0, 0, 0, 0, 16, 0, 0, 1, 0, 0, 0,
  180, 0, 0, 0]

set_option maxRecDepth 20000 in
/-- The core is handed the container as one dex, which was never verified. -/
theorem shiftedContainer_not_handed :
    ¬HandsAccepted shiftedContainer
      (judgedSlices (fun _ => 0) shiftedContainer true "a.dex" {} 0) := by
  intro hhands
  have hrun : ((keptImages shiftedContainer
        (judgedSlices (fun _ => 0) shiftedContainer true "a.dex" {} 0)).flatMap handedOf).map
          HandedDex.offset = [60] ∧
      ((judgedSlices (fun _ => 0) shiftedContainer true "a.dex" {} 0).filter
        LogicalSlice.ok).map LogicalSlice.offset = [120] := by
    decide
  have hexact := congrArg (List.map HandedDex.offset) hhands.exact
  rw [hrun.1, List.map_map] at hexact
  have hoffsets : [60] = [120] := hexact.trans hrun.2
  cases hoffsets

end Dexllm
