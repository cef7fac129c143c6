import Dexllm.Flow.Handlers
import Dexllm.TextCodec

/-!
The exception table of a code item, as the gate validates it and as the builder
reads it. The gate finds the try_items by the parity of the instruction count, the
builder by the alignment of the address; they read the same table exactly when
the code item itself is aligned.
-/

namespace Dexllm

open Guarded Bytes

/-- `ParsedHandler`; a catch-all has no type. -/
structure TypedHandler where
  type : Text
  handlerByteOff : Nat
  deriving DecidableEq, Repr

/-- `ParsedTry`, with the places its try_item and its handler list are read at. -/
structure TypedTry where
  itemAt : Nat
  listAt : Nat
  startByte : Nat
  endByte : Nat
  handlers : List TypedHandler
  deriving DecidableEq, Repr

/-- At most `count` pairs of a type index and an address from `p`, and the cursor
after them. -/
def typedPairs (mem : Memory) (stop : Nat) : (count p : Nat) → List (Nat × Nat) × Nat
  | 0, p => ([], p)
  | count + 1, p =>
    if p < stop then
      let (typeIdx, p) := ulebBefore mem stop 5 0 p 0
      let (addr, p) := ulebBefore mem stop 5 0 p 0
      let (rest, p) := typedPairs mem stop count p
      ((typeIdx, addr) :: rest, p)
    else ([], p)

namespace CodeItem

variable (c : CodeItem) (typeName : Nat → Text)

/-- The handlers of the list at `p`, typed ones first. -/
def parseHandlers (p : Nat) : List TypedHandler :=
  let stop := c.mem.length
  let (size, p) := slebBefore c.mem stop 5 0 p 0 0
  let (pairs, p) := typedPairs c.mem stop size.natAbs p
  let typed := pairs.map fun (typeIdx, addr) => ⟨typeName typeIdx, addr * 2 % 2 ^ 32⟩
  if size ≤ 0 then typed ++ [⟨[], (ulebBefore c.mem stop 5 0 p 0).1 * 2 % 2 ^ 32⟩] else typed

/-- `ParseExceptions`. -/
def parseTypedTries : List TypedTry :=
  let stop := c.mem.length
  if c.triesSize = 0 ∨ stop < c.handlersBase then []
  else (List.range c.triesSize).filterMap fun i =>
    let item := c.tryItem i
    let p := c.handlersBase + item.handlerOff
    if stop ≤ p then none
    else some
      { itemAt := c.tryItems + i * TryBlock.bytes
        listAt := p
        startByte := item.startAddr * 2 % 2 ^ 32
        endByte := (item.startAddr + item.insnCount) * 2 % 2 ^ 32
        handlers := c.parseHandlers typeName p }

end CodeItem

theorem typedHandlers_eq (mem : Memory) (stop count p : Nat) :
    typedHandlers mem stop count p =
      ((typedPairs mem stop count p).1.map fun pair => pair.2 * 2 % 2 ^ 32,
        (typedPairs mem stop count p).2) := by
  induction count generalizing p with
  | zero => rfl
  | succ count ih =>
    unfold typedHandlers typedPairs
    split
    · simp only [ih, List.map_cons]
    · rfl

/-- An entry without the types and the places. -/
def TypedTry.offsets (t : TypedTry) : ParsedTry :=
  ⟨t.startByte, t.endByte, t.handlers.map (·.handlerByteOff)⟩

/-- The types and the places aside, this is the table the blocks are built from. -/
theorem CodeItem.offsets_parseTypedTries (c : CodeItem) (typeName : Nat → Text) :
    (c.parseTypedTries typeName).map (·.offsets) = c.parseExceptions := by
  unfold parseTypedTries parseExceptions
  dsimp only
  split
  · rfl
  · rw [List.map_filterMap]
    refine List.filterMap_congr fun i _ => ?_
    split
    · rfl
    · simp only [Option.map_some, TypedTry.offsets, parseHandlers, typedHandlers_eq]
      split <;> simp

/-! The table as the gate sees it. -/

/-- An encoded_catch_handler. -/
structure CatchHandler where
  typed : List (Nat × Nat)
  catchAll : Option Nat
  deriving DecidableEq, Repr

namespace Verifier

variable (v : Verifier)

/-- The pairs `VerifyCodeItem` reads of a handler. -/
def decodePairs : (count p : Nat) → Run (List (Nat × Nat) × Nat)
  | 0, p => pure ([], p)
  | count + 1, p => do
    let (typeIdx, p) ← v.readUlebOrFail p "code: bad handler type_idx"
    let (addr, p) ← v.readUlebOrFail p "code: bad handler addr"
    let (rest, p) ← decodePairs count p
    pure ((typeIdx, addr) :: rest, p)

/-- The handler `VerifyCodeItem` decodes at `p`, and the cursor after it. -/
def decodeCatchHandler (p : Nat) : Run (CatchHandler × Nat) := do
  let read ← v.readSleb p
  let (size, p) ← orFail read "code: bad handler size"
  let (typed, p) ← v.decodePairs size.natAbs p
  if size ≤ 0 then do
    let (addr, p) ← v.readUlebOrFail p "code: bad catch_all addr"
    pure (⟨typed, some addr⟩, p)
  else pure (⟨typed, none⟩, p)

/-- The try_items of a code item, as the gate finds them. -/
def gateTryItems (off : Nat) : Nat :=
  let c := v.codeItem off
  c.insns + c.codeBytes + if c.insnsSize % 2 = 0 then 0 else 2

def gateTryItem (off i : Nat) : TryBlock :=
  tryBlockAt v.image (v.gateTryItems off + i * TryBlock.bytes)

/-- Where the gate finds the handler list of try_item `i`. -/
def gateHandlerList (off i : Nat) : Nat :=
  v.gateTryItems off + (v.codeItem off).triesSize * TryBlock.bytes +
    (v.gateTryItem off i).handlerOff

end Verifier

/-- The handlers of the snapshot for one the gate decoded: the typed ones in order,
then the catch-all. -/
def CatchHandler.parsed (typeName : Nat → Text) (h : CatchHandler) : List TypedHandler :=
  (h.typed.map fun (typeIdx, addr) => ⟨typeName typeIdx, addr * 2⟩) ++
    h.catchAll.toList.map fun addr => ⟨[], addr * 2⟩

section Readers

variable {v : Verifier} {stop : Nat}

theorem uleb_readers_agree (hstop : v.endOfFile ≤ stop) {rounds i p result x q : Nat}
    (h : v.readUlebFrom rounds i p result = .ok (some (x, q))) :
    ulebBefore v.image stop rounds (7 * i) p result = (x, q) ∧ p < stop := by
  induction rounds generalizing i p result with
  | zero => cases Except.ok.inj h
  | succ rounds ih =>
    unfold Verifier.readUlebFrom at h
    unfold ulebBefore
    split at h
    · cases Except.ok.inj h
    · rename_i hend
      have hp : p < stop := by omega
      simp only [readU1, bind_eq_ok, read_eq_ok] at h
      obtain ⟨b, ⟨-, rfl⟩, h⟩ := h
      rw [if_pos hp]
      dsimp only at h ⊢
      split at h
      · rename_i hlast
        rw [if_pos hlast]
        simp only [pure_eq_ok, Except.ok.injEq, Option.some.injEq, Prod.mk.injEq] at h
        exact ⟨Prod.ext h.1 h.2, hp⟩
      · rename_i hmore
        rw [if_neg hmore]
        exact ⟨(ih h).1, hp⟩

theorem ulebBefore_of_readUlebOrFail (hstop : v.endOfFile ≤ stop) {p x q : Nat} {reason : String}
    (h : v.readUlebOrFail p reason = .ok (x, q)) :
    ulebBefore v.image stop 5 0 p 0 = (x, q) ∧ p < stop := by
  simp only [Verifier.readUlebOrFail, bind_eq_ok, orFail_eq_ok] at h
  obtain ⟨read, hread, rfl⟩ := h
  exact uleb_readers_agree hstop hread

theorem sleb_readers_agree (hstop : v.endOfFile ≤ stop) {rounds i p result b q : Nat} {x : Int}
    (h : v.readSlebFrom rounds i p result = .ok (some (x, q))) :
    slebBefore v.image stop rounds (7 * i) p result b = (x, q) := by
  induction rounds generalizing i p result b with
  | zero => cases Except.ok.inj h
  | succ rounds ih =>
    unfold Verifier.readSlebFrom at h
    unfold slebBefore
    split at h
    · cases Except.ok.inj h
    · rename_i hend
      simp only [readU1, bind_eq_ok, read_eq_ok] at h
      obtain ⟨b', ⟨-, rfl⟩, h⟩ := h
      dsimp only at h ⊢
      rw [if_pos (by omega)]
      split at h
      · rename_i hlast
        rw [if_pos hlast]
        simp only [pure_eq_ok, Except.ok.injEq, Option.some.injEq, Prod.mk.injEq] at h
        exact Prod.ext h.1 h.2
      · rename_i hmore
        rw [if_neg hmore]
        exact ih h

end Readers

section Handlers

variable {v : Verifier} {insnsSize p q : Nat}

/-- The addresses of a handler. -/
def CatchHandler.addrs (h : CatchHandler) : List Nat := h.typed.map (·.2) ++ h.catchAll.toList

theorem decodePairs_of_loop {n i : Nat}
    (h : loopFrom (fun _ p => v.verifyHandlerPair insnsSize p) n i p = .ok q) :
    ∃ pairs, v.decodePairs n p = .ok (pairs, q) ∧ ∀ pair ∈ pairs, pair.2 < insnsSize := by
  induction n generalizing i p with
  | zero =>
    obtain rfl := Except.ok.inj h
    exact ⟨[], rfl, by simp⟩
  | succ n ih =>
    rw [loopFrom, bind_eq_ok] at h
    obtain ⟨next, hpair, hrest⟩ := h
    obtain ⟨pairs, hpairs, hall⟩ := ih hrest
    simp only [Verifier.verifyHandlerPair, bind_eq_ok, failIf_eq_ok] at hpair
    obtain ⟨⟨typeIdx, p1⟩, htype, -, -, ⟨addr, p2⟩, haddr, -, hlt, hnext⟩ := hpair
    obtain rfl := Except.ok.inj hnext
    dsimp only at haddr hlt hpairs
    refine ⟨(typeIdx, addr) :: pairs, ?_, ?_⟩
    · simp only [Verifier.decodePairs, htype, bind_ok, haddr, hpairs]
      rfl
    · intro pair hpair
      obtain rfl | hpair := List.mem_cons.mp hpair
      · exact Nat.lt_of_not_le hlt
      · exact hall pair hpair

/-- What the gate has checked of a handler is what it decodes there. -/
theorem decode_of_verifyHandler (h : v.verifyHandler insnsSize p = .ok q) :
    ∃ handler, v.decodeCatchHandler p = .ok (handler, q) ∧
      ∀ addr ∈ handler.addrs, addr < insnsSize := by
  simp only [Verifier.verifyHandler, bind_eq_ok, orFail_eq_ok] at h
  obtain ⟨read, hread, ⟨size, p1⟩, rfl, -, -, p2, hloop, hlast⟩ := h
  obtain ⟨pairs, hpairs, hall⟩ := decodePairs_of_loop hloop
  have htyped : ∀ addr ∈ pairs.map (·.2), addr < insnsSize := by
    intro addr haddr
    obtain ⟨pair, hpair, rfl⟩ := List.mem_map.mp haddr
    exact hall pair hpair
  have hdecode : v.decodeCatchHandler p =
      if size ≤ 0 then do
        let (addr, p) ← v.readUlebOrFail p2 "code: bad catch_all addr"
        pure (⟨pairs, some addr⟩, p)
      else pure (⟨pairs, none⟩, p2) := by
    rw [Verifier.decodeCatchHandler, hread, bind_ok]
    simp only [orFail, bind_ok, hpairs]
  rw [hdecode]
  split at hlast
  · rename_i hcatch
    simp only [bind_eq_ok, failIf_eq_ok] at hlast
    obtain ⟨⟨addr, p3⟩, haddr, -, hlt, hq⟩ := hlast
    obtain rfl := Except.ok.inj hq
    refine ⟨⟨pairs, some addr⟩, ?_, ?_⟩
    · rw [if_pos hcatch, haddr]
      rfl
    · intro a ha
      obtain ha | ha := List.mem_append.mp ha
      · exact htyped a ha
      · obtain rfl : a = addr := by simpa using ha
        exact Nat.lt_of_not_le hlt
  · rename_i hcatch
    obtain rfl := Except.ok.inj hlast
    refine ⟨⟨pairs, none⟩, ?_, fun a ha => htyped a (by simpa [CatchHandler.addrs] using ha)⟩
    rw [if_neg hcatch]
    rfl

theorem typedPairs_of_decode {stop : Nat} (hstop : v.endOfFile ≤ stop) {n : Nat}
    {pairs : List (Nat × Nat)} (h : v.decodePairs n p = .ok (pairs, q)) :
    typedPairs v.image stop n p = (pairs, q) := by
  induction n generalizing p pairs with
  | zero => exact Except.ok.inj h
  | succ n ih =>
    simp only [Verifier.decodePairs, bind_eq_ok] at h
    obtain ⟨⟨typeIdx, p1⟩, htype, ⟨addr, p2⟩, haddr, ⟨rest, p3⟩, hrest, h⟩ := h
    obtain ⟨rfl, rfl⟩ := Prod.mk.inj (Except.ok.inj h)
    obtain ⟨hreadType, hp⟩ := ulebBefore_of_readUlebOrFail hstop htype
    rw [typedPairs, if_pos hp, hreadType]
    simp only [(ulebBefore_of_readUlebOrFail hstop haddr).1, ih hrest]

/-- The builder reads the handler the gate decoded. -/
theorem parseHandlers_of_decode {c : CodeItem} (hmem : c.mem = v.image)
    (hsmall : insnsSize * 2 ≤ 2 ^ 32) (typeName : Nat → Text) {handler : CatchHandler}
    (h : v.decodeCatchHandler p = .ok (handler, q))
    (haddrs : ∀ addr ∈ handler.addrs, addr < insnsSize) :
    c.parseHandlers typeName p = handler.parsed typeName := by
  have hstop : v.endOfFile ≤ v.image.length := v.endOfFile_le
  simp only [Verifier.decodeCatchHandler, bind_eq_ok, orFail_eq_ok] at h
  obtain ⟨read, hread, ⟨size, p1⟩, rfl, ⟨pairs, p2⟩, hpairs, hlast⟩ := h
  have hsize : slebBefore v.image v.image.length 5 0 p 0 0 = (size, p1) :=
    sleb_readers_agree hstop hread
  have hscaled (addr : Nat) (haddr : addr ∈ handler.addrs) : addr * 2 % 2 ^ 32 = addr * 2 :=
    Nat.mod_eq_of_lt (by have := haddrs addr haddr; omega)
  unfold CodeItem.parseHandlers
  simp only [hmem, hsize, typedPairs_of_decode hstop hpairs]
  split at hlast
  · rename_i hcatch
    simp only [bind_eq_ok] at hlast
    obtain ⟨⟨addr, p3⟩, haddr, hlast⟩ := hlast
    obtain ⟨rfl, rfl⟩ := Prod.mk.inj (Except.ok.inj hlast)
    rw [if_pos hcatch, (ulebBefore_of_readUlebOrFail hstop haddr).1]
    simp only [CatchHandler.parsed, Option.toList_some, List.map_cons, List.map_nil]
    rw [hscaled addr (by simp [CatchHandler.addrs])]
    congr 1
    refine List.map_congr_left fun pair hpair => ?_
    rw [hscaled pair.2 (List.mem_append_left _ (List.mem_map_of_mem hpair))]
  · rename_i hcatch
    obtain ⟨rfl, rfl⟩ := Prod.mk.inj (Except.ok.inj hlast)
    rw [if_neg hcatch]
    simp only [CatchHandler.parsed, Option.toList_none, List.map_nil, List.append_nil]
    refine List.map_congr_left fun pair hpair => ?_
    rw [hscaled pair.2 (List.mem_append_left _ (List.mem_map_of_mem hpair))]

end Handlers

section Gate

variable {v : Verifier} {off : Nat}

theorem wp_verifyHandler_forward {insnsSize p : Nat} :
    wp (v.verifyHandler insnsSize p) fun q => p < q ∧ p < v.endOfFile := by
  simp only [Verifier.verifyHandler, wp_bind, wp_failIf, wp_orFail]
  refine wp_mono Verifier.wp_readSleb fun r hr pair hpair _ => ?_
  obtain ⟨hforward, hend⟩ := hr pair.1 pair.2 hpair
  have hpairs : wp (loop pair.1.natAbs pair.2 fun _ p => v.verifyHandlerPair insnsSize p)
      fun q => pair.2 ≤ q := by
    refine wp_loop (fun _ q => pair.2 ≤ q) (Nat.le_refl _) fun j q _ hq => ?_
    simp only [Verifier.verifyHandlerPair, wp_bind, wp_failIf, wp_pure]
    apply Verifier.wp_readUlebOrFail
    intro _ q1 huleb1 _ _ _
    apply Verifier.wp_readUlebOrFail
    intro _ q2 huleb2 _ _ _
    have := huleb1.lt
    have := huleb2.lt
    omega
  refine wp_mono hpairs fun q hq => ?_
  rw [wp_ite]
  refine ⟨fun _ => ?_, fun _ => ⟨by omega, by omega⟩⟩
  simp only [wp_bind, wp_failIf, wp_pure]
  apply Verifier.wp_readUlebOrFail
  intro _ q1 huleb _ _ _
  have := huleb.lt
  omega

/-- What `VerifyCodeItem` has checked of the table behind the instructions. -/
structure GateTable (v : Verifier) (off : Nat) : Prop where
  room : v.gateTryItems off + (v.codeItem off).triesSize * TryBlock.bytes ≤ v.endOfFile
  small : (v.codeItem off).insnsSize * 2 < 2 ^ 32
  inside : ∀ i < (v.codeItem off).triesSize,
    (v.gateTryItem off i).startAddr < (v.codeItem off).insnsSize ∧
      (v.gateTryItem off i).startAddr + (v.gateTryItem off i).insnCount ≤
        (v.codeItem off).insnsSize
  apart : ∀ i j, i < j → j < (v.codeItem off).triesSize →
    (v.gateTryItem off i).startAddr + (v.gateTryItem off i).insnCount ≤
      (v.gateTryItem off j).startAddr
  handler : ∀ i < (v.codeItem off).triesSize, v.gateHandlerList off i < v.endOfFile ∧
    ∃ handler q, v.decodeCatchHandler (v.gateHandlerList off i) = .ok (handler, q) ∧
      ∀ addr ∈ handler.addrs, addr < (v.codeItem off).insnsSize

/-- Each recorded offset is that of a handler the gate has decoded. -/
theorem offsets_of_verifyHandlers {insnsSize handlersBase handlersSize p : Nat}
    {offsets : List Nat} (hbase : handlersBase ≤ p)
    (h : v.verifyHandlers insnsSize handlersBase handlersSize p = .ok offsets) :
    ∀ offset ∈ offsets, ∃ p q, handlersBase ≤ p ∧ p < v.endOfFile ∧
      offset = (p - handlersBase) % 2 ^ 32 ∧ v.verifyHandler insnsSize p = .ok q := by
  simp only [Verifier.verifyHandlers, bind_eq_ok] at h
  obtain ⟨⟨last, result⟩, hloop, h⟩ := h
  obtain rfl := Except.ok.inj h
  have hinv := loop_invariant (fun _ (s : Nat × List Nat) => handlersBase ≤ s.1 ∧
    ∀ offset ∈ s.2, ∃ p q, handlersBase ≤ p ∧ p < v.endOfFile ∧
      offset = (p - handlersBase) % 2 ^ 32 ∧ v.verifyHandler insnsSize p = .ok q)
    hloop ⟨hbase, by simp⟩ ?_
  · exact hinv.2
  rintro j ⟨p, offsets⟩ ⟨p', offsets'⟩ - ⟨hp, hoffsets⟩ hstep
  simp only [bind_eq_ok] at hstep
  obtain ⟨next, hnext, hstep⟩ := hstep
  obtain ⟨rfl, rfl⟩ := Prod.mk.inj (Except.ok.inj hstep)
  have hforward := post_of_ok wp_verifyHandler_forward hnext
  refine ⟨by simp only at hp ⊢; omega, fun offset hoffset => ?_⟩
  obtain hoffset | hoffset := List.mem_append.mp hoffset
  · exact hoffsets offset hoffset
  · exact ⟨p, next, hp, by omega, by simpa using hoffset, hnext⟩

theorem gateTryItems_of_skip {tryItems : Nat}
    (h : v.skipTryPadding ((v.codeItem off).insns + (v.codeItem off).insnsSize * 2)
      (v.codeItem off).insnsSize = .ok tryItems) : tryItems = v.gateTryItems off := by
  have hmod : (v.codeItem off).insnsSize &&& 1 = (v.codeItem off).insnsSize % 2 :=
    Nat.and_one_is_mod _
  unfold Verifier.skipTryPadding at h
  rw [hmod] at h
  simp only [Verifier.gateTryItems, CodeItem.codeBytes]
  split at h
  · rename_i hodd
    simp only [bind_eq_ok, failIf_eq_ok] at h
    obtain ⟨-, -, padding, -, -, -, h⟩ := h
    obtain rfl := Except.ok.inj h
    rw [if_neg hodd]
    omega
  · rename_i heven
    obtain rfl := Except.ok.inj h
    rw [if_pos (by omega)]
    omega

theorem verifyTries_of_verifyCodeItem (h : v.verifyCodeItem off = .ok ())
    (htries : (v.codeItem off).triesSize ≠ 0) :
    v.checkListSize (v.codeItem off).insns (v.codeItem off).insnsSize 2 "insns" = .ok () ∧
      v.verifyTries ((v.codeItem off).insns + (v.codeItem off).insnsSize * 2)
        (v.codeItem off).insnsSize (v.codeItem off).triesSize = .ok () := by
  unfold Verifier.verifyCodeItem at h
  simp only [bind_eq_ok, read_eq_ok] at h
  obtain ⟨⟨⟩, -, code, ⟨-, rfl⟩, ⟨⟩, -, ⟨⟩, -, ⟨⟩, hinsns, ⟨⟩, -, hlast⟩ := h
  have hsome : (codeAt v.image (v.offsetToPtr off)).triesSize ≠ 0 := htries
  rw [onlyIf, if_pos hsome] at hlast
  exact ⟨hinsns, hlast⟩

/-- An accepted code item with try blocks has a table the gate has checked. -/
theorem gateTable_of_verifyCodeItem (hsize : v.range.size_ < 2 ^ 32)
    (h : v.verifyCodeItem off = .ok ()) (htries : (v.codeItem off).triesSize ≠ 0) :
    GateTable v off := by
  obtain ⟨hinsns, hverify⟩ := verifyTries_of_verifyCodeItem h htries
  simp only [Verifier.verifyTries, bind_eq_ok, failIf_eq_ok] at hverify
  obtain ⟨tryItems, hskip, ⟨⟩, hroom, ⟨handlersSize, p⟩, hcount, ⟨⟩, -, offsets, hoffsets, last,
    hloop, -⟩ := hverify
  obtain rfl := gateTryItems_of_skip hskip
  have hspan := post_of_ok (@Verifier.wp_checkListSize v _ _ _ _ (by decide) (fun _ =>
    v.range.begin_ ≤ v.gateTryItems off ∧ v.gateTryItems off +
      (v.codeItem off).triesSize * TryBlock.bytes ≤ v.endOfFile)
    fun hbegin hend => ⟨hbegin, hend⟩) hroom
  have hinsnsSpan := post_of_ok (@Verifier.wp_checkListSize v _ _ _ _ (by decide) (fun _ =>
    v.range.begin_ ≤ (v.codeItem off).insns ∧ (v.codeItem off).insns +
      (v.codeItem off).insnsSize * 2 ≤ v.endOfFile)
    fun hbegin hend => ⟨hbegin, hend⟩) hinsns
  have hend : v.endOfFile = v.range.begin_ + v.range.size_ := rfl
  have hp := (post_of_ok (@Verifier.wp_readUlebOrFail v _ _ (fun r => v.gateTryItems off +
    (v.codeItem off).triesSize * TryBlock.bytes ≤ r.2) fun _ _ huleb _ _ =>
      Nat.le_of_lt huleb.lt) hcount)
  have hsmall : (v.codeItem off).insnsSize * 2 < 2 ^ 32 := by omega
  -- every try_item so far is in order, inside the instructions and has a decoded handler
  have hinv := loop_invariant (fun j lastAddr =>
    (∀ i < j, (v.gateTryItem off i).startAddr < (v.codeItem off).insnsSize ∧
      (v.gateTryItem off i).startAddr + (v.gateTryItem off i).insnCount ≤
        (v.codeItem off).insnsSize ∧
      (v.gateTryItem off i).startAddr + (v.gateTryItem off i).insnCount ≤ lastAddr ∧
      (v.gateTryItem off i).handlerOff ∈ offsets) ∧
    ∀ i k, i < k → k < j → (v.gateTryItem off i).startAddr + (v.gateTryItem off i).insnCount ≤
      (v.gateTryItem off k).startAddr) hloop ⟨by simp, by simp⟩ ?_
  · obtain ⟨hitems, hapart⟩ := hinv
    refine ⟨hspan.2, hsmall, fun i hi => ⟨(hitems i hi).1, (hitems i hi).2.1⟩, hapart,
      fun i hi => ?_⟩
    obtain ⟨q, q', hq, hqend, hoffset, hhandler⟩ :=
      offsets_of_verifyHandlers hp hoffsets _ (hitems i hi).2.2.2
    obtain ⟨handler, hdecode, haddrs⟩ := decode_of_verifyHandler hhandler
    have hplace : v.gateHandlerList off i = q := by
      rw [Verifier.gateHandlerList, hoffset, Nat.mod_eq_of_lt (by omega)]
      omega
    rw [hplace]
    exact ⟨hqend, handler, q', hdecode, haddrs⟩
  rintro j lastAddr next hj ⟨hitems, hapart⟩ hstep
  simp only [Verifier.verifyTryItem, bind_eq_ok, read_eq_ok, failIf_eq_ok] at hstep
  obtain ⟨ti, ⟨-, hti⟩, ⟨⟩, horder, ⟨⟩, hstart, ⟨⟩, hoffset, ⟨⟩, hcountFits, hnext⟩ := hstep
  obtain rfl : v.gateTryItem off j = ti := hti
  obtain rfl := Except.ok.inj hnext
  have hinsnCount : (v.gateTryItem off j).insnCount < 65536 := u2At_lt _ _
  have hnowrap : ((v.gateTryItem off j).startAddr + (v.gateTryItem off j).insnCount) % 2 ^ 32 =
      (v.gateTryItem off j).startAddr + (v.gateTryItem off j).insnCount :=
    Nat.mod_eq_of_lt (by omega)
  rw [hnowrap] at hcountFits ⊢
  refine ⟨fun i hi => ?_, fun i k hik hk => ?_⟩
  · obtain hlt | rfl := Nat.lt_succ_iff_lt_or_eq.mp hi
    · obtain ⟨hin, hfits, hbefore, hmem⟩ := hitems i hlt
      exact ⟨hin, hfits, by omega, hmem⟩
    · exact ⟨by omega, by omega, Nat.le_refl _, not_not.mp hoffset⟩
  · obtain hlt | rfl := Nat.lt_succ_iff_lt_or_eq.mp hk
    · exact hapart i k hik hlt
    · have hbefore := (hitems i hik).2.2.1
      omega

/-- The builder's table is the one the gate validated: as many entries as
try_items, each read where the gate read it, with its range and the handler the
gate decoded at its `handler_off`; the ranges are sorted, disjoint and inside the
instructions, the handler addresses inside them. -/
structure TablesAgree (v : Verifier) (off : Nat) (typeName : Nat → Text) : Prop where
  length : ((v.codeItem off).parseTypedTries typeName).length = (v.codeItem off).triesSize
  entry : ∀ i < (v.codeItem off).triesSize, ∃ handler q,
    v.decodeCatchHandler (v.gateHandlerList off i) = .ok (handler, q) ∧
      (∀ addr ∈ handler.addrs, addr < (v.codeItem off).insnsSize) ∧
      ((v.codeItem off).parseTypedTries typeName)[i]? = some
        { itemAt := v.gateTryItems off + i * TryBlock.bytes
          listAt := v.gateHandlerList off i
          startByte := 2 * (v.gateTryItem off i).startAddr
          endByte := 2 * ((v.gateTryItem off i).startAddr + (v.gateTryItem off i).insnCount)
          handlers := handler.parsed typeName }
  inside : ∀ i < (v.codeItem off).triesSize,
    (v.gateTryItem off i).startAddr < (v.codeItem off).insnsSize ∧
      (v.gateTryItem off i).startAddr + (v.gateTryItem off i).insnCount ≤
        (v.codeItem off).insnsSize
  apart : ∀ i j, i < j → j < (v.codeItem off).triesSize →
    (v.gateTryItem off i).startAddr + (v.gateTryItem off i).insnCount ≤
      (v.gateTryItem off j).startAddr

theorem insns_codeItem : (v.codeItem off).insns = v.offsetToPtr off + 16 := rfl

/-- The two addresses of the first try_item. -/
theorem tryItems_eq_iff :
    (v.codeItem off).tryItems = v.gateTryItems off ↔ v.offsetToPtr off % 4 = 0 := by
  simp only [CodeItem.tryItems, Verifier.gateTryItems, CodeItem.codeBytes, insns_codeItem]
  split <;> omega

/-- With one address for the table, the builder reads what the gate checked. -/
theorem GateTable.agree (h : GateTable v off)
    (hat : (v.codeItem off).tryItems = v.gateTryItems off) (typeName : Nat → Text) :
    TablesAgree v off typeName := by
  have hin := v.endOfFile_le
  have hlen : (v.codeItem off).mem.length = v.image.length := rfl
  have hitem (i : Nat) : (v.codeItem off).tryItem i = v.gateTryItem off i := by
    rw [CodeItem.tryItem, hat]
    rfl
  have hbase : (v.codeItem off).handlersBase =
      v.gateTryItems off + (v.codeItem off).triesSize * TryBlock.bytes := by
    rw [CodeItem.handlersBase, hat]
  obtain hnone | hsome := Nat.eq_zero_or_pos (v.codeItem off).triesSize
  · refine ⟨?_, ?_, h.inside, h.apart⟩
    · rw [CodeItem.parseTypedTries, if_pos (Or.inl hnone), hnone]
      rfl
    · intro i hi
      omega
  have hroom := h.room
  have hsmall := h.small
  -- no entry is skipped: every handler list is inside the image
  have hparse : (v.codeItem off).parseTypedTries typeName =
      (List.range (v.codeItem off).triesSize).map fun i =>
        { itemAt := v.gateTryItems off + i * TryBlock.bytes
          listAt := v.gateHandlerList off i
          startByte := 2 * (v.gateTryItem off i).startAddr
          endByte := 2 * ((v.gateTryItem off i).startAddr + (v.gateTryItem off i).insnCount)
          handlers := (v.codeItem off).parseHandlers typeName (v.gateHandlerList off i) } := by
    rw [CodeItem.parseTypedTries, if_neg (by omega), ← List.filterMap_eq_map]
    refine List.filterMap_congr fun i hi => ?_
    rw [List.mem_range] at hi
    have hlist := (h.handler i hi).1
    have hrange := h.inside i hi
    have hplace : v.gateTryItems off + (v.codeItem off).triesSize * TryBlock.bytes +
        (v.gateTryItem off i).handlerOff = v.gateHandlerList off i := rfl
    simp only [hitem, hbase, hat, hplace]
    rw [if_neg (by omega), Nat.mod_eq_of_lt (by omega), Nat.mod_eq_of_lt (by omega),
      Nat.mul_comm _ 2, Nat.mul_comm _ 2]
    rfl
  refine ⟨by rw [hparse]; simp, fun i hi => ?_, h.inside, h.apart⟩
  obtain ⟨-, handler, q, hdecode, haddrs⟩ := h.handler i hi
  refine ⟨handler, q, hdecode, haddrs, ?_⟩
  rw [hparse, List.getElem?_map, List.getElem?_range hi, Option.map_some,
    parseHandlers_of_decode rfl (Nat.le_of_lt hsmall) typeName hdecode haddrs]

/-- An entry of the builder's table is read at one of the places behind its own
address of the table. -/
theorem itemAt_of_parse {typeName : Nat → Text} {t : TypedTry}
    (h : t ∈ (v.codeItem off).parseTypedTries typeName) :
    ∃ i, t.itemAt = (v.codeItem off).tryItems + i * TryBlock.bytes := by
  unfold CodeItem.parseTypedTries at h
  dsimp only at h
  split at h
  · simp at h
  · obtain ⟨i, -, hi⟩ := List.mem_filterMap.mp h
    split at hi
    · cases hi
    · obtain rfl := Option.some.inj hi
      exact ⟨i, rfl⟩

end Gate

/-- For a code item the verifier accepts, the builder reads the exception table the
gate validated exactly when there is none or the code item starts at a multiple of
four bytes. -/
theorem exception_tables_agree_iff {image : Memory} {headerOff off : Nat} {checkInsns : Bool}
    {v : Verifier} (hopen : openVerifier image headerOff checkInsns = .ok v)
    (haccept : v.verifyCodeItem off = .ok ()) (typeName : Nat → Text) :
    TablesAgree v off typeName ↔
      (v.codeItem off).triesSize = 0 ∨ v.offsetToPtr off % 4 = 0 := by
  constructor
  · intro h
    obtain hnone | hsome := Nat.eq_zero_or_pos (v.codeItem off).triesSize
    · exact Or.inl hnone
    refine Or.inr (tryItems_eq_iff.mp ?_)
    obtain ⟨handler, q, -, -, hentry⟩ := h.entry 0 hsome
    obtain ⟨i, hi⟩ := itemAt_of_parse (List.mem_of_getElem? hentry)
    -- the two addresses are less than one try_item apart
    simp only [CodeItem.tryItems, Verifier.gateTryItems, TryBlock.bytes] at hi ⊢
    split at hi <;> split <;> omega
  · rintro (hnone | haligned)
    · have hempty : (v.codeItem off).parseTypedTries typeName = [] := by
        rw [CodeItem.parseTypedTries, if_pos (Or.inl hnone)]
      refine ⟨by rw [hempty, hnone]; rfl, ?_, ?_, ?_⟩ <;> intros <;> omega
    · obtain hnone | hsome := Nat.eq_zero_or_pos (v.codeItem off).triesSize
      · have hempty : (v.codeItem off).parseTypedTries typeName = [] := by
          rw [CodeItem.parseTypedTries, if_pos (Or.inl hnone)]
        refine ⟨by rw [hempty, hnone]; rfl, ?_, ?_, ?_⟩ <;> intros <;> omega
      · exact (gateTable_of_verifyCodeItem (size_lt_of_openVerifier hopen) haccept
          (by omega)).agree (tryItems_eq_iff.mpr haligned) typeName

/-- A bare header with a code item at 114: two times return-void, a try block over
both and a catch-all at the first. -/
def shiftedTryImage : Memory :=
  List.replicate 32 0 ++ [145, 0, 0, 0] ++ List.replicate 78 0 ++
    [1, 0, 0, 0, 0, 0, 1, 0, 0, 0, 0, 0, 2, 0, 0, 0] ++ [0x0E, 0, 0x0E, 0] ++
    [0, 0, 0, 0, 2, 0, 1, 0] ++ [1, 0, 0]

set_option maxRecDepth 20000 in
def shiftedTryVerifier : Verifier :=
  ⟨shiftedTryImage, 0, headerAt shiftedTryImage 0, ⟨0, 145, by decide⟩, true⟩

set_option maxRecDepth 1000 in
theorem shiftedTry_open : openVerifier shiftedTryImage 0 true = .ok shiftedTryVerifier := by
  rfl

set_option maxRecDepth 20000 in
/-- The runs on the code item. -/
theorem shiftedTry_runs : shiftedTryVerifier.verifyCodeItem 114 = .ok () ∧
    ((shiftedTryVerifier.codeItem 114).parseTypedTries fun _ => []).length ≠
      (shiftedTryVerifier.codeItem 114).triesSize := by
  decide

theorem exception_tables_agree_iff_shiftedTry :
    TablesAgree shiftedTryVerifier 114 (fun _ => []) ↔
      (shiftedTryVerifier.codeItem 114).triesSize = 0 ∨
        shiftedTryVerifier.offsetToPtr 114 % 4 = 0 :=
  exception_tables_agree_iff shiftedTry_open shiftedTry_runs.1 _

/-- The gate accepts the code item at 114, and the builder reads no entry. -/
theorem shiftedTry_not_agree : ¬ ∀ (image : Memory) (headerOff off : Nat) (v : Verifier)
    (typeName : Nat → Text), openVerifier image headerOff true = .ok v →
      v.verifyCodeItem off = .ok () →
        ((v.codeItem off).parseTypedTries typeName).length = (v.codeItem off).triesSize := by
  intro h
  obtain ⟨haccept, hlength⟩ := shiftedTry_runs
  exact hlength (h shiftedTryImage 0 114 shiftedTryVerifier (fun _ => []) shiftedTry_open haccept)

end Dexllm
