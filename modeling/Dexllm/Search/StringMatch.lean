import Dexllm.JavaText
import Dexllm.Lib.SuffixChain

/-!
The string tests of a matcher. A substring is looked for with the table of the
borders of the word, and what is found is its first occurrence.
-/

namespace Dexllm.Kmp

open SuffixChain

/-- `GetIgnoreCaseChar`. -/
def getIgnoreCaseChar (ignoreCase : Bool) (c : UInt8) : UInt8 :=
  if ignoreCase && 0x41 ≤ c && c ≤ 0x5a then c + 32 else c

/-- The loop of `FindNext` at `i` and `k`. -/
def findNextFrom (find : Text) (ignoreCase : Bool) : (fuel i : Nat) → (k : Int) → (Nat → Int) →
    Option (Nat → Int)
  | 0, _, _, _ => none
  | fuel + 1, i, k, next =>
    if i < find.length then
      if k = -1 then
        findNextFrom find ignoreCase fuel (i + 1) (k + 1) (Function.update next (i + 1) (k + 1))
      else
        let c1 := getIgnoreCaseChar ignoreCase (find.getD i 0)
        let c2 := getIgnoreCaseChar ignoreCase (find.getD k.toNat 0)
        if c1 = c2 then
          findNextFrom find ignoreCase fuel (i + 1) (k + 1) (Function.update next (i + 1) (k + 1))
        else findNextFrom find ignoreCase fuel i (next k.toNat) next
    else some next

/-- `FindNext`: `next` holds zeros before. -/
def findNext (find : Text) (ignoreCase : Bool) : Option (Nat → Int) :=
  findNextFrom find ignoreCase (2 * find.length + 1) 0 (-1) (Function.update (fun _ => 0) 0 (-1))

/-- The loop of `FindIndex` at `i` and `j`. -/
def findIndexFrom (data find : Text) (ignoreCase : Bool) (next : Nat → Int) :
    (fuel i : Nat) → (j : Int) → Option Int
  | 0, _, _ => none
  | fuel + 1, i, j =>
    if i < data.length ∧ j < find.length then
      if j = -1 then findIndexFrom data find ignoreCase next fuel (i + 1) (j + 1)
      else
        let c1 := getIgnoreCaseChar ignoreCase (data.getD i 0)
        let c2 := getIgnoreCaseChar ignoreCase (find.getD j.toNat 0)
        if c1 = c2 then findIndexFrom data find ignoreCase next fuel (i + 1) (j + 1)
        else findIndexFrom data find ignoreCase next fuel i (next j.toNat)
    else if j = find.length then some (i - j)
    else some (-1)

/-- `FindIndex`; no result is a loop that did not end. -/
def findIndex (data find : Text) (ignoreCase : Bool) : Option Int :=
  if find = [] then some 0
  else do
    let next ← findNext find ignoreCase
    findIndexFrom data find ignoreCase next (2 * data.length + 2) 0 0

/-- A text as the tests compare it. -/
def folded (ignoreCase : Bool) (text : Text) : Text := text.map (getIgnoreCaseChar ignoreCase)

/-- The loop of `starts_with`, `ends_with` and `equals`. -/
def sameChars (ignoreCase : Bool) (source target : Text) : Bool :=
  (List.range target.length).all fun i =>
    getIgnoreCaseChar ignoreCase (source.getD i 0) = getIgnoreCaseChar ignoreCase (target.getD i 0)

/-- `starts_with`. -/
def startsWith (source target : Text) (ignoreCase : Bool) : Bool :=
  if source.length < target.length then false else sameChars ignoreCase source target

/-- `ends_with`. -/
def endsWith (source target : Text) (ignoreCase : Bool) : Bool :=
  if source.length < target.length then false
  else sameChars ignoreCase (source.drop (source.length - target.length)) target

/-- `equals`. -/
def equals (source target : Text) (ignoreCase : Bool) : Bool :=
  if source.length ≠ target.length then false else sameChars ignoreCase source target

variable {ignoreCase : Bool} {data find source target : Text}

@[simp] theorem length_folded : (folded ignoreCase target).length = target.length :=
  List.length_map _

theorem getElem_folded {i : Nat} (h : i < (folded ignoreCase target).length) :
    (folded ignoreCase target)[i] =
      getIgnoreCaseChar ignoreCase (target.getD i 0) := by
  rw [length_folded] at h
  simp [folded, h]

theorem sameChars_iff (h : target.length ≤ source.length) :
    sameChars ignoreCase source target = true ↔
      folded ignoreCase target <+: folded ignoreCase source := by
  have hle : (folded ignoreCase target).length ≤ (folded ignoreCase source).length := by
    rwa [length_folded, length_folded]
  rw [List.prefix_iff_eq_take, sameChars, List.all_eq_true]
  simp only [List.mem_range, decide_eq_true_eq]
  constructor
  · intro hall
    apply List.ext_getElem
    · rw [List.length_take, Nat.min_eq_left hle]
    · intro i hi hi'
      rw [List.getElem_take, getElem_folded hi, getElem_folded (Nat.lt_of_lt_of_le hi hle)]
      exact (hall i (by rwa [length_folded] at hi)).symm
  · intro heq i hi
    have hi : i < (folded ignoreCase target).length := by rwa [length_folded]
    have hget := List.getElem_of_eq heq hi
    rw [List.getElem_take, getElem_folded hi, getElem_folded (Nat.lt_of_lt_of_le hi hle)] at hget
    exact hget.symm

theorem startsWith_iff : startsWith source target ignoreCase = true ↔
    folded ignoreCase target <+: folded ignoreCase source := by
  unfold startsWith
  split
  next hlt =>
    refine iff_of_false Bool.false_ne_true fun h => ?_
    have := h.length_le
    rw [length_folded, length_folded] at this
    omega
  next hge => exact sameChars_iff (Nat.le_of_not_lt hge)

theorem endsWith_iff : endsWith source target ignoreCase = true ↔
    folded ignoreCase target <:+ folded ignoreCase source := by
  unfold endsWith
  split
  next hlt =>
    refine iff_of_false Bool.false_ne_true fun h => ?_
    have := h.length_le
    rw [length_folded, length_folded] at this
    omega
  next hge =>
    have hge := Nat.le_of_not_lt hge
    have hlength : (source.drop (source.length - target.length)).length = target.length := by
      rw [List.length_drop]
      omega
    have hdrop : folded ignoreCase (source.drop (source.length - target.length)) =
        (folded ignoreCase source).drop
          ((folded ignoreCase source).length - (folded ignoreCase target).length) := by
      rw [folded, List.map_drop, length_folded, length_folded]
      rfl
    rw [sameChars_iff hlength.ge, hdrop, List.suffix_iff_eq_drop]
    constructor
    · intro h
      refine h.eq_of_length ?_
      rw [List.length_drop, length_folded, length_folded]
      omega
    · exact fun h => h ▸ List.prefix_rfl

theorem equals_iff : equals source target ignoreCase = true ↔
    folded ignoreCase target = folded ignoreCase source := by
  unfold equals
  split
  next hne =>
    refine iff_of_false Bool.false_ne_true fun h => ?_
    have := congrArg List.length h
    rw [length_folded, length_folded] at this
    omega
  next heq =>
    have heq := not_not.mp heq
    rw [sameChars_iff heq.ge]
    exact ⟨fun h => h.eq_of_length (by rw [length_folded, length_folded, heq]),
      fun h => h ▸ List.prefix_rfl⟩

/-- The prefixes of the word. -/
abbrev Prefixes (word : Text) (u : Text) : Prop := u <+: word

theorem prefixClosed_prefixes (word : Text) : PrefixClosed (Prefixes word) where
  nil := List.nil_prefix
  closed _ _ h := (List.prefix_append _ _).trans h

theorem prefixes_snoc {word : Text} {k : Nat} {c : UInt8} (hk : k < word.length) :
    Prefixes word (word.take k ++ [c]) ↔ word[k] = c := by
  constructor
  · intro h
    have hget := h.getElem (by simp; omega : k < (word.take k ++ [c]).length)
    rw [List.getElem_append_right (by simp)] at hget
    simpa using hget.symm
  · rintro rfl
    rw [List.take_append_getElem hk]
    exact List.take_prefix _ _

section Table

variable {word : Text}

/-- The first `i` entries of the table: each the length of the longest proper suffix
of a prefix that is a prefix itself. -/
structure Borders (word : Text) (next : Nat → Int) (i : Nat) : Prop where
  zero : next 0 = -1
  border : ∀ m, 0 < m → m ≤ i → ∃ b : Nat, next m = b ∧ b < m ∧
    Longest (Prefixes word) (word.take m).tail (word.take b)

/-- Where the walk down the borders is: `-1` once the empty word is no hit. -/
def At (word w : Text) (c : UInt8) (k : Int) : Prop :=
  (k = -1 ∧ Pending (Prefixes word) w c [] ∧ ¬Prefixes word [c]) ∨
    ∃ b : Nat, k = b ∧ b ≤ word.length ∧ Pending (Prefixes word) w c (word.take b)

theorem tail_take_succ {i : Nat} (hi : 0 < i) (hlt : i < word.length) :
    (word.take (i + 1)).tail = (word.take i).tail ++ [word[i]] := by
  rw [← List.take_append_getElem hlt, List.tail_append_of_ne_nil]
  exact List.ne_nil_of_length_pos (by rw [List.length_take]; omega)

/-- One step down the borders. -/
theorem At.down {w : Text} {c : UInt8} {next : Nat → Int} {b i : Nat}
    (htable : Borders word next i) (hbi : b ≤ i) (hb : b < word.length)
    (h : Pending (Prefixes word) w c (word.take b)) (hmiss : word[b] ≠ c) :
    At word w c (next b) ∧ next b < b := by
  have hnot : ¬Prefixes word (word.take b ++ [c]) := fun hmem => hmiss ((prefixes_snoc hb).mp hmem)
  cases b with
  | zero =>
    rw [htable.zero]
    rw [List.take_zero] at h hnot
    exact ⟨.inl ⟨rfl, h, hnot⟩, by omega⟩
  | succ b =>
    obtain ⟨d, hnext, hlt, hborder⟩ := htable.border (b + 1) (Nat.succ_pos b) hbi
    obtain ⟨a, u, hcons⟩ : ∃ a u, word.take (b + 1) = a :: u :=
      List.exists_cons_of_ne_nil (List.ne_nil_of_length_pos (by rw [List.length_take]; omega))
    rw [hcons] at h hnot hborder
    rw [hnext]
    exact ⟨.inr ⟨d, rfl, by omega, h.next hnot hborder (prefixClosed_prefixes word)⟩,
      by omega⟩

/-- A hit, or the end of the walk, gives the longest prefix behind one letter more. -/
theorem At.hit {w : Text} {c : UInt8} {k : Int} (h : At word w c k)
    (hhit : k = -1 ∨ ∃ b : Nat, k = b ∧ ∃ hb : b < word.length, word[b] = c) :
    ∃ b : Nat, k + 1 = b ∧ b ≤ word.length ∧
      Longest (Prefixes word) (w ++ [c]) (word.take b) := by
  rcases h with ⟨rfl, hpend, hmiss⟩ | ⟨b, rfl, -, hpend⟩
  · exact ⟨0, rfl, Nat.zero_le _, hpend.nil hmiss (prefixClosed_prefixes word)⟩
  · obtain ⟨b', heq, hb, hc⟩ := hhit.resolve_left (by omega)
    obtain rfl : b' = b := by omega
    refine ⟨b' + 1, rfl, hb, ?_⟩
    have hfound := hpend.found ((prefixes_snoc hb).mpr hc)
    rw [← hc, List.take_append_getElem hb] at hfound
    rw [← hc]
    exact hfound

/-- What the loop keeps. -/
structure TableInv (word : Text) (i : Nat) (k : Int) (next : Nat → Int) : Prop where
  borders : Borders word next i
  below : k < i
  at_ : ∀ h : i < word.length, (i = 0 ∧ k = -1) ∨ (0 < i ∧ At word (word.take i).tail word[i] k)

theorem TableInv.advance {i : Nat} {k : Int} {next : Nat → Int} (h : TableInv word i k next)
    (hi : i < word.length)
    (hhit : k = -1 ∨ ∃ b : Nat, k = b ∧ ∃ hb : b < word.length, word[b] = word[i]) :
    TableInv word (i + 1) (k + 1) (Function.update next (i + 1) (k + 1)) := by
  obtain ⟨b, hb, hle, hlongest⟩ : ∃ b : Nat, k + 1 = b ∧ b ≤ word.length ∧
      Longest (Prefixes word) (word.take (i + 1)).tail (word.take b) := by
    rcases h.at_ hi with ⟨rfl, rfl⟩ | ⟨hpos, hat⟩
    · refine ⟨0, rfl, Nat.zero_le _, ?_⟩
      have htail : (word.take (0 + 1)).tail = [] :=
        List.eq_nil_of_length_eq_zero (by simp only [List.length_tail, List.length_take]; omega)
      rw [htail]
      exact Longest.of_mem List.nil_prefix
    · rw [tail_take_succ hpos hi]
      exact hat.hit hhit
  have hbelow := h.below
  refine ⟨⟨?_, fun m hm hmi => ?_⟩, by omega, fun hnext => .inr ⟨Nat.succ_pos i, ?_⟩⟩
  · rw [Function.update_of_ne (by omega), h.borders.zero]
  · rcases Nat.lt_or_eq_of_le hmi with hlt | rfl
    · rw [Function.update_of_ne (by omega)]
      exact h.borders.border m hm (by omega)
    · rw [Function.update_self]
      exact ⟨b, hb, by omega, hlongest⟩
  · rw [hb]
    exact .inr ⟨b, rfl, hle, hlongest.pending (prefixClosed_prefixes word)⟩

end Table

/-- The table that `FindNext` leaves. -/
theorem findNextFrom_spec {fuel i : Nat} {k : Int} {next : Nat → Int}
    (h : TableInv (folded ignoreCase find) i k next) (hi : i ≤ find.length)
    (hk : -1 ≤ k) (hfuel : 2 * (find.length - i) + (k + 1).toNat < fuel) :
    ∃ table, findNextFrom find ignoreCase fuel i k next = some table ∧
      Borders (folded ignoreCase find) table find.length := by
  induction fuel generalizing i k next with
  | zero => omega
  | succ fuel ih =>
    unfold findNextFrom
    split
    next hlt =>
      have hword : i < (folded ignoreCase find).length := by rwa [length_folded]
      split
      next hk =>
        exact ih (h.advance hword (.inl hk)) hlt (by omega) (by omega)
      next hne =>
        obtain ⟨b, rfl⟩ : ∃ b : Nat, k = b := ⟨k.toNat, by omega⟩
        have hbelow := h.below
        have hb : b < (folded ignoreCase find).length := by rw [length_folded]; omega
        rw [Int.toNat_natCast]
        dsimp only
        split
        next heq =>
          rw [← getElem_folded hword, ← getElem_folded hb] at heq
          exact ih (h.advance hword (.inr ⟨b, rfl, hb, heq.symm⟩)) hlt (by omega) (by omega)
        next hmiss =>
          rw [← getElem_folded hword, ← getElem_folded hb] at hmiss
          obtain ⟨hpos, hat⟩ := (h.at_ hword).resolve_left fun hzero => by omega
          rcases hat with ⟨heq, -⟩ | ⟨b', heq, -, hpend⟩
          · omega
          · obtain rfl : b' = b := by omega
            obtain ⟨hdown, hlt'⟩ := At.down h.borders (by omega) hb hpend (Ne.symm hmiss)
            have hge : -1 ≤ next b' := by
              rcases hdown with ⟨hk, -⟩ | ⟨d, hk, -⟩ <;> omega
            exact ih ⟨h.borders, by omega, fun _ => .inr ⟨hpos, hdown⟩⟩ hi hge (by omega)
    next hge =>
      have hend : i = find.length := by omega
      exact ⟨next, rfl, hend ▸ h.borders⟩

theorem findNext_spec (find : Text) (ignoreCase : Bool) :
    ∃ table, findNext find ignoreCase = some table ∧
      Borders (folded ignoreCase find) table find.length := by
  refine findNextFrom_spec ⟨⟨Function.update_self .., fun m hm hmi => by omega⟩, by omega,
    fun _ => .inl ⟨rfl, rfl⟩⟩ (Nat.zero_le _) (by omega) ?_
  simp

/-- What the search keeps: no occurrence ends before `i`, one ends at `i` if the word
is read whole. -/
structure SearchInv (word text : Text) (i : Nat) (j : Int) : Prop where
  range : -1 ≤ j ∧ j ≤ word.length
  earlier : ∀ e < i, ¬word <:+ text.take e
  here : j = word.length ↔ word <:+ text.take i
  at_ : ∀ h : i < text.length, At word (text.take i) text[i] j

theorem SearchInv.advance {word text : Text} {i : Nat} {j : Int} (h : SearchInv word text i j)
    (hi : i < text.length) (hj : j < word.length)
    (hhit : j = -1 ∨ ∃ b : Nat, j = b ∧ ∃ hb : b < word.length, word[b] = text[i]) :
    SearchInv word text (i + 1) (j + 1) := by
  obtain ⟨b, hb, hle, hlongest⟩ := (h.at_ hi).hit hhit
  rw [List.take_append_getElem hi] at hlongest
  refine ⟨by omega, fun e he => ?_, ?_, fun hnext => ?_⟩
  · rcases Nat.lt_succ_iff_lt_or_eq.mp he with hlt | rfl
    · exact h.earlier e hlt
    · exact fun hsuffix => absurd (h.here.mpr hsuffix) (by omega)
  · rw [hb]
    constructor
    · intro heq
      have hsuffix := hlongest.suffix
      rwa [List.take_of_length_le (by omega)] at hsuffix
    · intro hsuffix
      have hlen := hlongest.longest word hsuffix List.prefix_rfl
      rw [List.length_take] at hlen
      omega
  · rw [hb]
    exact .inr ⟨b, rfl, hle, hlongest.pending (prefixClosed_prefixes word)⟩

theorem suffix_take_iff {word text : Text} {r : Nat} (h : r + word.length ≤ text.length) :
    word <:+ text.take (r + word.length) ↔ word <+: text.drop r := by
  rw [List.suffix_iff_eq_drop, List.prefix_iff_eq_take, List.length_take, Nat.min_eq_left h,
    Nat.add_sub_cancel, ← List.take_drop]

/-- The result of the loop: the first occurrence, if there is one. -/
theorem findIndexFrom_spec {next : Nat → Int} {fuel i : Nat} {j : Int}
    (htable : Borders (folded ignoreCase find) next find.length)
    (h : SearchInv (folded ignoreCase find) (folded ignoreCase data) i j)
    (hi : i ≤ data.length) (hfuel : 2 * (data.length - i) + (j + 1).toNat < fuel) :
    (∃ r : Nat, findIndexFrom data find ignoreCase next fuel i j = some (r : Int) ∧
      folded ignoreCase find <+: (folded ignoreCase data).drop r ∧
      ∀ s < r, ¬folded ignoreCase find <+: (folded ignoreCase data).drop s) ∨
    (findIndexFrom data find ignoreCase next fuel i j = some (-1) ∧
      ¬folded ignoreCase find <:+: folded ignoreCase data) := by
  induction fuel generalizing i j with
  | zero => omega
  | succ fuel ih =>
    have hrange := h.range
    rw [length_folded] at hrange
    unfold findIndexFrom
    split
    next hgo =>
      obtain ⟨hlt, hj⟩ := hgo
      have htext : i < (folded ignoreCase data).length := by rwa [length_folded]
      have hword : j < (folded ignoreCase find).length := by rwa [length_folded]
      split
      next hend => exact ih (h.advance htext hword (.inl hend)) hlt (by omega)
      next hne =>
        obtain ⟨b, rfl⟩ : ∃ b : Nat, j = b := ⟨j.toNat, by omega⟩
        have hb : b < (folded ignoreCase find).length := by omega
        rw [Int.toNat_natCast]
        dsimp only
        split
        next heq =>
          rw [← getElem_folded htext, ← getElem_folded hb] at heq
          exact ih (h.advance htext hword (.inr ⟨b, rfl, hb, heq.symm⟩)) hlt (by omega)
        next hmiss =>
          rw [← getElem_folded htext, ← getElem_folded hb] at hmiss
          rcases h.at_ htext with ⟨heq, -⟩ | ⟨b', heq, -, hpend⟩
          · omega
          · obtain rfl : b' = b := by omega
            obtain ⟨hdown, hlt'⟩ := At.down htable (by omega) hb hpend (Ne.symm hmiss)
            have hge : -1 ≤ next b' := by
              rcases hdown with ⟨hk, -⟩ | ⟨d, hk, -⟩ <;> omega
            refine ih ⟨⟨hge, by omega⟩, h.earlier, ?_, fun _ => hdown⟩ hi (by omega)
            rw [← h.here]
            omega
    next hstop =>
      split
      next hfound =>
        left
        have hsuffix := h.here.mp (by rw [length_folded]; exact hfound)
        have hle := hsuffix.length_le
        rw [List.length_take, length_folded, length_folded, Nat.min_eq_left hi] at hle
        have hend (s : Nat) (hs : s ≤ i - find.length) :
            (folded ignoreCase find <:+ (folded ignoreCase data).take (s + find.length) ↔
              folded ignoreCase find <+: (folded ignoreCase data).drop s) := by
          have hiff := @suffix_take_iff (folded ignoreCase find) (folded ignoreCase data) s
            (by rw [length_folded, length_folded]; omega)
          rwa [length_folded] at hiff
        refine ⟨i - find.length, ?_, ?_, fun s hs hpre => ?_⟩
        · rw [hfound]
          congr 1
          omega
        · rw [← hend _ (Nat.le_refl _), Nat.sub_add_cancel hle]
          exact hsuffix
        · exact h.earlier (s + find.length) (by omega) ((hend s (by omega)).mpr hpre)
      next hmissing =>
        right
        refine ⟨rfl, ?_⟩
        rintro ⟨pre, post, heq⟩
        have hend : i = data.length := by omega
        have hlen := congrArg List.length heq
        simp only [List.length_append, length_folded] at hlen
        have hsuffix : folded ignoreCase find <:+
            (folded ignoreCase data).take (pre.length + find.length) := by
          refine ⟨pre, ?_⟩
          rw [← heq, List.take_append_of_le_length (by simp)]
          rw [List.take_of_length_le (by simp)]
        rcases Nat.lt_or_ge (pre.length + find.length) i with hlt | hge
        · exact h.earlier _ hlt hsuffix
        · have hall : pre.length + find.length = i := by omega
          rw [hall] at hsuffix
          exact hmissing (by rw [h.here.mpr hsuffix, length_folded])

/-- `FindIndex` ends, with the first place where the word occurs, or with -1 if it
occurs nowhere. -/
theorem findIndex_spec (data find : Text) (ignoreCase : Bool) :
    (∃ r : Nat, findIndex data find ignoreCase = some (r : Int) ∧
      folded ignoreCase find <+: (folded ignoreCase data).drop r ∧
      ∀ s < r, ¬folded ignoreCase find <+: (folded ignoreCase data).drop s) ∨
    (findIndex data find ignoreCase = some (-1) ∧
      ¬folded ignoreCase find <:+: folded ignoreCase data) := by
  unfold findIndex
  split
  next hempty =>
    rw [hempty]
    exact .inl ⟨0, rfl, List.nil_prefix, fun s hs => absurd hs (Nat.not_lt_zero s)⟩
  next hne =>
    obtain ⟨table, htable, hborders⟩ := findNext_spec find ignoreCase
    rw [htable]
    have hpos : 0 < find.length := List.length_pos_of_ne_nil hne
    refine findIndexFrom_spec hborders ⟨by omega, fun e he => by omega, ?_, fun hlt => ?_⟩
      (Nat.zero_le _) (by simp)
    · refine iff_of_false (by rw [length_folded]; omega) fun hsuffix => ?_
      have := hsuffix.length_le
      rw [length_folded, List.take_zero, List.length_nil] at this
      omega
    · have hprefixes := prefixClosed_prefixes (folded ignoreCase find)
      exact .inr ⟨0, rfl, Nat.zero_le _, (Longest.of_mem hprefixes.nil).pending hprefixes⟩

end Dexllm.Kmp

/-!
What a string matcher says of a text, and the loops that ask it for every text a method
uses.
-/

namespace Dexllm

inductive StringMatchType where
  | contains
  | startWith
  | endWith
  | similarRegex
  | equal
  deriving DecidableEq, Repr

/-- A matcher without a value matches every text. -/
structure StringMatcher where
  value : Option Text
  matchType : StringMatchType
  ignoreCase : Bool
  deriving DecidableEq, Repr

/-- A matcher by its keyword; `matchType` is no `SimilarRegex`. -/
structure Keyword where
  value : Text
  matchType : StringMatchType
  ignoreCase : Bool
  deriving DecidableEq, Repr

/-- `ConvertSimilarRegex`. A text without letters has no `front()` and no `back()`. -/
def convertSimilarRegex (str : Text) (type : StringMatchType) :
    Option (Text × StringMatchType) :=
  if type = .similarRegex then do
    let front ← str.head?
    let str := if front = 0x5e then str.drop 1 else str
    let type := if front = 0x5e then StringMatchType.startWith else .contains
    let back ← str.getLast?
    if back = 0x24 then
      return (str.take (str.length - 1), if type = .startWith then .equal else .endWith)
    return (str, type)
  else some (str, type)

/-- `IsStringMatchedAtomic`; no result is an abort, or a text without a first letter. -/
def isStringMatchedAtomic (str : Text) (matcher : StringMatcher) : Option Bool :=
  match matcher.value with
  | none => some true
  | some value => do
    let (matchStr, matchType) ← convertSimilarRegex value matcher.matchType
    match matchType with
    | .startWith => some (Kmp.startsWith str matchStr matcher.ignoreCase)
    | .endWith => some (Kmp.endsWith str matchStr matcher.ignoreCase)
    | .equal => some (Kmp.equals str matchStr matcher.ignoreCase)
    | .contains => return (← Kmp.findIndex str matchStr matcher.ignoreCase) ≠ -1
    | .similarRegex => none

/-- The loop over the texts for one matcher. -/
def anyStringMatched (matcher : StringMatcher) : List Text → Option Bool
  | [] => some false
  | str :: usingStrings => do
    if ← isStringMatchedAtomic str matcher then return true
    anyStringMatched matcher usingStrings

/-- `MatchUsingStringGroup`. -/
def matchUsingStringGroup (usingStrings : List Text) : List StringMatcher → Option Bool
  | [] => some true
  | matcher :: matchers => do
    if ← anyStringMatched matcher usingStrings then matchUsingStringGroup usingStrings matchers
    else return false

/-- The value of a matcher that goes into the trie, and its type: the part of
`BuildBatchFindKeywordsMap` and of `NormalizeUsingStringsMatchers` for one matcher. -/
def keywordOf (value : Text) (type : StringMatchType) (ignoreCase : Bool) : Keyword :=
  if type = .similarRegex then
    let starts := value.head? = some 0x5e
    let ends := value.getLast? = some 0x24
    let l := if starts then 1 else 0
    let r := if ends then value.length - 1 else value.length
    let type : StringMatchType :=
      if ends then if starts then .equal else .endWith
      else if starts then .startWith else .contains
    ⟨(value.drop l).take (r - l), type, ignoreCase⟩
  else ⟨value, type, ignoreCase⟩

/-- The text is what a keyword of this type asks for, letter by letter. -/
def Keyword.Matches (k : Keyword) (str : Text) : Prop :=
  match k.matchType with
  | .contains => Kmp.folded k.ignoreCase k.value <:+: Kmp.folded k.ignoreCase str
  | .startWith => Kmp.folded k.ignoreCase k.value <+: Kmp.folded k.ignoreCase str
  | .endWith => Kmp.folded k.ignoreCase k.value <:+ Kmp.folded k.ignoreCase str
  | .equal => Kmp.folded k.ignoreCase k.value = Kmp.folded k.ignoreCase str
  | .similarRegex => False

theorem matchType_keywordOf (value : Text) (type : StringMatchType) (ignoreCase : Bool) :
    (keywordOf value type ignoreCase).matchType ≠ .similarRegex := by
  unfold keywordOf
  split
  · simp only
    split
    · split <;> decide
    · split <;> decide
  next hne => exact hne

/-- Where the conversion of a regular expression has a result, it is the keyword. -/
theorem convertSimilarRegex_eq {value str : Text} {type type' : StringMatchType}
    (ignoreCase : Bool) (h : convertSimilarRegex value type = some (str, type')) :
    keywordOf value type ignoreCase = ⟨str, type', ignoreCase⟩ := by
  unfold convertSimilarRegex at h
  unfold keywordOf
  split at h
  next hregex =>
    obtain ⟨front, hfront, h⟩ := Option.bind_eq_some_iff.mp h
    obtain ⟨back, hback, h⟩ := Option.bind_eq_some_iff.mp h
    obtain ⟨tail, rfl⟩ := List.head?_eq_some_iff.mp hfront
    rw [if_pos hregex]
    by_cases hstarts : front = 0x5e
    · simp only [hstarts, if_true, List.drop_one, List.tail_cons] at hback h
      have hlast : (0x5e :: tail).getLast? = some back := by
        rw [List.getLast?_cons, hback]
        rfl
      simp only [hstarts, List.head?_cons, hlast, Option.some.injEq, if_true, List.drop_one,
        List.tail_cons, List.length_cons]
      by_cases hends : back = 0x24
      · rw [if_pos hends] at h
        obtain ⟨rfl, rfl⟩ := Prod.mk.inj (Option.some.inj h)
        simp [hends]
      · rw [if_neg hends] at h
        obtain ⟨rfl, rfl⟩ := Prod.mk.inj (Option.some.inj h)
        simp [hends]
    · simp only [hstarts, if_false] at hback h
      simp only [hstarts, List.head?_cons, hback, Option.some.injEq, if_false, List.drop_zero,
        Nat.sub_zero]
      by_cases hends : back = 0x24
      · rw [if_pos hends] at h
        obtain ⟨rfl, rfl⟩ := Prod.mk.inj (Option.some.inj h)
        simp [hends]
      · rw [if_neg hends] at h
        obtain ⟨rfl, rfl⟩ := Prod.mk.inj (Option.some.inj h)
        simp [hends]
  next hregex =>
    obtain ⟨rfl, rfl⟩ := Prod.mk.inj (Option.some.inj h)
    rw [if_neg hregex]

/-- An answer of the plain matcher is right about the keyword. -/
theorem isStringMatchedAtomic_spec {str value : Text} {matcher : StringMatcher}
    (hvalue : matcher.value = some value) {answer : Bool}
    (h : isStringMatchedAtomic str matcher = some answer) :
    answer = true ↔ (keywordOf value matcher.matchType matcher.ignoreCase).Matches str := by
  rw [isStringMatchedAtomic, hvalue] at h
  obtain ⟨⟨matchStr, type⟩, hconvert, h⟩ := Option.bind_eq_some_iff.mp h
  rw [convertSimilarRegex_eq matcher.ignoreCase hconvert]
  cases type with
  | startWith =>
    obtain rfl := Option.some.inj h
    exact Kmp.startsWith_iff
  | endWith =>
    obtain rfl := Option.some.inj h
    exact Kmp.endsWith_iff
  | equal =>
    obtain rfl := Option.some.inj h
    exact Kmp.equals_iff
  | contains =>
    obtain ⟨index, hindex, h⟩ := Option.bind_eq_some_iff.mp h
    obtain rfl := Option.some.inj h
    rw [decide_eq_true_eq]
    rcases Kmp.findIndex_spec str matchStr matcher.ignoreCase with
      ⟨r, hfound, hpre, -⟩ | ⟨hmiss, hnot⟩
    · obtain rfl := Option.some.inj (hindex.symm.trans hfound)
      exact iff_of_true (by omega) (hpre.isInfix.trans (List.drop_suffix r _).isInfix)
    · obtain rfl := Option.some.inj (hindex.symm.trans hmiss)
      exact iff_of_false (fun hne => hne rfl) hnot
  | similarRegex => cases h

theorem anyStringMatched_spec {value : Text} {matcher : StringMatcher}
    (hvalue : matcher.value = some value) {usingStrings : List Text} {answer : Bool}
    (h : anyStringMatched matcher usingStrings = some answer) :
    answer = true ↔
      ∃ str ∈ usingStrings, (keywordOf value matcher.matchType matcher.ignoreCase).Matches str := by
  induction usingStrings with
  | nil =>
    obtain rfl := Option.some.inj h
    simp
  | cons str usingStrings ih =>
    obtain ⟨matched, hstr, h⟩ := Option.bind_eq_some_iff.mp h
    have hspec := isStringMatchedAtomic_spec hvalue hstr
    cases matched with
    | true =>
      obtain rfl := Option.some.inj h
      exact iff_of_true rfl ⟨str, List.mem_cons_self, hspec.mp rfl⟩
    | false =>
      have hnot : ¬(keywordOf value matcher.matchType matcher.ignoreCase).Matches str :=
        fun hmatches => Bool.false_ne_true (hspec.mpr hmatches)
      rw [ih h, List.exists_mem_cons_iff, or_iff_right hnot]

/-- The loops ask every matcher for a text. -/
theorem matchUsingStringGroup_spec {usingStrings : List Text} {matchers : List StringMatcher}
    (hvalues : ∀ m ∈ matchers, ∃ value, m.value = some value) {answer : Bool}
    (h : matchUsingStringGroup usingStrings matchers = some answer) :
    answer = true ↔ ∀ m ∈ matchers, ∀ value, m.value = some value →
      ∃ str ∈ usingStrings, (keywordOf value m.matchType m.ignoreCase).Matches str := by
  induction matchers with
  | nil =>
    obtain rfl := Option.some.inj h
    simp
  | cons matcher matchers ih =>
    obtain ⟨matched, hmatcher, h⟩ := Option.bind_eq_some_iff.mp h
    obtain ⟨value, hvalue⟩ := hvalues matcher List.mem_cons_self
    have hspec := anyStringMatched_spec hvalue hmatcher
    rw [List.forall_mem_cons]
    cases matched with
    | true =>
      rw [ih (fun m hm => hvalues m (List.mem_cons_of_mem _ hm)) h]
      refine ⟨fun hrest => ⟨fun value' hvalue' => ?_, hrest⟩, And.right⟩
      obtain rfl := Option.some.inj (hvalue.symm.trans hvalue')
      exact hspec.mp rfl
    | false =>
      obtain rfl := Option.some.inj h
      refine iff_of_false Bool.false_ne_true fun hall => ?_
      exact Bool.false_ne_true (hspec.mpr (hall.1 value hvalue))

end Dexllm
