import Dexllm.Search.StringMatch

/-!
The packages a query asks for and those it leaves out are kept in one trie of
descriptors. A class is searched for all of its prefixes in one walk.
-/

namespace Dexllm

open Kmp

/-- `PackageTrie`; the rows behind `size` are those of `emplace_back`. -/
structure PackageTrie where
  size : Nat := 1
  nodes : Nat → UInt8 → Int := fun _ _ => -1
  flags : Nat → Nat := fun _ => 0

namespace PackageTrie

/-- The node of a letter, made where there is none. -/
def child (t : PackageTrie) (currentNode : Nat) (c : UInt8) : PackageTrie × Nat :=
  if t.nodes currentNode c = -1 then
    ({ t with
        size := t.size + 1
        nodes := Function.update t.nodes currentNode
          (Function.update (t.nodes currentNode) c t.size) }, t.size)
  else (t, (t.nodes currentNode c).toNat)

/-- The loop of `insert`. -/
def insertFrom (ignoreCase : Bool) (t : PackageTrie) (currentNode : Nat) :
    Text → PackageTrie × Nat
  | [] => (t, currentNode)
  | c :: word =>
    let (t, currentNode) := t.child currentNode (getIgnoreCaseChar ignoreCase c)
    insertFrom ignoreCase t currentNode word

/-- `insert`. -/
def insert (t : PackageTrie) (word : Text) (isWhite ignoreCase : Bool) : PackageTrie :=
  let (t, currentNode) := insertFrom ignoreCase t 0 word
  { t with
    flags := Function.update t.flags currentNode (t.flags currentNode ||| 2 ^ isWhite.toNat) }

/-- The flags of a node that the search comes to. -/
def addFlags (found flag : Nat) : Nat :=
  if found ≠ 0 then
    let flag := if found &&& 1 ≠ 0 then flag ||| 1 else flag
    if found &&& 2 ≠ 0 then flag ||| 2 else flag
  else flag

/-- The loop of `search`. -/
def searchFrom (ignoreCase : Bool) (t : PackageTrie) (currentNode : Nat) :
    Text → (flag : Nat) → Nat
  | [], flag => flag
  | c :: word, flag =>
    let c := getIgnoreCaseChar ignoreCase c
    if t.nodes currentNode c = -1 then flag
    else
      let currentNode := (t.nodes currentNode c).toNat
      searchFrom ignoreCase t currentNode word (addFlags (t.flags currentNode) flag)

/-- `search`. -/
def search (t : PackageTrie) (word : Text) (ignoreCase : Bool) : Nat :=
  searchFrom ignoreCase t 0 word 0

end PackageTrie

/-- The prefix of the descriptors of a package. The first letter of an empty text is the
zero behind it. -/
def packageStr (package : Text) : Text :=
  let packageStr := package.map fun c => if c = 0x2e then 0x2f else c
  let packageStr := if packageStr.head? ≠ some 0x4c then 0x4c :: packageStr else packageStr
  if packageStr.getLast? ≠ some 0x2f then packageStr ++ [0x2f] else packageStr

/-- `BuildPackagesMatchTrie`; `none` is a list that the query does not have. -/
def buildPackagesMatchTrie (searchPackages excludePackages : Option (List Text))
    (ignorePackagesCase : Bool) : PackageTrie :=
  let t := (searchPackages.getD []).foldl
    (fun t package => t.insert (packageStr package) true ignorePackagesCase) {}
  (excludePackages.getD []).foldl
    (fun t package => t.insert (packageStr package) false ignorePackagesCase) t

/-- The test of a class by its package in `FindClass`, `FindMethod`, `FindField` and the
batch searches. -/
def packageAdmitted (searchPackages excludePackages : Option (List Text))
    (ignorePackagesCase : Bool) (typeName : Text) : Bool :=
  if searchPackages.isSome || excludePackages.isSome then
    let hit := (buildPackagesMatchTrie searchPackages excludePackages ignorePackagesCase).search
      typeName ignorePackagesCase
    if excludePackages.isSome && hit &&& 1 ≠ 0 then false
    else if searchPackages.isSome && hit >>> 1 = 0 then false
    else true
  else true

theorem packageStr_ne_nil (package : Text) : packageStr package ≠ [] := by
  unfold packageStr
  simp only
  split
  · split
    · exact List.cons_ne_nil _ _
    · exact List.cons_ne_nil _ _
  · split
    · exact List.append_ne_nil_of_right_ne_nil _ (List.cons_ne_nil _ _)
    next hslash =>
      intro hnil
      rw [hnil] at hslash
      exact hslash (by simp)

namespace PackageTrie

variable {t : PackageTrie} {word : Nat → Text} {entries : List (Text × Bool)}

/-- The nodes of the trie are the prefixes `word` of its entries, and a node has the
flags of the entries that end at it. -/
structure Holds (t : PackageTrie) (word : Nat → Text) (entries : List (Text × Bool)) : Prop where
  pos : 0 < t.size
  root : word 0 = []
  edge : ∀ n < t.size, ∀ c, t.nodes n c = -1 ∨
    ∃ m < t.size, t.nodes n c = m ∧ word m = word n ++ [c]
  missing : ∀ n < t.size, ∀ c, t.nodes n c = -1 → ∀ m < t.size, word m ≠ word n ++ [c]
  inj : ∀ n < t.size, ∀ m < t.size, word n = word m → n = m
  closed : ∀ n < t.size, ∀ u c, word n = u ++ [c] → ∃ m < t.size, word m = u
  fresh : ∀ n, t.size ≤ n → (∀ c, t.nodes n c = -1) ∧ t.flags n = 0
  flag : ∀ n < t.size, ∀ b : Bool, (t.flags n).testBit b.toNat = true ↔ (word n, b) ∈ entries
  small : ∀ n, t.flags n < 4
  stored : ∀ e ∈ entries, ∃ n < t.size, word n = e.1

theorem holds_empty : Holds {} (fun _ => []) [] where
  pos := Nat.one_pos
  root := rfl
  edge := by simp
  missing := by simp
  inj := by
    intro n hn m hm _
    have hn : n < 1 := hn
    have hm : m < 1 := hm
    omega
  closed := by simp
  fresh := by simp
  flag := by simp
  small := by simp
  stored := by simp

/-- No entry is where a node is missing. -/
theorem Holds.not_mem (h : t.Holds word entries) {n : Nat} (hn : n < t.size) {c : UInt8}
    (hmiss : t.nodes n c = -1) (rest : Text) (b : Bool) :
    (word n ++ c :: rest, b) ∉ entries := by
  have hnode (rest : Text) : ∀ m < t.size, word m ≠ word n ++ c :: rest := by
    induction rest using List.reverseRecOn with
    | nil => exact h.missing n hn c hmiss
    | append_singleton rest d ih =>
      intro m hm hword
      rw [← List.cons_append, ← List.append_assoc] at hword
      obtain ⟨m', hm', hword'⟩ := h.closed m hm _ d hword
      exact ih m' hm' hword'
  intro hmem
  obtain ⟨m, hm, hword⟩ := h.stored _ hmem
  exact hnode rest m hm hword

theorem Holds.addNode (h : t.Holds word entries) {n : Nat} (hn : n < t.size) {c : UInt8}
    (hmiss : t.nodes n c = -1) :
    ({ t with
        size := t.size + 1
        nodes := Function.update t.nodes n (Function.update (t.nodes n) c t.size) } :
      PackageTrie).Holds (Function.update word t.size (word n ++ [c])) entries := by
  have hne {m : Nat} (hm : m < t.size) : m ≠ t.size := Nat.ne_of_lt hm
  have hold {m : Nat} (hm : m < t.size) :
      Function.update word t.size (word n ++ [c]) m = word m :=
    Function.update_of_ne (hne hm) _ _
  have hnew : Function.update word t.size (word n ++ [c]) t.size = word n ++ [c] :=
    Function.update_self _ _ _
  have hnodes (k : Nat) (d : UInt8) (hkd : ¬(k = n ∧ d = c)) :
      Function.update t.nodes n (Function.update (t.nodes n) c (t.size : Int)) k d =
        t.nodes k d := by
    by_cases hk : k = n
    · subst hk
      rw [Function.update_self, Function.update_of_ne fun hd => hkd ⟨rfl, hd⟩]
    · rw [Function.update_of_ne hk]
  have hedge : Function.update t.nodes n (Function.update (t.nodes n) c (t.size : Int)) n c =
      t.size := by
    rw [Function.update_self, Function.update_self]
  constructor
  case pos => exact Nat.succ_pos _
  case root => rw [hold h.pos, h.root]
  case edge =>
    intro k hk d
    by_cases hkd : k = n ∧ d = c
    · obtain ⟨rfl, rfl⟩ := hkd
      exact .inr ⟨t.size, Nat.lt_succ_self _, hedge, by rw [hnew, hold hn]⟩
    · simp only [hnodes k d hkd]
      rcases Nat.lt_succ_iff_lt_or_eq.mp hk with hk | rfl
      · rcases h.edge k hk d with hnone | ⟨m, hm, hnode, hword⟩
        · exact .inl hnone
        · exact .inr ⟨m, Nat.lt_succ_of_lt hm, hnode, by rw [hold hm, hold hk, hword]⟩
      · exact .inl ((h.fresh _ le_rfl).1 d)
  case missing =>
    intro k hk d hnone m hm hword
    simp only at hnone
    have hkd : ¬(k = n ∧ d = c) := by
      rintro ⟨rfl, rfl⟩
      rw [hedge] at hnone
      omega
    rw [hnodes k d hkd] at hnone
    rcases Nat.lt_succ_iff_lt_or_eq.mp hk with hk | rfl
    · rw [hold hk] at hword
      rcases Nat.lt_succ_iff_lt_or_eq.mp hm with hm | rfl
      · rw [hold hm] at hword
        exact h.missing k hk d hnone m hm hword
      · rw [hnew] at hword
        obtain ⟨hwords, hletters⟩ := List.append_inj' hword rfl
        exact hkd ⟨(h.inj n hn k hk hwords).symm, (List.cons.inj hletters).1.symm⟩
    · rw [hnew] at hword
      rcases Nat.lt_succ_iff_lt_or_eq.mp hm with hm | rfl
      · rw [hold hm] at hword
        obtain ⟨m', hm', hword'⟩ := h.closed m hm _ d hword
        exact h.missing n hn c hmiss m' hm' hword'
      · rw [hnew] at hword
        simpa using congrArg List.length hword
  case inj =>
    intro k hk m hm hword
    rcases Nat.lt_succ_iff_lt_or_eq.mp hk with hk | rfl
    · rw [hold hk] at hword
      rcases Nat.lt_succ_iff_lt_or_eq.mp hm with hm | rfl
      · rw [hold hm] at hword
        exact h.inj k hk m hm hword
      · rw [hnew] at hword
        exact absurd hword (h.missing n hn c hmiss k hk)
    · rw [hnew] at hword
      rcases Nat.lt_succ_iff_lt_or_eq.mp hm with hm | rfl
      · rw [hold hm] at hword
        exact absurd hword.symm (h.missing n hn c hmiss m hm)
      · rfl
  case closed =>
    intro k hk u d hword
    rcases Nat.lt_succ_iff_lt_or_eq.mp hk with hk | rfl
    · rw [hold hk] at hword
      obtain ⟨m, hm, hpre⟩ := h.closed k hk u d hword
      exact ⟨m, Nat.lt_succ_of_lt hm, by rw [hold hm, hpre]⟩
    · rw [hnew] at hword
      exact ⟨n, Nat.lt_succ_of_lt hn, by rw [hold hn, (List.append_inj' hword rfl).1]⟩
  case fresh =>
    intro k hk
    have hk : t.size < k := hk
    refine ⟨fun d => ?_, (h.fresh k hk.le).2⟩
    simp only [hnodes k d fun hkd => absurd hkd.1 (by omega)]
    exact (h.fresh k hk.le).1 d
  case flag =>
    intro k hk b
    rcases Nat.lt_succ_iff_lt_or_eq.mp hk with hk | rfl
    · rw [hold hk]
      exact h.flag k hk b
    · rw [hnew]
      simp only [(h.fresh _ le_rfl).2, Nat.zero_testBit, Bool.false_eq_true, false_iff]
      exact h.not_mem hn hmiss [] b
  case small => exact h.small
  case stored =>
    intro e he
    obtain ⟨m, hm, hword⟩ := h.stored e he
    exact ⟨m, Nat.lt_succ_of_lt hm, by rw [hold hm, hword]⟩

/-- A letter below a node has the node of one more letter. -/
theorem Holds.child (h : t.Holds word entries) {n : Nat} (hn : n < t.size) (c : UInt8) :
    ∃ word', (t.child n c).1.Holds word' entries ∧ (t.child n c).2 < (t.child n c).1.size ∧
      word' (t.child n c).2 = word n ++ [c] := by
  unfold PackageTrie.child
  split
  next hmiss => exact ⟨_, h.addNode hn hmiss, Nat.lt_succ_self _, Function.update_self _ _ _⟩
  next hsome =>
    rcases h.edge n hn c with hmiss | ⟨m, hm, hnode, hword⟩
    · exact absurd hmiss hsome
    · rw [hnode, Int.toNat_natCast]
      exact ⟨word, h, hm, hword⟩

theorem Holds.insertFrom (h : t.Holds word entries) (ignoreCase : Bool) {n : Nat}
    (hn : n < t.size) (w : Text) :
    ∃ word', (t.insertFrom ignoreCase n w).1.Holds word' entries ∧
      (t.insertFrom ignoreCase n w).2 < (t.insertFrom ignoreCase n w).1.size ∧
      word' (t.insertFrom ignoreCase n w).2 = word n ++ folded ignoreCase w := by
  induction w generalizing t word n with
  | nil => exact ⟨word, h, hn, (List.append_nil _).symm⟩
  | cons c w ih =>
    obtain ⟨word', hchild, hlt, hword⟩ := h.child hn (getIgnoreCaseChar ignoreCase c)
    obtain ⟨word'', hrest, hlt', hword'⟩ := ih hchild hlt
    refine ⟨word'', hrest, hlt', ?_⟩
    rw [folded, List.map_cons, ← folded]
    rw [hword, List.append_assoc, List.singleton_append] at hword'
    exact hword'

/-- An insertion adds its entry. -/
theorem Holds.insert (h : t.Holds word entries) (w : Text) (isWhite ignoreCase : Bool) :
    ∃ word', (t.insert w isWhite ignoreCase).Holds word'
      ((folded ignoreCase w, isWhite) :: entries) := by
  obtain ⟨word', hheld, hlt, hword⟩ := h.insertFrom ignoreCase h.pos w
  rw [h.root, List.nil_append] at hword
  refine ⟨word', ?_⟩
  unfold PackageTrie.insert
  generalize t.insertFrom ignoreCase 0 w = found at hheld hlt hword
  obtain ⟨t', n⟩ := found
  have hflag (k : Nat) (hk : k ≠ n) :
      Function.update t'.flags n (t'.flags n ||| 2 ^ isWhite.toNat) k = t'.flags k :=
    Function.update_of_ne hk _ _
  refine ⟨hheld.pos, hheld.root, hheld.edge, hheld.missing, hheld.inj, hheld.closed, ?_, ?_, ?_,
    ?_⟩
  · intro k hk
    refine ⟨(hheld.fresh k hk).1, ?_⟩
    simp only [hflag k (by simp only at hlt hk; omega)]
    exact (hheld.fresh k hk).2
  · intro k hk b
    rw [List.mem_cons, Prod.mk.injEq]
    by_cases hkn : k = n
    · subst hkn
      simp only [Function.update_self, Nat.testBit_or, Bool.or_eq_true, Nat.testBit_two_pow,
        decide_eq_true_eq, hheld.flag k hk b]
      rw [or_comm]
      refine or_congr_left ?_
      rw [and_iff_right hword]
      cases b <;> cases isWhite <;> simp
    · simp only [hflag k hkn, hheld.flag k hk b]
      refine (or_iff_right fun heq => hkn ?_).symm
      exact hheld.inj k hk n hlt (heq.1.trans hword.symm)
  · intro k
    by_cases hkn : k = n
    · subst hkn
      simp only [Function.update_self]
      refine Nat.or_lt_two_pow (n := 2) (hheld.small k) ?_
      cases isWhite <;> decide
    · simp only [hflag k hkn]
      exact hheld.small k
  · intro e he
    rcases List.mem_cons.mp he with rfl | he
    · exact ⟨n, hlt, hword⟩
    · exact hheld.stored e he

theorem testBit_addFlags {found flag : Nat} (hfound : found < 4) (b : Bool) :
    (addFlags found flag).testBit b.toNat = true ↔
      flag.testBit b.toNat = true ∨ found.testBit b.toNat = true := by
  unfold addFlags
  have hcases : found = 0 ∨ found = 1 ∨ found = 2 ∨ found = 3 := by omega
  rcases hcases with rfl | rfl | rfl | rfl <;> cases b <;> simp +decide [Nat.testBit_or]

/-- A search collects the flags of the entries that are prefixes. -/
theorem Holds.searchFrom (h : t.Holds word entries) (ignoreCase : Bool) {n : Nat}
    (hn : n < t.size) (w : Text) {flag : Nat} (b : Bool) :
    (t.searchFrom ignoreCase n w flag).testBit b.toNat = true ↔ flag.testBit b.toNat = true ∨
      ∃ u, u ≠ [] ∧ u <+: folded ignoreCase w ∧ (word n ++ u, b) ∈ entries := by
  induction w generalizing n flag with
  | nil =>
    refine (or_iff_left ?_).symm
    rintro ⟨u, hu, hpre, -⟩
    exact hu (List.prefix_nil.mp hpre)
  | cons c w ih =>
    rw [PackageTrie.searchFrom]
    simp only
    have hcons : folded ignoreCase (c :: w) =
      getIgnoreCaseChar ignoreCase c :: folded ignoreCase w := rfl
    rw [hcons]
    generalize getIgnoreCaseChar ignoreCase c = c
    split
    next hmiss =>
      refine (or_iff_left ?_).symm
      rintro ⟨u, hu, hpre, hmem⟩
      obtain ⟨d, u, rfl⟩ := List.exists_cons_of_ne_nil hu
      obtain rfl := (List.cons_prefix_cons.mp hpre).1
      exact h.not_mem hn hmiss u b hmem
    next hsome =>
      rcases h.edge n hn c with hmiss | ⟨m, hm, hnode, hword⟩
      · exact absurd hmiss hsome
      · rw [hnode, Int.toNat_natCast, ih hm, testBit_addFlags (h.small m), h.flag m hm b,
          or_assoc]
        refine or_congr_right ?_
        constructor
        · rintro (hmem | ⟨u, -, hpre, hmem⟩)
          · exact ⟨[c], List.cons_ne_nil _ _, ⟨_, rfl⟩, hword ▸ hmem⟩
          · rw [hword, List.append_assoc] at hmem
            exact ⟨c :: u, List.cons_ne_nil _ _, List.cons_prefix_cons.mpr ⟨rfl, hpre⟩, hmem⟩
        · rintro ⟨u, hu, hpre, hmem⟩
          obtain ⟨d, u, rfl⟩ := List.exists_cons_of_ne_nil hu
          obtain ⟨rfl, htail⟩ := List.cons_prefix_cons.mp hpre
          cases u with
          | nil => exact .inl (hword ▸ hmem)
          | cons e u =>
            refine .inr ⟨e :: u, List.cons_ne_nil _ _, htail, ?_⟩
            rw [hword, List.append_assoc]
            exact hmem

/-- A search asks all entries whether they are a prefix. -/
theorem Holds.search (h : t.Holds word entries) (hnil : ∀ b, ([], b) ∉ entries) (w : Text)
    (ignoreCase b : Bool) :
    (t.search w ignoreCase).testBit b.toNat = true ↔
      ∃ u, u <+: folded ignoreCase w ∧ (u, b) ∈ entries := by
  rw [PackageTrie.search, h.searchFrom ignoreCase h.pos w b, Nat.zero_testBit, h.root,
    or_iff_right Bool.false_ne_true]
  refine exists_congr fun u => ?_
  rw [List.nil_append]
  constructor
  · rintro ⟨-, hpre, hmem⟩
    exact ⟨hpre, hmem⟩
  · rintro ⟨hpre, hmem⟩
    refine ⟨?_, hpre, hmem⟩
    rintro rfl
    exact hnil b hmem

/-- The insertions of the packages of one list. -/
theorem Holds.insertAll (h : t.Holds word entries) (hnil : ∀ b, ([], b) ∉ entries)
    (isWhite ignoreCase : Bool) (packages : List Text) :
    ∃ word' entries', (packages.foldl
        (fun t package => t.insert (packageStr package) isWhite ignoreCase) t).Holds
        word' entries' ∧ (∀ b, ([], b) ∉ entries') ∧
      ∀ u b, (u, b) ∈ entries' ↔ (u, b) ∈ entries ∨ b = isWhite ∧
        ∃ package ∈ packages, u = folded ignoreCase (packageStr package) := by
  induction packages generalizing t word entries with
  | nil => exact ⟨word, entries, h, hnil, fun u b => by simp⟩
  | cons package packages ih =>
    obtain ⟨word', hinsert⟩ := h.insert (packageStr package) isWhite ignoreCase
    have hnil' : ∀ b, ([], b) ∉ (folded ignoreCase (packageStr package), isWhite) :: entries := by
      intro b hmem
      rcases List.mem_cons.mp hmem with heq | hmem
      · have hlength := congrArg List.length (Prod.mk.inj heq).1
        rw [length_folded, List.length_nil] at hlength
        exact packageStr_ne_nil package (List.eq_nil_of_length_eq_zero hlength.symm)
      · exact hnil b hmem
    obtain ⟨word'', entries', hall, hnil'', hmem⟩ := ih hinsert hnil'
    refine ⟨word'', entries', hall, hnil'', fun u b => ?_⟩
    rw [hmem, List.mem_cons, Prod.mk.injEq, List.exists_mem_cons_iff]
    tauto

theorem searchFrom_lt {ignoreCase : Bool} {n flag : Nat} (hflag : flag < 4) (w : Text) :
    t.searchFrom ignoreCase n w flag < 4 := by
  induction w generalizing n flag with
  | nil => exact hflag
  | cons c w ih =>
    rw [PackageTrie.searchFrom]
    split
    · exact hflag
    · refine ih ?_
      unfold addFlags
      have hor {x y : Nat} (hx : x < 4) (hy : y < 4) : x ||| y < 4 := @Nat.or_lt_two_pow x y 2 hx hy
      split
      · simp only
        split <;> split <;> simp [hor, hflag]
      · exact hflag

end PackageTrie

/-- The trie of a query says which of its two lists has a package of this name. -/
theorem search_buildPackagesMatchTrie (searchPackages excludePackages : Option (List Text))
    (ignorePackagesCase : Bool) (typeName : Text) (b : Bool) :
    ((buildPackagesMatchTrie searchPackages excludePackages ignorePackagesCase).search typeName
      ignorePackagesCase).testBit b.toNat = true ↔
    ∃ package ∈ (if b then searchPackages else excludePackages).getD [],
      folded ignorePackagesCase (packageStr package) <+: folded ignorePackagesCase typeName := by
  obtain ⟨word, asked, hasked, hnil, hmem⟩ := PackageTrie.holds_empty.insertAll
    (fun _ => List.not_mem_nil) true ignorePackagesCase (searchPackages.getD [])
  obtain ⟨word', entries, hall, hnil', hmem'⟩ := hasked.insertAll hnil false ignorePackagesCase
    (excludePackages.getD [])
  refine (hall.search hnil' typeName ignorePackagesCase b).trans ?_
  simp only [hmem', hmem, List.not_mem_nil, false_or]
  constructor
  · rintro ⟨u, hpre, ⟨rfl, package, hpackage, rfl⟩ | ⟨rfl, package, hpackage, rfl⟩⟩
    · exact ⟨package, hpackage, hpre⟩
    · exact ⟨package, hpackage, hpre⟩
  · rintro ⟨package, hpackage, hpre⟩
    cases b with
    | true => exact ⟨_, hpre, .inl ⟨rfl, package, hpackage, rfl⟩⟩
    | false => exact ⟨_, hpre, .inr ⟨rfl, package, hpackage, rfl⟩⟩

/-- A class is searched exactly if the descriptor of none of the packages that the query
leaves out is a prefix of its name, and that of one that it asks for is, if it asks for
any. -/
theorem package_admitted_iff (searchPackages excludePackages : Option (List Text))
    (ignorePackagesCase : Bool) (typeName : Text) :
    packageAdmitted searchPackages excludePackages ignorePackagesCase typeName = true ↔
      (∀ packages, excludePackages = some packages → ∀ package ∈ packages,
        ¬folded ignorePackagesCase (packageStr package) <+: folded ignorePackagesCase typeName) ∧
      (∀ packages, searchPackages = some packages → ∃ package ∈ packages,
        folded ignorePackagesCase (packageStr package) <+:
          folded ignorePackagesCase typeName) := by
  have hexcluded := search_buildPackagesMatchTrie searchPackages excludePackages
    ignorePackagesCase typeName false
  have hsearched := search_buildPackagesMatchTrie searchPackages excludePackages
    ignorePackagesCase typeName true
  unfold packageAdmitted
  have hlt : (buildPackagesMatchTrie searchPackages excludePackages ignorePackagesCase).search
      typeName ignorePackagesCase < 4 := PackageTrie.searchFrom_lt (by decide) typeName
  generalize (buildPackagesMatchTrie searchPackages excludePackages ignorePackagesCase).search
    typeName ignorePackagesCase = hit at hexcluded hsearched hlt
  have hbits : (hit &&& 1 ≠ 0 ↔ hit.testBit 0 = true) ∧
      (hit >>> 1 = 0 ↔ ¬hit.testBit 1 = true) := by
    have hcases : hit = 0 ∨ hit = 1 ∨ hit = 2 ∨ hit = 3 := by omega
    rcases hcases with rfl | rfl | rfl | rfl <;> decide
  simp only [Bool.toNat_false, Bool.toNat_true, if_true, Bool.false_eq_true, if_false]
    at hexcluded hsearched
  simp only [hbits.1, hbits.2, hexcluded, hsearched]
  cases searchPackages <;> cases excludePackages <;> simp

end Dexllm
