import Dexllm.Components.Classify

/-!
The order in which the classes are classified. The answers agree over all orders
exactly when no superclass cycle of two or more classes has a member that reaches
an interface root.
-/

namespace Dexllm.Components.Headers

variable {α : Type} [LinearOrder α] {hdr : Headers α} {t : ComponentTable α} {desc p : α}

theorem ifacePaths_exact : hdr.implementsMap.ExactRootPaths t.ifaceRoots (hdr.ifacePaths t) := by
  obtain ⟨out, hout, hexact⟩ := hdr.implementsMap.interfaceRootPaths_spec t.ifaceRoots
  rw [ifacePaths, hout]
  exact hexact

/-- A class has an interface path if it reaches a root and is none. -/
theorem exists_ifacePath : (∃ path, (hdr.ifacePaths t).lookup desc = some path) ↔
    desc ∉ t.ifaceRoots ∧ ∃ path, hdr.implementsMap.PathToRoot t.ifaceRoots desc path := by
  have hexact : hdr.implementsMap.ExactRootPaths t.ifaceRoots (hdr.ifacePaths t) := ifacePaths_exact
  have hkeys := hexact.keys desc
  constructor
  · rintro ⟨path, hpath⟩
    have hin := List.mem_map_of_mem (f := Prod.fst) (Association.mem_of_lookup hpath)
    exact (hkeys.mp hin).2
  · rintro ⟨hroot, path, hpath⟩
    have hin := hkeys.mpr ⟨Implements.declared_of_path hpath, hroot, path, hpath⟩
    rw [← Option.isSome_iff_exists, Association.lookup_isSome_iff]
    exact List.mem_map.mp hin

theorem fallback_of_no_path (h : ¬∃ path, (hdr.ifacePaths t).lookup desc = some path) :
    hdr.fallback t desc .none = .none := by
  have hnone : (hdr.ifacePaths t).lookup desc = none :=
    Option.eq_none_iff_forall_not_mem.mpr fun path hpath => h ⟨path, hpath⟩
  unfold fallback ifaceOutcome
  rw [hnone]
  rfl

/-- The interface path of a class ends in a root. -/
theorem last_of_ifacePath {path : List α} (h : (hdr.ifacePaths t).lookup desc = some path) :
    ∃ root ∈ t.ifaceRoots, path.getLast? = some root := by
  have hexact : hdr.implementsMap.ExactRootPaths t.ifaceRoots (hdr.ifacePaths t) := ifacePaths_exact
  exact (hexact.path desc path (Association.mem_of_lookup h)).1.2

theorem fallback_of_path {path : List α} (h : (hdr.ifacePaths t).lookup desc = some path) :
    ∃ root kind, hdr.fallback t desc .none = .resolved root kind path := by
  obtain ⟨root, -, hlast⟩ := last_of_ifacePath h
  unfold fallback ifaceOutcome
  rw [h, Option.bind_eq_bind, Option.bind_some, hlast]
  exact ⟨root, _, rfl⟩

/-- Off the cycles with a root, a cycle answers the same wherever it is entered. -/
theorem fallback_of_cycle (hclear : ¬hdr.RootedCycle t) (hcycle : hdr.OnCycle t desc)
    (hne : hdr.next t desc ≠ some desc) : hdr.fallback t desc .none = .none := by
  apply fallback_of_no_path
  intro hpath
  obtain ⟨hroot, path, hpath⟩ := exists_ifacePath.mp hpath
  exact hclear ⟨desc, path, hcycle, hne, hroot, hpath⟩

/-- Every answer of a memo is the one of the superclass chain. -/
def Correct (hdr : Headers α) (t : ComponentTable α) (memo : Memo α) : Prop :=
  ∀ desc out, memo.lookup desc = some out → hdr.Classified t desc out

theorem Correct.cons {memo : Memo α} {out : Outcome α} (h : Correct hdr t memo)
    (hout : hdr.Classified t desc out) : Correct hdr t ((desc, out) :: memo) := by
  intro d r hr
  by_cases hd : d = desc
  · subst hd
    rw [List.lookup_cons_self] at hr
    rwa [← Option.some.inj hr]
  · rw [List.lookup_cons, beq_eq_false_iff_ne.mpr hd] at hr
    exact h d r hr

/-- What `classify` leaves of a memo. -/
structure Answered (hdr : Headers α) (t : ComponentTable α) (desc : α) (memo : Memo α)
    (out : Outcome α) (memo' : Memo α) : Prop where
  answer : hdr.Classified t desc out
  found : memo'.lookup desc = some out
  correct : Correct hdr t memo'
  kept : ∀ d, (memo.lookup d).isSome = true → (memo'.lookup d).isSome = true

theorem Answered.put {memo memo' : Memo α} {out : Outcome α} (hout : hdr.Classified t desc out)
    (hcorrect : Correct hdr t memo')
    (hkept : ∀ d, (memo.lookup d).isSome = true → (memo'.lookup d).isSome = true) :
    Answered hdr t desc memo out ((desc, out) :: memo') := by
  refine ⟨hout, List.lookup_cons_self, hcorrect.cons hout, fun d hd => ?_⟩
  by_cases heq : d = desc
  · subst heq
    rw [List.lookup_cons_self]
    rfl
  · rw [List.lookup_cons, beq_eq_false_iff_ne.mpr heq]
    exact hkept d hd

/-- From a stack of declared classes below it, a class gets the answer of its chain. -/
theorem classify_spec (hclear : ¬hdr.RootedCycle t) {rounds : Nat} {memo : Memo α}
    {stack : List α} (hmemo : Correct hdr t memo)
    (hdesc : (hdr.entries.lookup desc).isSome = true) (hin : desc ∈ stack)
    (hup : ∀ s ∈ stack, ∃ n, hdr.ancestor t n s = some desc)
    (hdeclared : ∀ s ∈ stack, (hdr.entries.lookup s).isSome = true) (hnodup : stack.Nodup)
    (hrounds : hdr.entries.length + 2 ≤ rounds + stack.length) :
    ∃ out memo', hdr.classify t rounds memo desc stack = some (out, memo') ∧
      Answered hdr t desc memo out memo' := by
  induction rounds generalizing memo desc stack with
  | zero =>
    have hsub : stack ⊆ hdr.entries.map Prod.fst := by
      intro s hs
      exact List.mem_map.mpr (Association.lookup_isSome_iff.mp (hdeclared s hs))
    have hle := (List.subperm_of_subset hnodup hsub).length_le
    rw [List.length_map] at hle
    omega
  | succ rounds ih =>
    unfold classify
    cases hlookup : memo.lookup desc with
    | some out => exact ⟨out, memo, rfl, hmemo desc out hlookup, hlookup, hmemo, fun _ hd => hd⟩
    | none =>
      obtain ⟨h, hh⟩ := Option.isSome_iff_exists.mp hdesc
      simp only [hh]
      -- the walk ends here
      have hends (hnext : hdr.next t desc = none) : hdr.Classified t desc
          (hdr.fallback t desc (ends t h)) :=
        .last hh hnext
      cases hsuper : h.superclass with
      | none =>
        have hnext : hdr.next t desc = none := by
          rw [next, hh, Option.bind_some, hsuper]
          rfl
        have hout := hends hnext
        rw [ends, hsuper] at hout
        exact ⟨_, _, rfl, .put hout hmemo fun _ hd => hd⟩
      | some q =>
        cases hbase : t.bases.lookup q with
        | some b =>
          have hnext : hdr.next t desc = none := by
            rw [next, hh, Option.bind_some, hsuper, Option.bind_some, hbase,
              if_neg (fun hcond => nomatch hcond.1)]
          have hout := hends hnext
          simp only [ends, hsuper, hbase] at hout
          simp only [hbase]
          exact ⟨_, _, rfl, .put hout hmemo fun _ hd => hd⟩
        | none =>
          simp only [hbase]
          cases hq : (hdr.entries.lookup q).isSome with
          | false =>
            have hnext : hdr.next t desc = none := by
              rw [next, hh, Option.bind_some, hsuper, Option.bind_some, hq,
                if_neg (fun hcond => Bool.false_ne_true hcond.2)]
            have hout := hends hnext
            simp only [ends, hsuper, hbase] at hout
            simp only [Bool.false_eq_true, if_false]
            split
            · rename_i hsdk
              rw [if_pos hsdk] at hout
              exact ⟨_, _, rfl, .put hout hmemo fun _ hd => hd⟩
            · rename_i hsdk
              rw [if_neg hsdk] at hout
              exact ⟨_, _, rfl, .put hout hmemo fun _ hd => hd⟩
          | true =>
            have hnext : hdr.next t desc = some q :=
              next_eq_some.mpr ⟨h, hh, hsuper, hbase, hq⟩
            simp only [if_true]
            split
            · -- the walk came round
              rename_i hstack
              obtain ⟨n, hn⟩ := hup q hstack
              have hcycle : hdr.OnCycle t desc :=
                ⟨n + 1, Nat.succ_pos n, by rw [ancestor_succ_of_next hnext, hn]⟩
              exact ⟨_, _, rfl, .put (.cycle hcycle) hmemo fun _ hd => hd⟩
            · rename_i hstack
              have hne : q ≠ desc := fun heq => hstack (heq ▸ hin)
              obtain ⟨r, memo', hrun, hr⟩ := ih hmemo hq List.mem_cons_self
                (fun s hs => by
                  obtain rfl | hs := List.mem_cons.mp hs
                  · exact ⟨0, rfl⟩
                  · obtain ⟨n, hn⟩ := hup s hs
                    refine ⟨n + 1, ?_⟩
                    rw [ancestor_add, hn, Option.bind_some, ancestor_succ_of_next hnext]
                    rfl)
                (fun s hs => by
                  obtain rfl | hs := List.mem_cons.mp hs
                  · exact hq
                  · exact hdeclared s hs)
                (List.nodup_cons.mpr ⟨hstack, hnodup⟩)
                (by rw [List.length_cons]; omega)
              rw [hrun]
              have hout : hdr.Classified t desc (hdr.fallback t desc (r.extend q)) := by
                by_cases hcycle : hdr.OnCycle t desc
                · have hself : hdr.next t desc ≠ some desc := by
                    rw [hnext]
                    exact fun heq => hne (Option.some.inj heq)
                  have hnone := fallback_of_cycle hclear (hcycle.step hnext)
                    (hcycle.next_ne hnext hne)
                  have hr' := hr.answer.unique (.cycle (hcycle.step hnext))
                  rw [hr', hnone]
                  exact .cycle hcycle
                · exact .chain hcycle hnext hr.answer
              exact ⟨_, _, rfl, .put hout hr.correct hr.kept⟩

/-- Over a whole order every class gets the answer of its chain. -/
theorem classifyAll_spec (hclear : ¬hdr.RootedCycle t) {order : List α} {memo : Memo α}
    (hmemo : Correct hdr t memo)
    (horder : ∀ d ∈ order, (hdr.entries.lookup d).isSome = true) :
    ∃ memo', hdr.classifyAll t order memo = some memo' ∧ Correct hdr t memo' ∧
      (∀ d, (memo.lookup d).isSome = true → (memo'.lookup d).isSome = true) ∧
      ∀ d ∈ order, (memo'.lookup d).isSome = true := by
  induction order generalizing memo with
  | nil => exact ⟨memo, rfl, hmemo, fun _ hd => hd, fun _ hd => nomatch hd⟩
  | cons d order ih =>
    have hd := horder d List.mem_cons_self
    obtain ⟨out, memo₁, hrun, hanswer⟩ : ∃ out memo₁,
        hdr.classify t (hdr.entries.length + 1) memo d [d] = some (out, memo₁) ∧
          Answered hdr t d memo out memo₁ := classify_spec hclear hmemo hd List.mem_cons_self
      (fun s hs => ⟨0, by rw [List.mem_singleton.mp hs]; rfl⟩)
      (fun s hs => List.mem_singleton.mp hs ▸ hd) (List.nodup_singleton d)
      (by rw [List.length_singleton])
    obtain ⟨memo', hrest, hcorrect, hkept, hall⟩ := ih hanswer.correct
      fun d' hd' => horder d' (List.mem_cons_of_mem _ hd')
    refine ⟨memo', ?_, hcorrect, fun d' hd' => hkept d' (hanswer.kept d' hd'), fun d' hd' => ?_⟩
    · rw [classifyAll, hrun]
      exact hrest
    · obtain rfl | hd' := List.mem_cons.mp hd'
      · exact hkept d' (by rw [hanswer.found]; rfl)
      · exact hall d' hd'

/-! The answers along a path whose last superclass is on the stack. -/

/-- The answer of the first class of a path that ends where the walk comes round. -/
def pathAnswer (hdr : Headers α) (t : ComponentTable α) : List α → Outcome α
  | [] => .none
  | [desc] => hdr.fallback t desc .none
  | desc :: p :: rest => hdr.fallback t desc ((pathAnswer hdr t (p :: rest)).extend p)

def pathMemo (hdr : Headers α) (t : ComponentTable α) : List α → Memo α
  | [] => []
  | desc :: rest => (desc, pathAnswer hdr t (desc :: rest)) :: pathMemo hdr t rest

theorem lookup_pathMemo (pre : List α) {rest : List α} (hnodup : (pre ++ desc :: rest).Nodup) :
    (pathMemo hdr t (pre ++ desc :: rest)).lookup desc =
      some (pathAnswer hdr t (desc :: rest)) := by
  induction pre with
  | nil => exact List.lookup_cons_self
  | cons d pre ih =>
    obtain ⟨hd, hrest⟩ := List.nodup_cons.mp hnodup
    have hne : desc ≠ d := by
      rintro rfl
      exact hd (by simp)
    rw [List.cons_append, pathMemo, List.lookup_cons, beq_eq_false_iff_ne.mpr hne]
    exact ih hrest

/-- The superclass of one class of a path is the next one. -/
def Climbs (hdr : Headers α) (t : ComponentTable α) (path : List α) : Prop :=
  List.IsChain (fun d p => hdr.next t d = some p) path

/-- One walk along a path, with no answer on it yet. -/
theorem classify_path {rounds : Nat} {rest stack : List α} (hpath : Climbs hdr t (desc :: rest))
    (hend : ∃ last p, (desc :: rest).getLast? = some last ∧ hdr.next t last = some p ∧ p ∈ stack)
    (hnodup : (desc :: rest).Nodup) (hapart : ∀ d ∈ rest, d ∉ stack)
    (hrounds : rest.length < rounds) :
    hdr.classify t rounds [] desc stack =
      some (pathAnswer hdr t (desc :: rest), pathMemo hdr t (desc :: rest)) := by
  induction rest generalizing desc stack rounds with
  | nil =>
    obtain ⟨last, p, hlast, hnext, hin⟩ := hend
    obtain rfl : desc = last := Option.some.inj hlast
    obtain ⟨h, hh, hsuper, hbase, hp⟩ := next_eq_some.mp hnext
    obtain ⟨rounds, rfl⟩ : ∃ m, rounds = m + 1 := ⟨rounds - 1, by omega⟩
    unfold classify
    simp only [List.lookup_nil, hh, hsuper, hbase, hp, hin, if_true]
    rfl
  | cons q rest ih =>
    obtain ⟨last, p, hlast, hlastNext, hin⟩ := hend
    obtain ⟨hnext, hpath⟩ := List.isChain_cons_cons.mp hpath
    obtain ⟨h, hh, hsuper, hbase, hq⟩ := next_eq_some.mp hnext
    obtain ⟨rounds, rfl⟩ : ∃ m, rounds = m + 1 := ⟨rounds - 1, by omega⟩
    obtain ⟨-, hnodup⟩ := List.nodup_cons.mp hnodup
    obtain ⟨hqrest, -⟩ := List.nodup_cons.mp hnodup
    have hstack := hapart q List.mem_cons_self
    rw [List.getLast?_cons_cons] at hlast
    have hrun := ih hpath
      ⟨last, p, hlast, hlastNext, List.mem_cons_of_mem _ hin⟩ hnodup
      (fun d hd hmem => by
        obtain rfl | hmem := List.mem_cons.mp hmem
        · exact hqrest hd
        · exact hapart d (List.mem_cons_of_mem _ hd) hmem)
      (show rest.length < rounds by rw [List.length_cons] at hrounds; omega)
    unfold classify
    simp only [List.lookup_nil, hh, hsuper, hbase, hq, hstack, if_true, if_false, hrun]
    rfl

/-- An answer of a memo stays. -/
theorem classify_kept {rounds : Nat} {memo memo' : Memo α} {stack : List α} {out r : Outcome α}
    {d : α} (hrun : hdr.classify t rounds memo desc stack = some (out, memo'))
    (hd : memo.lookup d = some r) : memo'.lookup d = some r := by
  induction rounds generalizing memo memo' desc stack out with
  | zero => cases hrun
  | succ rounds ih =>
    unfold classify at hrun
    cases hlookup : memo.lookup desc with
    | some out' =>
      rw [hlookup] at hrun
      obtain ⟨rfl, rfl⟩ := Prod.mk.inj (Option.some.inj hrun)
      exact hd
    | none =>
      have hne : d ≠ desc := by
        rintro rfl
        rw [hlookup] at hd
        cases hd
      simp only [hlookup] at hrun
      cases hh : hdr.entries.lookup desc with
      | none =>
        rw [hh] at hrun
        cases hrun
      | some h =>
        simp only [hh] at hrun
        obtain ⟨⟨out₁, memo₁⟩, hwalked, hput⟩ := Option.map_eq_some_iff.mp hrun
        obtain ⟨-, rfl⟩ := Prod.mk.inj hput
        rw [List.lookup_cons, beq_eq_false_iff_ne.mpr hne]
        -- only the recursive call changes the memo before the answer is put
        split at hwalked
        · obtain ⟨-, rfl⟩ := Prod.mk.inj (Option.some.inj hwalked)
          exact hd
        split at hwalked
        · obtain ⟨-, rfl⟩ := Prod.mk.inj (Option.some.inj hwalked)
          exact hd
        split at hwalked
        · split at hwalked
          · obtain ⟨-, rfl⟩ := Prod.mk.inj (Option.some.inj hwalked)
            exact hd
          · obtain ⟨⟨r', memo₂⟩, hrec, heq⟩ := Option.map_eq_some_iff.mp hwalked
            obtain ⟨-, rfl⟩ := Prod.mk.inj heq
            exact ih hrec hd
        · split at hwalked <;>
          · obtain ⟨-, rfl⟩ := Prod.mk.inj (Option.some.inj hwalked)
            exact hd

theorem classifyAll_kept {order : List α} {memo memo' : Memo α} {d : α} {r : Outcome α}
    (hrun : hdr.classifyAll t order memo = some memo') (hd : memo.lookup d = some r) :
    memo'.lookup d = some r := by
  induction order generalizing memo with
  | nil =>
    obtain rfl := Option.some.inj hrun
    exact hd
  | cons d' order ih =>
    rw [classifyAll, Option.bind_eq_bind, Option.bind_eq_some_iff] at hrun
    obtain ⟨⟨out, memo₁⟩, hfirst, hrest⟩ := hrun
    exact ih hrest (classify_kept hfirst hd)

/-- An order that starts with a class on a path that comes round gives the classes of
the path the answers along it. -/
theorem classifyAll_path {rest : List α} (hpath : Climbs hdr t (desc :: rest))
    (hend : ∃ last, (desc :: rest).getLast? = some last ∧ hdr.next t last = some desc)
    (hnodup : (desc :: rest).Nodup)
    (hdeclared : ∀ d ∈ desc :: rest, (hdr.entries.lookup d).isSome = true) :
    ∃ order, hdr.Order order ∧ ∀ memo', hdr.classifyAll t order [] = some memo' →
      ∀ d r, (pathMemo hdr t (desc :: rest)).lookup d = some r → memo'.lookup d = some r := by
  have hkeys (d : α) (hd : d ∈ desc :: rest) : d ∈ hdr.entries.map Prod.fst :=
    List.mem_map.mpr (Association.lookup_isSome_iff.mp (hdeclared d hd))
  have hlen := (List.subperm_of_subset hnodup hkeys).length_le
  rw [List.length_map, List.length_cons] at hlen
  obtain ⟨last, hlast, hnext⟩ := hend
  obtain ⟨hfresh, -⟩ := List.nodup_cons.mp hnodup
  refine ⟨desc :: (hdr.entries.map Prod.fst).erase desc,
    (List.perm_cons_erase (hkeys desc List.mem_cons_self)).symm, fun memo' hrun d r hd => ?_⟩
  have hfirst : hdr.classify t (hdr.entries.length + 1) [] desc [desc] =
      some (pathAnswer hdr t (desc :: rest), pathMemo hdr t (desc :: rest)) :=
    classify_path hpath ⟨last, desc, hlast, hnext, List.mem_singleton_self desc⟩ hnodup
      (fun d hd hmem => hfresh (List.mem_singleton.mp hmem ▸ hd)) (by omega)
  rw [classifyAll, hfirst] at hrun
  exact classifyAll_kept hrun hd

/-! The classes of a cycle as a path. -/

theorem exists_ancestor {m n : Nat} (h : hdr.ancestor t n desc = some p) (hm : m ≤ n) :
    ∃ q, hdr.ancestor t m desc = some q ∧ hdr.ancestor t (n - m) q = some p := by
  obtain ⟨k, rfl⟩ := Nat.exists_eq_add_of_le hm
  rw [ancestor_add] at h
  obtain ⟨q, hq, hrest⟩ := Option.bind_eq_some_iff.mp h
  exact ⟨q, hq, by rwa [Nat.add_sub_cancel_left]⟩

/-- The `n` classes from `desc` up. -/
def climb (hdr : Headers α) (t : ComponentTable α) : Nat → α → List α
  | 0, _ => []
  | n + 1, desc => desc :: ((hdr.next t desc).map (climb hdr t n)).getD []

theorem climb_succ (hnext : hdr.next t desc = some p) (n : Nat) :
    climb hdr t (n + 1) desc = desc :: climb hdr t n p := by
  rw [climb, hnext]
  rfl

theorem mem_climb {n : Nat} (h : (hdr.ancestor t n desc).isSome = true) :
    p ∈ climb hdr t n desc → ∃ i < n, hdr.ancestor t i desc = some p := by
  induction n generalizing desc with
  | zero => exact fun hp => nomatch hp
  | succ n ih =>
    obtain ⟨top, htop⟩ := Option.isSome_iff_exists.mp h
    obtain ⟨q, hq, -⟩ := Option.bind_eq_some_iff.mp htop
    rw [climb_succ hq]
    rw [ancestor_succ_of_next hq] at htop
    intro hp
    obtain rfl | hp := List.mem_cons.mp hp
    · exact ⟨0, Nat.succ_pos n, rfl⟩
    · obtain ⟨i, hi, hip⟩ := ih (Option.isSome_iff_exists.mpr ⟨top, htop⟩) hp
      exact ⟨i + 1, Nat.succ_lt_succ hi, by rw [ancestor_succ_of_next hq, hip]⟩

/-- The path up to the class below one that is `n + 1` up. -/
theorem climb_spec {n : Nat} (h : hdr.ancestor t (n + 1) desc = some p) :
    Climbs hdr t (climb hdr t (n + 1) desc) ∧
      ∃ last, (climb hdr t (n + 1) desc).getLast? = some last ∧ hdr.next t last = some p := by
  induction n generalizing desc with
  | zero =>
    obtain ⟨q, hq, hqp⟩ := Option.bind_eq_some_iff.mp h
    obtain rfl : q = p := Option.some.inj hqp
    rw [climb_succ hq]
    exact ⟨List.isChain_singleton _, desc, rfl, hq⟩
  | succ n ih =>
    obtain ⟨q, hq, hqp⟩ := Option.bind_eq_some_iff.mp h
    obtain ⟨hchain, last, hlast, hnext⟩ := ih hqp
    obtain ⟨q', hq', -⟩ := Option.bind_eq_some_iff.mp hqp
    rw [climb_succ hq, climb_succ hq']
    rw [climb_succ hq'] at hchain hlast
    refine ⟨List.isChain_cons_cons.mpr ⟨hq, hchain⟩, last, ?_, hnext⟩
    rw [List.getLast?_cons_cons]
    exact hlast

theorem climb_nodup {n : Nat} (h : (hdr.ancestor t n desc).isSome = true)
    (hdistinct : ∀ i j, i < j → j < n → hdr.ancestor t i desc ≠ hdr.ancestor t j desc) :
    (climb hdr t n desc).Nodup := by
  induction n generalizing desc with
  | zero => exact List.nodup_nil
  | succ n ih =>
    obtain ⟨top, htop⟩ := Option.isSome_iff_exists.mp h
    obtain ⟨q, hq, hqtop⟩ := Option.bind_eq_some_iff.mp htop
    have hsome := Option.isSome_iff_exists.mpr ⟨top, hqtop⟩
    rw [climb_succ hq]
    refine List.nodup_cons.mpr ⟨fun hmem => ?_, ih hsome fun i j hij hj heq => ?_⟩
    · obtain ⟨i, hi, hup⟩ := mem_climb hsome hmem
      refine hdistinct 0 (i + 1) (Nat.succ_pos i) (Nat.succ_lt_succ hi) ?_
      rw [ancestor_succ_of_next hq, hup]
      rfl
    · refine hdistinct (i + 1) (j + 1) (Nat.succ_lt_succ hij) (Nat.succ_lt_succ hj) ?_
      rw [ancestor_succ_of_next hq, ancestor_succ_of_next hq, heq]

/-- A class on a cycle heads a path of distinct classes that comes round to it. -/
theorem OnCycle.exists_path (h : hdr.OnCycle t desc) : ∃ rest, Climbs hdr t (desc :: rest) ∧
    (desc :: rest).Nodup ∧
      ∃ last, (desc :: rest).getLast? = some last ∧ hdr.next t last = some desc := by
  classical
  obtain ⟨hpos, hround⟩ := Nat.find_spec h
  have hleast := fun m hm => Nat.find_min h (m := m) hm
  generalize Nat.find h = n at hpos hround hleast
  obtain ⟨m, rfl⟩ : ∃ m, n = m + 1 := ⟨n - 1, by omega⟩
  obtain ⟨q, hq, -⟩ := Option.bind_eq_some_iff.mp hround
  obtain ⟨hchain, hlast⟩ := climb_spec hround
  have hnodup : (climb hdr t (m + 1) desc).Nodup := by
    refine climb_nodup (by rw [hround]; rfl) fun i j hij hj heq => ?_
    -- two equal ancestors would close the cycle earlier
    obtain ⟨a, ha, hrest⟩ := exists_ancestor hround (Nat.le_of_lt hj)
    refine hleast (i + (m + 1 - j)) (by omega) ⟨by omega, ?_⟩
    rw [ancestor_add, heq, ha, Option.bind_some, hrest]
  rw [climb_succ hq] at hchain hlast hnodup
  exact ⟨_, hchain, hnodup, hlast⟩

theorem declared_of_climbs {path : List α} (h : Climbs hdr t path) {last : α}
    (hlast : path.getLast? = some last) (hnext : (hdr.next t last).isSome = true) :
    ∀ d ∈ path, (hdr.entries.lookup d).isSome = true := by
  have hdeclared (d : α) (hd : (hdr.next t d).isSome = true) :
      (hdr.entries.lookup d).isSome = true := by
    obtain ⟨q, hq⟩ := Option.isSome_iff_exists.mp hd
    obtain ⟨h, hh, -⟩ := next_eq_some.mp hq
    rw [hh]
    rfl
  induction path with
  | nil => exact fun d hd => nomatch hd
  | cons d path ih =>
    intro e he
    cases path with
    | nil =>
      obtain rfl : d = last := Option.some.inj hlast
      rw [List.mem_singleton.mp he]
      exact hdeclared d hnext
    | cons q path =>
      obtain ⟨hd, hrest⟩ := List.isChain_cons_cons.mp h
      rw [List.getLast?_cons_cons] at hlast
      obtain rfl | he := List.mem_cons.mp he
      · exact hdeclared e (by rw [hd]; rfl)
      · exact ih hrest hlast e he

/-! A class below a rooted one on a cycle. -/

theorem ancestor_of_climbs {path : List α} {top : α} (h : Climbs hdr t (desc :: path))
    (htop : (desc :: path).getLast? = some top) : ∃ n, hdr.ancestor t n desc = some top := by
  induction path generalizing desc with
  | nil => exact ⟨0, htop⟩
  | cons q path ih =>
    obtain ⟨hnext, hrest⟩ := List.isChain_cons_cons.mp h
    rw [List.getLast?_cons_cons] at htop
    obtain ⟨n, hn⟩ := ih hrest htop
    exact ⟨n + 1, by rw [ancestor_succ_of_next hnext, hn]⟩

/-- Entered at the rooted class `x`, the walk leaves the class `y` below it its own
fallback; entered elsewhere, it gives `y` the path of `x`. -/
theorem path_of_below {x y : α} {path pre : List α} (hsame : hdr.OrderIndependent t)
    (hclimbs : Climbs hdr t (x :: (pre ++ [y]))) (hnodup : (x :: (pre ++ [y])).Nodup)
    (hnext : hdr.next t y = some x) (hpath : (hdr.ifacePaths t).lookup x = some path) :
    (hdr.ifacePaths t).lookup y = some (x :: path) := by
  have hlast : (x :: (pre ++ [y])).getLast? = some y := by
    rw [← List.cons_append, List.getLast?_concat]
  have hdeclared := declared_of_climbs hclimbs hlast (by rw [hnext]; rfl)
  obtain ⟨order, horder, hmemo⟩ := classifyAll_path hclimbs ⟨y, hlast, hnext⟩ hnodup hdeclared
  -- the same cycle, entered one class later
  obtain ⟨z, rest, hrest⟩ : ∃ z rest, pre ++ [y] = z :: rest := by
    cases pre with
    | nil => exact ⟨y, [], rfl⟩
    | cons z pre => exact ⟨z, pre ++ [y], rfl⟩
  have hturn : pre ++ [y, x] = z :: (rest ++ [x]) := by
    rw [← List.cons_append, ← hrest, List.append_assoc]
    rfl
  have hstart : hdr.next t x = some z := by
    rw [hrest] at hclimbs
    exact (List.isChain_cons_cons.mp hclimbs).1
  have hclimbs' : Climbs hdr t (z :: (rest ++ [x])) := by
    have htail : Climbs hdr t (z :: rest) := by
      rw [hrest] at hclimbs
      exact (List.isChain_cons_cons.mp hclimbs).2
    rw [← List.cons_append]
    refine List.isChain_append.mpr ⟨htail, List.isChain_singleton _, fun d hd p hp => ?_⟩
    rw [← hrest, List.getLast?_concat] at hd
    obtain rfl := Option.some.inj hd
    obtain rfl := Option.some.inj hp
    exact hnext
  have hlast' : (z :: (rest ++ [x])).getLast? = some x := by
    rw [← List.cons_append, List.getLast?_concat]
  have hnodup' : (z :: (rest ++ [x])).Nodup := by
    rw [← List.cons_append, ← hrest]
    exact (List.perm_append_singleton x (pre ++ [y])).nodup_iff.mpr hnodup
  have hdeclared' := declared_of_climbs hclimbs' hlast' (by rw [hstart]; rfl)
  obtain ⟨order', horder', hmemo'⟩ :=
    classifyAll_path hclimbs' ⟨x, hlast', hstart⟩ hnodup' hdeclared'
  obtain ⟨memo, memo', hrun, hrun', hagree⟩ := hsame order order' horder horder'
  have hown := hmemo memo hrun y _ (lookup_pathMemo (x :: pre) hnodup)
  have hround := hmemo' memo' hrun' y (pathAnswer hdr t [y, x]) (by
    rw [← hturn]
    exact lookup_pathMemo pre (hturn ▸ hnodup'))
  have heq : hdr.fallback t y .none =
      hdr.fallback t y ((hdr.fallback t x .none).extend x) := by
    rw [hagree, hround] at hown
    exact (Option.some.inj hown).symm
  obtain ⟨root, kind, hx⟩ := fallback_of_path hpath
  rw [hx] at heq
  change hdr.fallback t y .none = .resolved root kind (x :: path) at heq
  by_cases hy : ∃ own, (hdr.ifacePaths t).lookup y = some own
  · obtain ⟨own, hown⟩ := hy
    obtain ⟨root', kind', hy⟩ := fallback_of_path hown
    rw [heq] at hy
    obtain ⟨-, -, rfl⟩ := Outcome.resolved.inj hy
    exact hown
  · rw [fallback_of_no_path hy] at heq
    cases heq

/-- If the order is of no matter, the paths on a rooted cycle have no bound. -/
theorem long_path (hsame : hdr.OrderIndependent t) (hrooted : hdr.RootedCycle t) (k : Nat) :
    ∃ x path, hdr.OnCycle t x ∧ hdr.next t x ≠ some x ∧
      (hdr.ifacePaths t).lookup x = some path ∧ k ≤ path.length := by
  induction k with
  | zero =>
    obtain ⟨x, path, hcycle, hne, hroot, hpath⟩ := hrooted
    obtain ⟨own, hown⟩ := exists_ifacePath.mpr ⟨hroot, path, hpath⟩
    exact ⟨x, own, hcycle, hne, hown, Nat.zero_le _⟩
  | succ k ih =>
    obtain ⟨x, path, hcycle, hne, hpath, hk⟩ := ih
    obtain ⟨rest, hclimbs, hnodup, y, hlast, hnext⟩ := hcycle.exists_path
    obtain rfl | ⟨pre, y', rfl⟩ := List.eq_nil_or_concat' rest
    · obtain rfl : x = y := Option.some.inj hlast
      exact absurd hnext hne
    rw [← List.cons_append, List.getLast?_concat] at hlast
    obtain rfl := Option.some.inj hlast
    have hxy : x ≠ y' := by
      rintro rfl
      exact (List.nodup_cons.mp hnodup).1 (by simp)
    have htop : (x :: (pre ++ [y'])).getLast? = some y' := by
      rw [← List.cons_append, List.getLast?_concat]
    obtain ⟨n, hn⟩ := ancestor_of_climbs hclimbs htop
    refine ⟨y', x :: path, ⟨n + 1, Nat.succ_pos n, ?_⟩, ?_,
      path_of_below hsame hclimbs hnodup hnext hpath, Nat.succ_le_succ hk⟩
    · rw [ancestor_succ_of_next hnext, hn]
    · rw [hnext]
      exact fun heq => hxy (Option.some.inj heq)

theorem clear_of_orderIndependent (hsame : hdr.OrderIndependent t) : ¬hdr.RootedCycle t := by
  intro hrooted
  obtain ⟨x, path, -, -, hpath, hlong⟩ := long_path hsame hrooted
    ((((hdr.ifacePaths t).map fun e => e.2.length).max?).getD 0 + 1)
  have hin := List.mem_map_of_mem (f := fun e => e.2.length) (Association.mem_of_lookup hpath)
  have hle : path.length ≤ (((hdr.ifacePaths t).map fun e => e.2.length).max?).getD 0 :=
    List.le_max?_getD_of_mem hin
  omega

theorem Classified.declared {out : Outcome α} (h : hdr.Classified t desc out) :
    (hdr.entries.lookup desc).isSome = true := by
  have hon {q : α} (hnext : hdr.next t desc = some q) :
      (hdr.entries.lookup desc).isSome = true := by
    obtain ⟨h, hh, -⟩ := next_eq_some.mp hnext
    rw [hh]
    rfl
  cases h with
  | cycle hcycle =>
    obtain ⟨q, hq⟩ := hcycle.next_isSome
    exact hon hq
  | chain _ hnext _ => exact hon hnext
  | last hdesc _ =>
    rw [hdesc]
    rfl

theorem Correct.lookup_undeclared {memo : Memo α} (h : Correct hdr t memo)
    (hdesc : ¬(hdr.entries.lookup desc).isSome = true) : memo.lookup desc = none :=
  Option.eq_none_iff_forall_not_mem.mpr fun out hout => hdesc (h desc out hout).declared

theorem orderIndependent_of_clear (hclear : ¬hdr.RootedCycle t) : hdr.OrderIndependent t := by
  intro order order' horder horder'
  have hnil : Correct hdr t [] := fun _ _ h => nomatch h
  have hkeys {o : List α} (ho : hdr.Order o) (d : α) :
      d ∈ o ↔ (hdr.entries.lookup d).isSome = true := by
    rw [ho.mem_iff, Association.lookup_isSome_iff, List.mem_map]
  obtain ⟨memo, hrun, hcorrect, -, hall⟩ :=
    classifyAll_spec hclear hnil fun d hd => (hkeys horder d).mp hd
  obtain ⟨memo', hrun', hcorrect', -, hall'⟩ :=
    classifyAll_spec hclear hnil fun d hd => (hkeys horder' d).mp hd
  refine ⟨memo, memo', hrun, hrun', fun d => ?_⟩
  by_cases hd : (hdr.entries.lookup d).isSome = true
  · obtain ⟨out, hout⟩ := Option.isSome_iff_exists.mp (hall d ((hkeys horder d).mpr hd))
    obtain ⟨out', hout'⟩ := Option.isSome_iff_exists.mp (hall' d ((hkeys horder' d).mpr hd))
    rw [hout, hout', (hcorrect d out hout).unique (hcorrect' d out' hout')]
  · rw [hcorrect.lookup_undeclared hd, hcorrect'.lookup_undeclared hd]

end Dexllm.Components.Headers
