import Dexllm.Permissions.Spellings
import Dexllm.Lib.Association

/-!
The types `_parse_api` reads out of a table entry in fully qualified Java names.
They are those of the proto where no class has the name of a Kotlin alias.
-/

namespace Dexllm.Permissions

variable {tables : CharTables}

/-! One parameter of a table entry. -/

/-- A character of a qualified name. -/
def inName (c : Char) : Bool := inIdentifier c || c = '.'

/-- A name as a table entry spells it. -/
structure Spelled (tables : CharTables) (t : Text) : Prop where
  nonempty : t ≠ []
  allowed : ∀ c ∈ t, inName c = true
  apart : t.IsChain fun c d => ¬(c = '.' ∧ d = '.')
  opens : ∀ c ∈ t.head?, c ≠ '.' ∧ tables.decimal c = none
  no_modifier : t ≠ "final".toList

namespace Spelled

variable {t : Text} (h : Spelled tables t)
include h

theorem not_mem {c : Char} (hc : inName c = false) : c ∉ t := by
  intro hin
  rw [h.allowed c hin] at hc
  cases hc

theorem not_space {c : Char} (hc : c ∈ t) : isSpace c = false := by
  have hname := h.allowed c hc
  cases hspace : isSpace c with
  | false => rfl
  | true =>
    have hdot : c ≠ '.' := by
      rintro rfl
      exact absurd hspace (by decide)
    simp [inName, inIdentifier, hspace, hdot] at hname

end Spelled

theorem apart_of_not_mem {t : Text} (h : '.' ∉ t) :
    t.IsChain fun c d => ¬(c = '.' ∧ d = '.') := by
  induction t with
  | nil => exact List.isChain_nil
  | cons c t ih =>
    obtain ⟨hc, ht⟩ := not_or.mp (List.mem_cons.not.mp h)
    cases t with
    | nil => exact List.isChain_singleton c
    | cons d t => exact List.isChain_cons_cons.mpr ⟨fun heq => hc heq.1.symm, ih ht⟩

theorem Identifier.spelled (i : Identifier tables) : Spelled tables i.text where
  nonempty := i.nonempty
  allowed c hc := by
    rw [inName, i.allowed c hc]
    rfl
  apart := apart_of_not_mem (i.not_mem (by decide))
  opens c hc := by
    refine ⟨?_, i.start c hc⟩
    rintro rfl
    exact i.not_mem (by decide) (List.mem_of_mem_head? hc)
  no_modifier := i.no_modifier

/-- A qualified name under one more name. -/
theorem Spelled.under {t : Text} (h : Spelled tables t) (i : Identifier tables) :
    Spelled tables (i.text ++ ['.'] ++ t) := by
  have hi := i.spelled
  have hdot : '.' ∉ i.text := i.not_mem (by decide)
  refine ⟨?_, fun c hc => ?_, ?_, fun c hc => ?_, ?_⟩
  · simp
  · rw [List.mem_append, List.mem_append, List.mem_singleton] at hc
    obtain (hc | rfl) | hc := hc
    · exact hi.allowed c hc
    · decide
    · exact h.allowed c hc
  · refine List.isChain_append.mpr ⟨List.isChain_append.mpr
      ⟨hi.apart, List.isChain_singleton _, fun c hc d _ heq => ?_⟩, h.apart, fun c _ d hd heq => ?_⟩
    · exact hdot (heq.1 ▸ List.mem_of_getLast? hc)
    · exact (h.opens d hd).1 heq.2
  · obtain ⟨d, t', ht'⟩ := List.exists_cons_of_ne_nil i.nonempty
    rw [ht'] at hc
    refine hi.opens c ?_
    rw [ht']
    exact hc
  · intro heq
    have hin : '.' ∈ i.text ++ ['.'] ++ t := by simp
    rw [heq] at hin
    exact absurd hin (by decide)

theorem ClassName.spelled (c : ClassName tables) : Spelled tables c.spelling := by
  unfold ClassName.spelling
  induction c.packages ++ c.outers with
  | nil => exact c.own.spelled
  | cons i names ih =>
    rw [List.flatMap_cons, List.append_assoc]
    exact ih.under i

theorem Prim.spelled (p : Prim) : Spelled tables (dalvikPrim p.code) where
  nonempty := by cases p <;> decide
  allowed := List.all_eq_true.mp (by cases p <;> decide)
  apart := apart_of_not_mem (by cases p <;> decide)
  opens c hc := by
    have hlower : ((dalvikPrim p.code).head?.all fun c => c ≠ '.' && c.isLower) = true := by
      cases p <;> decide
    rw [Option.mem_def.mp hc, Option.all_some, Bool.and_eq_true, decide_eq_true_eq] at hlower
    exact ⟨hlower.1, tables.lower_not_decimal c hlower.2⟩
  no_modifier := by cases p <;> decide

theorem Element.spelled (e : Element tables) : Spelled tables e.spelling := by
  cases e with
  | prim p => exact p.spelled
  | cls c => exact c.spelled

theorem simpleName_element (e : Element tables) : simpleName e.spelling = e.simple := by
  cases e with
  | prim p =>
    change simpleName (dalvikPrim p.code) = dalvikPrim p.code
    cases p <;> decide
  | cls c => exact simpleName_spelling c

theorem eraseGenerics_eq {t : Text} (h : '<' ∉ t) (rounds : Nat) : eraseGenerics rounds t = t := by
  induction rounds generalizing t with
  | zero => rfl
  | succ rounds ih =>
    cases t with
    | nil => rfl
    | cons c t =>
      obtain ⟨hc, ht⟩ := not_or.mp (List.mem_cons.not.mp h)
      rw [eraseGenerics, if_neg fun hcond => hc hcond.1.symm, ih ht]

theorem countBrackets_append {t : Text} (h : '[' ∉ t) (dims : Nat) :
    countBrackets (t ++ brackets dims) = dims := by
  induction t with
  | nil =>
    rw [List.nil_append]
    induction dims with
    | zero => rfl
    | succ dims ih => rw [brackets, countBrackets, ih]
  | cons c t ih =>
    obtain ⟨hc, ht⟩ := not_or.mp (List.mem_cons.not.mp h)
    rw [List.cons_append, countBrackets, ih ht]
    rintro rest rfl
    exact absurd rfl hc

theorem spaceBrackets_append {t : Text} (h : '[' ∉ t) (dims : Nat) :
    spaceBrackets (t ++ brackets dims) = t ++ List.replicate dims ' ' := by
  induction t with
  | nil =>
    rw [List.nil_append, List.nil_append]
    induction dims with
    | zero => rfl
    | succ dims ih => rw [brackets, spaceBrackets, ih, List.replicate_succ]
  | cons c t ih =>
    obtain ⟨hc, ht⟩ := not_or.mp (List.mem_cons.not.mp h)
    rw [List.cons_append, spaceBrackets, ih ht, List.cons_append]
    rintro rest rfl
    exact absurd rfl hc

theorem spaceDots_eq {t : Text} (h : t.IsChain fun c d => ¬(c = '.' ∧ d = '.')) :
    spaceDots t = t := by
  induction t with
  | nil => rfl
  | cons c t ih =>
    rw [spaceDots, ih h.tail]
    rintro rest rfl rfl
    exact (List.isChain_cons_cons.mp h).1 ⟨rfl, rfl⟩

theorem not_dots {t : Text} (h : t.IsChain fun c d => ¬(c = '.' ∧ d = '.')) :
    ¬"...".toList <:+: t := by
  rintro ⟨pre, suf, rfl⟩
  have hdots := (List.isChain_append.mp (List.isChain_append.mp h).1).2.1
  exact (List.isChain_cons_cons.mp hdots).1 ⟨rfl, rfl⟩

/-- Spaces around a text that has none at its ends are stripped. -/
theorem strip_eq {before t after : Text} (hbefore : ∀ c ∈ before, isSpace c = true)
    (hafter : ∀ c ∈ after, isSpace c = true) (hne : t ≠ [])
    (ht : ∀ c, c ∈ t.head? ∨ c ∈ t.getLast? → isSpace c = false) :
    strip (before ++ t ++ after) = t := by
  have hleft : lstrip (before ++ t ++ after) = t ++ after := by
    obtain ⟨c, t, rfl⟩ := List.exists_cons_of_ne_nil hne
    have hc := ht c (Or.inl rfl)
    unfold lstrip
    rw [List.append_assoc, List.dropWhile_append_of_pos hbefore, List.cons_append,
      List.dropWhile_cons_of_neg (by rw [hc]; exact Bool.false_ne_true)]
  have hright : rstrip isSpace (t ++ after) = t := by
    obtain ⟨t, c, rfl⟩ := (List.eq_nil_or_concat' t).resolve_left hne
    have hc := ht c (Or.inr (List.getLast?_concat))
    unfold rstrip List.rdropWhile
    rw [List.reverse_append, List.dropWhile_append_of_pos fun d hd =>
      hafter d (List.mem_reverse.mp hd), List.reverse_concat,
      List.dropWhile_cons_of_neg (by rw [hc]; exact Bool.false_ne_true), List.reverse_cons,
      List.reverse_reverse]
  rw [strip, hleft, hright]

/-- The simple name after the Kotlin aliases. -/
def Param.aliased (p : Param tables) : Text :=
  (kotlinAliases.lookup p.element.simple).getD p.element.simple ++ brackets p.dims

theorem words_name {t : Text} (h : Spelled tables t) : words t = [t] := by
  unfold words
  rw [List.splitOnP_eq_singleton fun c hc => h.not_space hc]
  simp [h.nonempty]

theorem typeText_name {t : Text} (h : Spelled tables t) : typeText t = some t := by
  unfold typeText
  have hkept : [t].filter (· ≠ "final".toList) = [t] :=
    List.filter_eq_self.mpr fun w hw => decide_eq_true (List.mem_singleton.mp hw ▸ h.no_modifier)
  rw [if_neg (h.not_mem (by decide)), words_name h, hkept]

theorem strip_name {t before after : Text} (h : Spelled tables t)
    (hbefore : ∀ c ∈ before, isSpace c = true) (hafter : ∀ c ∈ after, isSpace c = true) :
    strip (before ++ t ++ after) = t :=
  strip_eq hbefore hafter h.nonempty fun _ hc =>
    h.not_space (hc.elim List.mem_of_mem_head? List.mem_of_getLast?)

theorem not_mem_brackets {c : Char} (hopen : c ≠ '[') (hclose : c ≠ ']') (dims : Nat) :
    c ∉ brackets dims := by
  induction dims with
  | zero => exact List.not_mem_nil
  | succ dims ih => simp [brackets, hopen, hclose, ih]

namespace Param

variable (p : Param tables)

theorem not_mem_spelling {c : Char} (hc : inName c = false) (hopen : c ≠ '[') (hclose : c ≠ ']') :
    c ∉ p.spelling := by
  rw [spelling, List.mem_append, not_or]
  exact ⟨p.element.spelled.not_mem hc, not_mem_brackets hopen hclose p.dims⟩

theorem spelling_ne_nil : p.spelling ≠ [] := by
  rw [spelling, ne_eq, List.append_eq_nil_iff]
  exact fun h => p.element.spelled.nonempty h.1

theorem spelling_not_space {c : Char} (hc : c ∈ p.spelling) : isSpace c = false := by
  cases hspace : isSpace c with
  | false => rfl
  | true =>
    have hname : inName c = false := by
      have hdot : c ≠ '.' := by
        rintro rfl
        exact absurd hspace (by decide)
      simp [inName, inIdentifier, hspace, hdot]
    refine absurd hc (p.not_mem_spelling hname ?_ ?_) <;>
    · rintro rfl
      exact absurd hspace (by decide)

theorem spelling_apart : p.spelling.IsChain fun c d => ¬(c = '.' ∧ d = '.') := by
  have hdot : '.' ∉ brackets p.dims := not_mem_brackets (by decide) (by decide) p.dims
  refine List.isChain_append.mpr
    ⟨p.element.spelled.apart, apart_of_not_mem hdot, fun c _ d hd heq => ?_⟩
  exact hdot (heq.2 ▸ List.mem_of_mem_head? hd)

theorem strip_spelling {gap : Text} (hgap : ∀ c ∈ gap, isSpace c = true) :
    strip (gap ++ p.spelling) = p.spelling := by
  have h := strip_eq hgap (fun _ hc => nomatch hc : ∀ c ∈ ([] : Text), isSpace c = true)
    p.spelling_ne_nil fun _ hc =>
      p.spelling_not_space (hc.elim List.mem_of_mem_head? List.mem_of_getLast?)
  rwa [List.append_nil] at h

end Param

/-- A parameter of an entry, with the spaces before it, is read as its simple name
after the aliases. -/
theorem paramSimple_spelling (p : Param tables) {gap : Text}
    (hgap : ∀ c ∈ gap, isSpace c = true) : paramSimple (gap ++ p.spelling) = p.aliased := by
  have hname := p.element.spelled
  have hnil : ∀ c ∈ ([] : Text), isSpace c = true := fun _ hc => nomatch hc
  have hgeneric : '<' ∉ gap ++ p.spelling := by
    rw [List.mem_append, not_or]
    exact ⟨fun hc => absurd (hgap _ hc) (by decide),
      p.not_mem_spelling (by decide) (by decide) (by decide)⟩
  have hspaces : strip (spaceDots (spaceBrackets p.spelling)) = p.element.spelling := by
    have hblank : ∀ c ∈ List.replicate p.dims ' ', isSpace c = true := fun c hc => by
      rw [List.eq_of_mem_replicate hc]
      decide
    have hdot : '.' ∉ List.replicate p.dims ' ' := fun hc =>
      absurd (List.eq_of_mem_replicate hc) (by decide)
    rw [Param.spelling, spaceBrackets_append (hname.not_mem (by decide)), spaceDots_eq]
    · exact strip_name hname hnil hblank
    · refine List.isChain_append.mpr ⟨hname.apart, apart_of_not_mem hdot, fun c _ d hd heq => ?_⟩
      exact hdot (heq.2 ▸ List.mem_of_mem_head? hd)
  have hnull : strip (rstrip (· = '?') p.element.spelling) = p.element.spelling := by
    have hmark : rstrip (· = '?') p.element.spelling = p.element.spelling := by
      refine List.rdropWhile_eq_self_iff.mpr fun hl hlast => ?_
      exact hname.not_mem (by decide : inName '?' = false)
        (of_decide_eq_true hlast ▸ List.getLast_mem hl)
    have hstrip := strip_name hname hnil hnil
    rw [List.nil_append, List.append_nil] at hstrip
    rw [hmark, hstrip]
  unfold paramSimple
  rw [eraseGenerics_eq hgeneric, p.strip_spelling hgap]
  dsimp only
  rw [hspaces, typeText_name hname, if_neg (not_dots p.spelling_apart)]
  dsimp only
  rw [hnull, simpleName_element, Param.spelling, countBrackets_append (hname.not_mem (by decide))]
  rfl

/-! The parameter list. -/

theorem foldl_splitStep_plain {t : Text} (h : ∀ c ∈ t, c ∉ ['<', '(', '[', '>', ')', ']', ','])
    (parts : List Text) (cur : Text) :
    t.foldl splitStep ⟨parts, 0, cur⟩ = ⟨parts, 0, cur ++ t⟩ := by
  induction t generalizing cur with
  | nil => rw [List.append_nil]; rfl
  | cons c t ih =>
    have hc := h c List.mem_cons_self
    simp only [List.mem_cons, List.not_mem_nil, or_false, not_or] at hc
    have hstep : splitStep ⟨parts, 0, cur⟩ c = ⟨parts, 0, cur ++ [c]⟩ := by
      simp [splitStep, hc]
    rw [List.foldl_cons, hstep, ih fun d hd => h d (List.mem_cons_of_mem c hd)]
    simp

theorem foldl_splitStep_brackets (dims : Nat) (parts : List Text) (cur : Text) :
    (brackets dims).foldl splitStep ⟨parts, 0, cur⟩ = ⟨parts, 0, cur ++ brackets dims⟩ := by
  induction dims generalizing cur with
  | zero => rw [brackets, List.append_nil]; rfl
  | succ dims ih =>
    have hpair : splitStep (splitStep ⟨parts, 0, cur⟩ '[') ']' =
        ⟨parts, 0, cur ++ ['['] ++ [']']⟩ := rfl
    rw [brackets, List.foldl_cons, List.foldl_cons, hpair, ih]
    simp

/-- No comma of a spelled parameter splits it. -/
theorem foldl_splitStep_spelling (p : Param tables) (parts : List Text) (cur : Text) :
    p.spelling.foldl splitStep ⟨parts, 0, cur⟩ = ⟨parts, 0, cur ++ p.spelling⟩ := by
  have hplain : ∀ c ∈ p.element.spelling, c ∉ ['<', '(', '[', '>', ')', ']', ','] := by
    intro c hc hin
    have hname := p.element.spelled.allowed c hc
    simp only [List.mem_cons, List.not_mem_nil, or_false] at hin
    obtain rfl | rfl | rfl | rfl | rfl | rfl | rfl := hin <;> exact absurd hname (by decide)
  rw [Param.spelling, List.foldl_append, foldl_splitStep_plain hplain, foldl_splitStep_brackets,
    List.append_assoc]

/-- The spelled parameters after the first, each under its gap. -/
theorem foldl_splitStep_rest (gap : Gap) (ps : List (Param tables)) (parts : List Text)
    (cur : Text) : ∃ s : Split,
      (ps.flatMap fun q => ',' :: gap.val ++ q.spelling).foldl splitStep ⟨parts, 0, cur⟩ = s ∧
        s.parts ++ [s.cur] = parts ++ cur :: ps.map (fun q => gap.val ++ q.spelling) ∧
        (s.cur = cur ∨ ∃ q ∈ ps, s.cur = gap.val ++ q.spelling) := by
  induction ps generalizing parts cur with
  | nil => exact ⟨⟨parts, 0, cur⟩, rfl, rfl, Or.inl rfl⟩
  | cons p ps ih =>
    have hgap : ∀ c ∈ gap.val, c ∉ ['<', '(', '[', '>', ')', ']', ','] := by
      intro c hc hin
      have hspace := List.all_eq_true.mp gap.property c hc
      simp only [List.mem_cons, List.not_mem_nil, or_false] at hin
      obtain rfl | rfl | rfl | rfl | rfl | rfl | rfl := hin <;> exact absurd hspace (by decide)
    have hcomma : splitStep ⟨parts, 0, cur⟩ ',' = ⟨parts ++ [cur], 0, []⟩ := rfl
    obtain ⟨s, hs, hparts, hcur⟩ := ih (parts ++ [cur]) (gap.val ++ p.spelling)
    refine ⟨s, ?_, ?_, Or.inr ?_⟩
    · rw [List.flatMap_cons, List.foldl_append, List.cons_append, List.foldl_cons, hcomma,
        List.foldl_append, foldl_splitStep_plain hgap, foldl_splitStep_spelling, List.nil_append]
      exact hs
    · rw [hparts, List.append_assoc]
      rfl
    · obtain hcur | ⟨q, hq, hcur⟩ := hcur
      · exact ⟨p, List.mem_cons_self, hcur⟩
      · exact ⟨q, List.mem_cons_of_mem p hq, hcur⟩

theorem splitTopLevel_paramList (gap : Gap) (p : Param tables) (ps : List (Param tables)) :
    splitTopLevel (paramList gap (p :: ps)) =
      p.spelling :: ps.map fun q => gap.val ++ q.spelling := by
  obtain ⟨s, hs, hparts, hcur⟩ := foldl_splitStep_rest gap ps [] p.spelling
  have hfold : (paramList gap (p :: ps)).foldl splitStep ⟨[], 0, []⟩ = s := by
    rw [paramList, List.foldl_append, foldl_splitStep_spelling, List.nil_append, hs]
  have hstrip : strip s.cur ≠ [] := by
    obtain hcur | ⟨q, -, hcur⟩ := hcur
    · have h := p.strip_spelling (fun _ hc => nomatch hc : ∀ c ∈ ([] : Text), isSpace c = true)
      rw [hcur, ← List.nil_append p.spelling, h]
      exact p.spelling_ne_nil
    · rw [hcur, q.strip_spelling (List.all_eq_true.mp gap.property)]
      exact q.spelling_ne_nil
  unfold splitTopLevel
  rw [hfold]
  dsimp only
  rw [if_pos hstrip, hparts, List.nil_append]

theorem stripAnnotations_eq {t : Text} (h : '@' ∉ t) (rounds : Nat) :
    stripAnnotations tables rounds t = t := by
  induction rounds generalizing t with
  | zero => rfl
  | succ rounds ih =>
    cases t with
    | nil => rfl
    | cons c t =>
      obtain ⟨hc, ht⟩ := not_or.mp (List.mem_cons.not.mp h)
      rw [stripAnnotations, if_neg fun hcond => hc hcond.1.symm, ih ht]

theorem not_mem_paramList (gap : Gap) (ps : List (Param tables)) {c : Char}
    (hc : inName c = false) (hspace : isSpace c = false) (hcomma : c ≠ ',') (hopen : c ≠ '[')
    (hclose : c ≠ ']') : c ∉ paramList gap ps := by
  have hgap : c ∉ gap.val := fun hin => by
    have := List.all_eq_true.mp gap.property c hin
    rw [hspace] at this
    cases this
  have hspell (p : Param tables) : c ∉ p.spelling := p.not_mem_spelling hc hopen hclose
  cases ps with
  | nil => exact List.not_mem_nil
  | cons p ps => simp [paramList, hspell, hgap, hcomma]

/-- A parameter list starts with a character of a name. -/
theorem exists_cons_paramList (gap : Gap) (p : Param tables) (ps : List (Param tables)) :
    ∃ c t, paramList gap (p :: ps) = c :: t ∧ isSpace c = false ∧ tables.decimal c = none := by
  have hname := p.element.spelled
  obtain ⟨c, t, ht⟩ := List.exists_cons_of_ne_nil hname.nonempty
  have hopens := hname.opens c (by rw [ht]; rfl)
  refine ⟨c, t ++ brackets p.dims ++ ps.flatMap fun q => ',' :: gap.val ++ q.spelling, ?_,
    hname.not_space (by rw [ht]; exact List.mem_cons_self), hopens.2⟩
  rw [paramList, Param.spelling, ht]
  rfl

/-- What `_parse_api` reads from the types of an entry. -/
theorem types_entryOf (cls : ClassName tables) (m : Identifier tables) (gap : Gap)
    (ps : List (Param tables)) :
    (parseApi tables (entryOf cls m gap ps)).types = some (ps.map Param.aliased) := by
  have hhash : ∀ c ∈ cls.spelling, decide (c ≠ '#') = true := fun c hc => by
    simpa using ne_of_mem_of_not_mem hc (cls.spelled.not_mem (by decide))
  have hrest : ((entryOf cls m gap ps).dropWhile (· ≠ '#')).tail =
      m.text ++ '(' :: paramList gap ps ++ [')'] := by
    rw [entryOf, List.append_assoc, List.append_assoc, List.dropWhile_append_of_pos hhash]
    simp
  have hclose : (m.text ++ '(' :: paramList gap ps ++ [')']).rdropWhile (· ≠ ')') =
      m.text ++ '(' :: paramList gap ps ++ [')'] :=
    List.rdropWhile_concat_neg _ _ _ (by decide)
  have hargs : ((m.text ++ '(' :: paramList gap ps).dropWhile (· ≠ '(')).tail =
      paramList gap ps := by
    have hopen : ∀ c ∈ m.text, decide (c ≠ '(') = true := fun c hc => by
      simpa using ne_of_mem_of_not_mem hc (m.not_mem (by decide))
    rw [List.dropWhile_append_of_pos hopen]
    simp
  have hstrip : stripAnnotations tables (paramList gap ps).length (paramList gap ps) =
      paramList gap ps :=
    stripAnnotations_eq (not_mem_paramList gap ps (by decide) (by decide) (by decide) (by decide)
      (by decide)) _
  unfold parseApi
  dsimp only
  rw [hrest, hclose, List.dropLast_concat, if_pos (by simp), hargs, hstrip]
  cases ps with
  | nil =>
    rw [if_pos (by rfl)]
    rfl
  | cons p ps =>
    obtain ⟨c, t, hlist, hspace, hdigit⟩ := exists_cons_paramList gap p ps
    have hstart : lstrip (paramList gap (p :: ps)) = paramList gap (p :: ps) := by
      rw [hlist, lstrip, List.dropWhile_cons_of_neg (by rw [hspace]; exact Bool.false_ne_true)]
    have hne : strip (paramList gap (p :: ps)) ≠ [] := by
      rw [strip, hstart, rstrip, ne_eq, List.rdropWhile_eq_nil_iff, hlist]
      intro hall
      have := hall c List.mem_cons_self
      rw [hspace] at this
      cases this
    have harity : arityOnly tables (paramList gap (p :: ps)) = none := by
      unfold arityOnly
      rw [hstart, hlist]
      dsimp only
      rw [List.takeWhile_cons_of_neg (by rw [hdigit]; exact Bool.false_ne_true),
        if_neg fun h => h.1 rfl]
    rw [if_neg hne, harity]
    dsimp only
    have hfirst : paramSimple ([] ++ p.spelling) = p.aliased :=
      paramSimple_spelling p fun _ hc => nomatch hc
    rw [List.nil_append] at hfirst
    have hmore : ps.map (paramSimple ∘ fun q => gap.val ++ q.spelling) = ps.map Param.aliased :=
      List.map_congr_left fun q _ => by
        rw [Function.comp_apply, paramSimple_spelling q (List.all_eq_true.mp gap.property)]
    rw [splitTopLevel_paramList, List.map_cons, List.map_map, List.map_cons, hfirst, hmore]

/-! The two normalisers. -/

theorem aliased_eq_simple_iff (p : Param tables) : p.aliased = p.simple ↔ ¬p.Aliased := by
  obtain ⟨dims, element⟩ := p
  unfold Param.aliased Param.simple Param.Aliased
  rw [List.append_cancel_right_eq]
  cases element with
  | prim q =>
    have hplain : kotlinAliases.lookup (dalvikPrim q.code) = none := by cases q <;> decide
    have hprim : (Element.prim q : Element tables).simple = dalvikPrim q.code := rfl
    rw [hprim, hplain]
    exact iff_of_true rfl fun ⟨_, h, _⟩ => nomatch h
  | cls c =>
    have hcls : (Element.cls c).simple = c.own.text := rfl
    have honly : (∃ d, Element.cls c = .cls d ∧ (kotlinAliases.lookup d.own.text).isSome = true) ↔
        (kotlinAliases.lookup c.own.text).isSome = true :=
      ⟨fun ⟨d, h, hd⟩ => by rwa [Element.cls.inj h], fun h => ⟨c, rfl, h⟩⟩
    rw [hcls, honly]
    cases hlookup : kotlinAliases.lookup c.own.text with
    | none => exact iff_of_true rfl Bool.false_ne_true
    | some name =>
      have hchanged : ∀ e ∈ kotlinAliases, e.2 ≠ e.1 := by decide
      exact iff_of_false (hchanged _ (Association.mem_of_lookup hlookup)) fun h => h rfl

theorem two_le_sum {arityMap : List (Nat × Nat)} {n : Nat}
    (h : 2 ≤ (arityMap.lookup n).getD 0) : 2 ≤ (arityMap.map Prod.snd).sum := by
  cases hlookup : arityMap.lookup n with
  | none => rw [hlookup] at h; cases h
  | some count =>
    rw [hlookup, Option.getD_some] at h
    obtain ⟨before, after, rfl⟩ := List.append_of_mem (Association.mem_of_lookup hlookup)
    rw [List.map_append, List.sum_append, List.map_cons, List.sum_cons]
    omega

/-- Among two or more overloads of its arity an entry takes the references of its
types. -/
theorem refMatches_iff {proto : Text} {types : List Text} {arityMap : List (Nat × Nat)}
    (h : 2 ≤ (arityMap.lookup types.length).getD 0) :
    refMatches proto types arityMap = true ↔ dalvikParamTypes proto = types := by
  have hsum := two_le_sum h
  unfold refMatches
  rw [if_neg (by omega)]
  dsimp only
  by_cases hlen : (dalvikParamTypes proto).length = types.length
  · rw [if_neg (fun hne => hne hlen), if_neg (by omega), decide_eq_true_iff]
  · rw [if_pos hlen]
    exact iff_of_false Bool.false_ne_true fun heq => hlen (by rw [heq])

/-- For an entry in fully qualified Java names, the types are those of the proto, and
among overloads of its arity a reference is accepted exactly when its parameters have
the simple names of the entry's: both exactly when no class has the name of a Kotlin
alias. -/
theorem signatures_agree_iff (cls : ClassName tables) (m : Identifier tables) (gap : Gap)
    (ps : List (Param tables)) :
    ((∀ ret, (parseApi tables (entryOf cls m gap ps)).types =
        some (dalvikParamTypes (protoOf ps ret))) ∧
      ∀ types, (parseApi tables (entryOf cls m gap ps)).types = some types →
        ∀ arityMap : List (Nat × Nat), 2 ≤ (arityMap.lookup types.length).getD 0 →
          ∀ (qs : List (Param tables)) (ret : Text),
            (refMatches (protoOf qs ret) types arityMap = true ↔
              qs.map Param.simple = ps.map Param.simple)) ↔
      ∀ p ∈ ps, ¬p.Aliased := by
  rw [types_entryOf]
  constructor
  · rintro ⟨hsame, -⟩ p hp
    have heq := Option.some.inj (hsame [])
    rw [dalvikParamTypes_protoOf] at heq
    exact (aliased_eq_simple_iff p).mp (List.map_inj_left.mp heq p hp)
  · intro hplain
    have heq : ps.map Param.aliased = ps.map Param.simple :=
      List.map_congr_left fun p hp => (aliased_eq_simple_iff p).mpr (hplain p hp)
    rw [heq]
    refine ⟨fun ret => by rw [dalvikParamTypes_protoOf],
      fun types htypes arityMap hcount qs ret => ?_⟩
    obtain rfl := Option.some.inj htypes
    rw [refMatches_iff hcount, dalvikParamTypes_protoOf]

/-- The tables of the ASCII characters. -/
def asciiTables : CharTables where
  word c := c.isAlphanum || c = '_'
  decimal c := if c.isDigit then some (c.toNat - 48) else none
  lower_not_decimal c hc := by
    refine if_neg fun hdigit => ?_
    delta Char.isLower at hc
    simp only [Char.isDigit, Bool.and_eq_true, decide_eq_true_eq] at hc hdigit
    exact absurd (UInt32.le_trans hc.1 hdigit.2) (by decide)

theorem start_of_head {t : Text}
    (h : (t.head?.all fun c => asciiTables.decimal c = none) = true) :
    ∀ c ∈ t.head?, asciiTables.decimal c = none := fun c hc => by
  rw [Option.mem_def.mp hc, Option.all_some, decide_eq_true_eq] at h
  exact h

theorem allowed_of_all {t : Text} (h : t.all inIdentifier = true) :
    ∀ c ∈ t, inIdentifier c = true := List.all_eq_true.mp h

/-- `java.lang.Long`, a parameter of `P#m`. -/
def boxedLong : Param asciiTables where
  dims := 0
  element := .cls
    { packages :=
        [⟨"java".toList, by decide, allowed_of_all (by decide), start_of_head (by decide), by decide⟩,
          ⟨"lang".toList, by decide, allowed_of_all (by decide), start_of_head (by decide),
            by decide⟩],
      outers := [],
      own := ⟨"Long".toList, by decide, allowed_of_all (by decide), start_of_head (by decide),
        by decide⟩ }

/-- The boxed type is read as `long`. -/
theorem boxedLong_differs : ¬ ∀ (tables : CharTables) (cls : ClassName tables)
    (m : Identifier tables) (gap : Gap) (ps : List (Param tables)) (ret : Text),
    (parseApi tables (entryOf cls m gap ps)).types = some (dalvikParamTypes (protoOf ps ret)) := by
  intro h
  have heq := h asciiTables
    ⟨[], [], ⟨['P'], by decide, allowed_of_all (by decide), start_of_head (by decide), by decide⟩⟩
    ⟨['m'], by decide, allowed_of_all (by decide), start_of_head (by decide), by decide⟩ ⟨[], rfl⟩
    [boxedLong] ['V']
  exact absurd heq (by decide)

end Dexllm.Permissions
