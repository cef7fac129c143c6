import Dexllm.Permissions.Signatures

/-!
Parameter types in the two spellings: a Dalvik proto, and the fully qualified Java
names of a table entry. The simple names agree where no class has the name of a
Kotlin alias.
-/

namespace Dexllm.Permissions

/-- A character of a Java name: no space, and nothing that delimits names. -/
def inIdentifier (c : Char) : Bool :=
  !isSpace c && c ∉ ['.', '/', '$', ';', '[', ']', '(', ')', '<', '>', ',', ':', '?', '@', '#']

/-- An identifier of the Java language. -/
structure Identifier (tables : CharTables) where
  text : Text
  nonempty : text ≠ []
  allowed : ∀ c ∈ text, inIdentifier c = true
  start : ∀ c ∈ text.head?, tables.decimal c = none
  no_modifier : text ≠ "final".toList

/-- A class: its packages, the classes it is nested in, and its own name. -/
structure ClassName (tables : CharTables) where
  packages : List (Identifier tables)
  outers : List (Identifier tables)
  own : Identifier tables

inductive Prim where
  | int
  | long
  | boolean
  | double
  | float
  | byte
  | short
  | char

def Prim.code : Prim → Char
  | int => 'I'
  | long => 'J'
  | boolean => 'Z'
  | double => 'D'
  | float => 'F'
  | byte => 'B'
  | short => 'S'
  | char => 'C'

inductive Element (tables : CharTables) where
  | prim (p : Prim)
  | cls (c : ClassName tables)

/-- A parameter type other than `void`. -/
structure Param (tables : CharTables) where
  dims : Nat
  element : Element tables

variable {tables : CharTables}

/-- `java/util/Map$Entry`. -/
def ClassName.internal (c : ClassName tables) : Text :=
  c.packages.flatMap (·.text ++ ['/']) ++ c.outers.flatMap (·.text ++ ['$']) ++ c.own.text

/-- `java.util.Map.Entry`. -/
def ClassName.spelling (c : ClassName tables) : Text :=
  (c.packages ++ c.outers).flatMap (·.text ++ ['.']) ++ c.own.text

namespace Element

def descriptor : Element tables → Text
  | prim p => [p.code]
  | cls c => 'L' :: c.internal ++ [';']

def spelling : Element tables → Text
  | prim p => dalvikPrim p.code
  | cls c => c.spelling

/-- The last name of a class. -/
def simple : Element tables → Text
  | prim p => dalvikPrim p.code
  | cls c => c.own.text

end Element

namespace Param

def descriptor (p : Param tables) : Text := List.replicate p.dims '[' ++ p.element.descriptor

def spelling (p : Param tables) : Text := p.element.spelling ++ brackets p.dims

def simple (p : Param tables) : Text := p.element.simple ++ brackets p.dims

/-- A class, or an array of one, with the name of a Kotlin alias. -/
def Aliased (p : Param tables) : Prop :=
  ∃ c, p.element = .cls c ∧ (kotlinAliases.lookup c.own.text).isSome = true

end Param

/-- The proto of these parameters. -/
def protoOf (ps : List (Param tables)) (ret : Text) : Text :=
  '(' :: ps.flatMap Param.descriptor ++ ')' :: ret

/-- The spaces after a comma. -/
abbrev Gap := { t : Text // t.all isSpace = true }

def paramList (gap : Gap) : List (Param tables) → Text
  | [] => []
  | p :: ps => p.spelling ++ ps.flatMap fun q => ',' :: gap.val ++ q.spelling

/-- `pkg.Cls#m(...)`. -/
def entryOf (cls : ClassName tables) (m : Identifier tables) (gap : Gap)
    (ps : List (Param tables)) : Text :=
  cls.spelling ++ '#' :: m.text ++ '(' :: paramList gap ps ++ [')']

/-! Names. -/

theorem Identifier.not_mem (i : Identifier tables) {c : Char} (hc : inIdentifier c = false) :
    c ∉ i.text := by
  intro hin
  rw [i.allowed c hin] at hc
  cases hc

theorem afterLast_eq {c : Char} {t : Text} (h : c ∉ t) : afterLast c t = t := by
  unfold afterLast
  rw [List.rtakeWhile_eq_self_iff]
  intro d hd
  simpa using ne_of_mem_of_not_mem hd h

theorem afterLast_append {c : Char} (pre : Text) {t : Text} (h : c ∉ t) :
    afterLast c (pre ++ c :: t) = t := by
  have hrest : ∀ d ∈ t.reverse, decide (d ≠ c) = true := fun d hd => by
    simpa using ne_of_mem_of_not_mem (List.mem_reverse.mp hd) h
  unfold afterLast List.rtakeWhile
  rw [List.reverse_append, List.reverse_cons, List.append_assoc,
    List.takeWhile_append_of_pos hrest]
  simp

/-- A separator of names. -/
def IsSeparator (c : Char) : Prop := c = '/' ∨ c = '$' ∨ c = '.'

theorem simpleName_own (i : Identifier tables) {pre : Text}
    (hpre : pre = [] ∨ ∃ before s, pre = before ++ [s] ∧ IsSeparator s) :
    simpleName (pre ++ i.text) = i.text := by
  have hown : i.text.map (fun c => if c = '/' ∨ c = '$' then '.' else c) = i.text := by
    conv_rhs => rw [← List.map_id i.text]
    refine List.map_congr_left fun c hc => if_neg ?_
    rintro (rfl | rfl) <;> exact i.not_mem (by decide) hc
  have hdot : '.' ∉ i.text := i.not_mem (by decide)
  unfold simpleName
  obtain rfl | ⟨before, s, rfl, hs⟩ := hpre
  · rw [List.nil_append, hown, afterLast_eq hdot]
  · have hsep : (if s = '/' ∨ s = '$' then '.' else s) = '.' := by
      obtain rfl | rfl | rfl := hs <;> rfl
    rw [List.map_append, List.map_append, List.map_singleton, hown, hsep, List.append_assoc]
    exact afterLast_append _ hdot

theorem joined_ends (l : List (Identifier tables)) (s : Char) :
    l.flatMap (·.text ++ [s]) = [] ∨ ∃ before, l.flatMap (·.text ++ [s]) = before ++ [s] := by
  obtain rfl | ⟨l', i, rfl⟩ := List.eq_nil_or_concat' l
  · exact Or.inl rfl
  · refine Or.inr ⟨l'.flatMap (·.text ++ [s]) ++ i.text, ?_⟩
    simp

theorem simpleName_internal (c : ClassName tables) : simpleName c.internal = c.own.text := by
  refine simpleName_own c.own ?_
  obtain houter | ⟨before, houter⟩ := joined_ends c.outers '$'
  · rw [houter, List.append_nil]
    exact (joined_ends c.packages '/').imp_right fun ⟨before, h⟩ =>
      ⟨before, '/', h, Or.inl rfl⟩
  · rw [houter, ← List.append_assoc]
    exact Or.inr ⟨_, '$', rfl, Or.inr (Or.inl rfl)⟩

theorem simpleName_spelling (c : ClassName tables) : simpleName c.spelling = c.own.text :=
  simpleName_own c.own ((joined_ends (c.packages ++ c.outers) '.').imp_right fun ⟨before, h⟩ =>
    ⟨before, '.', h, Or.inr (Or.inr rfl)⟩)

/-! The proto. -/

theorem not_mem_internal (c : ClassName tables) {d : Char} (hd : inIdentifier d = false)
    (hslash : d ≠ '/') (hdollar : d ≠ '$') : d ∉ c.internal := by
  unfold ClassName.internal
  simp only [List.mem_append, List.mem_flatMap, List.mem_singleton, not_or, not_exists, not_and]
  exact ⟨⟨fun i _ => ⟨i.not_mem hd, hslash⟩, fun i _ => ⟨i.not_mem hd, hdollar⟩⟩,
    c.own.not_mem hd⟩

/-- The text between the first delimiters. -/
theorem between_delimiters {α : Type} [DecidableEq α] {o c : α} (hoc : o ≠ c) {inner : List α}
    (hinner : c ∉ inner) (ret : List α) :
    (o :: inner ++ c :: ret).findIdx? (· = o) = some 0 ∧
      (o :: inner ++ c :: ret).findIdx? (· = c) = some (inner.length + 1) ∧
      ((o :: inner ++ c :: ret).take (inner.length + 1)).drop (0 + 1) = inner := by
  have hnone : inner.findIdx? (· = c) = none :=
    List.findIdx?_eq_none_iff.mpr fun d hd => by simpa using ne_of_mem_of_not_mem hd hinner
  refine ⟨?_, ?_, ?_⟩
  · simp [List.findIdx?_cons]
  · rw [List.cons_append, List.findIdx?_cons, List.findIdx?_append, hnone]
    simp [List.findIdx?_cons, hoc]
  · simp

theorem replicate_takeWhile {α : Type} [DecidableEq α] (dims : Nat) {o : α} {t : List α}
    (ht : t.head? ≠ some o) :
    ((List.replicate dims o ++ t).takeWhile (· = o)).length = dims ∧
      (List.replicate dims o ++ t).dropWhile (· = o) = t := by
  induction dims with
  | zero =>
    cases t with
    | nil => exact ⟨rfl, rfl⟩
    | cons c t =>
      have hc : ¬c = o := fun h => ht (by rw [h]; rfl)
      simp [hc]
  | succ dims ih => simpa [List.replicate_succ] using ih

theorem paramTypesFrom_prim {code : Char} (hopen : code ≠ '[') (hcls : code ≠ 'L')
    (rounds dims : Nat) (rest : Text) :
    paramTypesFrom (rounds + 1) (List.replicate dims '[' ++ code :: rest) =
      (dalvikPrim code ++ brackets dims) :: paramTypesFrom rounds rest := by
  obtain ⟨hlen, hdrop⟩ := replicate_takeWhile dims (o := '[') (t := code :: rest)
    (by simpa using hopen)
  rw [paramTypesFrom, hlen, hdrop]
  split
  · rename_i heq
    cases heq
  · rename_i heq
    exact absurd (List.cons.inj heq).1 hcls
  · rename_i heq
    obtain ⟨rfl, rfl⟩ := List.cons.inj heq
    rfl

theorem paramTypesFrom_cls {path : Text} (hpath : ';' ∉ path) (rounds dims : Nat)
    (rest : Text) :
    paramTypesFrom (rounds + 1) (List.replicate dims '[' ++ 'L' :: (path ++ ';' :: rest)) =
      (simpleName path ++ brackets dims) :: paramTypesFrom rounds rest := by
  obtain ⟨hlen, hdrop⟩ := replicate_takeWhile dims (o := '[')
    (t := 'L' :: (path ++ ';' :: rest)) (by simp)
  have hname : ∀ d ∈ path, decide (d ≠ ';') = true := fun d hd => by
    simpa using ne_of_mem_of_not_mem hd hpath
  rw [paramTypesFrom, hlen, hdrop]
  change (if ';' ∈ path ++ ';' :: rest then
      (simpleName ((path ++ ';' :: rest).takeWhile (· ≠ ';')) ++ brackets dims) ::
        paramTypesFrom rounds ((path ++ ';' :: rest).dropWhile (· ≠ ';')).tail
    else []) = _
  rw [if_pos (by simp), List.takeWhile_append_of_pos hname, List.dropWhile_append_of_pos hname]
  simp

theorem paramTypesFrom_param (rounds : Nat) (p : Param tables) (rest : Text) :
    paramTypesFrom (rounds + 1) (p.descriptor ++ rest) =
      p.simple :: paramTypesFrom rounds rest := by
  obtain ⟨dims, element⟩ := p
  cases element with
  | prim q =>
    have htext : (⟨dims, .prim q⟩ : Param tables).descriptor ++ rest =
        List.replicate dims '[' ++ q.code :: rest := by
      simp [Param.descriptor, Element.descriptor]
    rw [htext]
    exact paramTypesFrom_prim (by cases q <;> decide) (by cases q <;> decide) rounds dims rest
  | cls c =>
    have hsemi : ';' ∉ c.internal := not_mem_internal c (by decide) (by decide) (by decide)
    have htext : (⟨dims, .cls c⟩ : Param tables).descriptor ++ rest =
        List.replicate dims '[' ++ 'L' :: (c.internal ++ ';' :: rest) := by
      simp [Param.descriptor, Element.descriptor]
    rw [htext, paramTypesFrom_cls hsemi, simpleName_internal]
    rfl

theorem paramTypesFrom_params {rounds : Nat} {ps : List (Param tables)}
    (hrounds : ps.length ≤ rounds) :
    paramTypesFrom rounds (ps.flatMap Param.descriptor) = ps.map Param.simple := by
  induction ps generalizing rounds with
  | nil => cases rounds <;> rfl
  | cons p ps ih =>
    obtain ⟨rounds, rfl⟩ : ∃ m, rounds = m + 1 :=
      ⟨rounds - 1, by rw [List.length_cons] at hrounds; omega⟩
    rw [List.flatMap_cons, paramTypesFrom_param, ih (Nat.le_of_succ_le_succ hrounds)]
    rfl

theorem not_mem_descriptor (p : Param tables) {d : Char} (hd : d = '(' ∨ d = ')') :
    d ∉ p.descriptor := by
  obtain ⟨dims, element⟩ := p
  unfold Param.descriptor
  rw [List.mem_append, not_or]
  constructor
  · intro h
    obtain rfl := List.eq_of_mem_replicate h
    obtain h | h := hd <;> cases h
  · cases element with
    | prim q =>
      have hcode : d ≠ q.code := by
        obtain rfl | rfl := hd <;> cases q <;> decide
      simpa [Element.descriptor] using hcode
    | cls c =>
      have hname : d ∉ c.internal := by
        obtain rfl | rfl := hd <;> exact not_mem_internal c (by decide) (by decide) (by decide)
      unfold Element.descriptor
      simp only [List.cons_append, List.mem_cons, List.mem_append, hname, false_or]
      obtain rfl | rfl := hd <;> simp

theorem length_le_descriptors (ps : List (Param tables)) :
    ps.length ≤ (ps.flatMap Param.descriptor).length := by
  induction ps with
  | nil => exact Nat.le_refl 0
  | cons p ps ih =>
    have hpos : 1 ≤ p.descriptor.length := by
      obtain ⟨dims, element⟩ := p
      unfold Param.descriptor
      have hne : element.descriptor ≠ [] := by cases element <;> simp [Element.descriptor]
      rw [List.length_append]
      exact Nat.le_trans (List.length_pos_of_ne_nil hne) (Nat.le_add_left _ _)
    rw [List.length_cons, List.flatMap_cons, List.length_append]
    omega

/-- The proto of a list of parameters is split into them. -/
theorem dalvikParamTypes_protoOf (ps : List (Param tables)) (ret : Text) :
    dalvikParamTypes (protoOf ps ret) = ps.map Param.simple := by
  have hclose : ')' ∉ ps.flatMap Param.descriptor := by
    intro hc
    obtain ⟨p, -, hc⟩ := List.mem_flatMap.mp hc
    exact not_mem_descriptor p (Or.inr rfl) hc
  obtain ⟨hopenAt, hcloseAt, hinner⟩ := between_delimiters (by decide : '(' ≠ ')') hclose ret
  unfold dalvikParamTypes protoOf
  rw [hopenAt, hcloseAt]
  dsimp only
  rw [if_neg (Nat.not_lt_zero _), hinner]
  exact paramTypesFrom_params (length_le_descriptors ps)

end Dexllm.Permissions
