import Mathlib.Algebra.GroupWithZero.Nat
import Mathlib.Data.List.Chain
import Mathlib.Data.List.DropRight
import Mathlib.Data.List.Infix

/-!
Signatures of the permission table and Dalvik protos, both reduced to the simple
names of the parameter types.
-/

namespace Dexllm.Permissions

/-- A string of code points. -/
abbrev Text := List Char

/-- What the regular expressions ask of the Unicode tables: `\w`, and the value of a
decimal digit. -/
structure CharTables where
  word : Char → Bool
  decimal : Char → Option Nat
  lower_not_decimal : ∀ c, c.isLower = true → decimal c = none

/-- `str.isspace`. -/
def isSpace (c : Char) : Bool :=
  let n := c.toNat
  (0x09 ≤ n && n ≤ 0x0d) || (0x1c ≤ n && n ≤ 0x20) || n = 0x85 || n = 0xa0 || n = 0x1680 ||
    (0x2000 ≤ n && n ≤ 0x200a) || n = 0x2028 || n = 0x2029 || n = 0x202f || n = 0x205f ||
    n = 0x3000

def lstrip (t : Text) : Text := t.dropWhile isSpace

def rstrip (drop : Char → Bool) (t : Text) : Text := t.rdropWhile drop

def strip (t : Text) : Text := rstrip isSpace (lstrip t)

/-- `t.split()`. -/
def words (t : Text) : List Text :=
  (t.splitOnP isSpace).filter (· ≠ [])

/-- The text after the last `c`. -/
def afterLast (c : Char) (t : Text) : Text := t.rtakeWhile (· ≠ c)

/-- `_DALVIK_PRIM.get(c, c)`. -/
def dalvikPrim : Char → Text
  | 'I' => "int".toList
  | 'J' => "long".toList
  | 'Z' => "boolean".toList
  | 'D' => "double".toList
  | 'F' => "float".toList
  | 'B' => "byte".toList
  | 'S' => "short".toList
  | 'C' => "char".toList
  | 'V' => "void".toList
  | c => [c]

def kotlinAliases : List (Text × Text) :=
  [("Int".toList, "int".toList), ("Long".toList, "long".toList),
    ("Short".toList, "short".toList), ("Byte".toList, "byte".toList),
    ("Char".toList, "char".toList), ("Boolean".toList, "boolean".toList),
    ("Float".toList, "float".toList), ("Double".toList, "double".toList),
    ("Unit".toList, "void".toList), ("Any".toList, "Object".toList)]

/-- `_simple_name`. -/
def simpleName (typeStr : Text) : Text :=
  afterLast '.' (typeStr.map fun c => if c = '/' ∨ c = '$' then '.' else c)

/-- `"[]" * dims`. -/
def brackets : Nat → Text
  | 0 => []
  | dims + 1 => '[' :: ']' :: brackets dims

/-- The loop of `_dalvik_param_types`; a round takes at least one character. -/
def paramTypesFrom : (rounds : Nat) → Text → List Text
  | 0, _ => []
  | rounds + 1, inner =>
    let dims := (inner.takeWhile (· = '[')).length
    match inner.dropWhile (· = '[') with
    | [] => []
    | 'L' :: rest =>
      if ';' ∈ rest then
        (simpleName (rest.takeWhile (· ≠ ';')) ++ brackets dims) ::
          paramTypesFrom rounds (rest.dropWhile (· ≠ ';')).tail
      else []
    | c :: rest => (dalvikPrim c ++ brackets dims) :: paramTypesFrom rounds rest

/-- `_dalvik_param_types`. -/
def dalvikParamTypes (proto : Text) : List Text :=
  match proto.findIdx? (· = '('), proto.findIdx? (· = ')') with
  | some openP, some closeP =>
    if closeP < openP then []
    else
      let inner := (proto.take closeP).drop (openP + 1)
      paramTypesFrom inner.length inner
  | _, _ => []

/-- The argument list an annotation may have. -/
def afterArguments (t : Text) : Text :=
  match t with
  | '(' :: body =>
    match body.dropWhile fun c => c ≠ '(' ∧ c ≠ ')' with
    | ')' :: rest => rest
    | _ => t
  | _ => t

/-- `_ANNOTATION.sub(" ", t)`; a round takes at least one character. -/
def stripAnnotations (tables : CharTables) : (rounds : Nat) → Text → Text
  | 0, t => t
  | _, [] => []
  | rounds + 1, c :: rest =>
    let inName := fun c => tables.word c || c = '.'
    if c = '@' ∧ rest.takeWhile inName ≠ [] then
      ' ' :: stripAnnotations tables rounds (afterArguments (lstrip (rest.dropWhile inName)))
    else c :: stripAnnotations tables rounds rest

/-- The state of `_split_top_level`. -/
structure Split where
  parts : List Text
  depth : Nat
  cur : Text

def splitStep (s : Split) (c : Char) : Split :=
  let depth :=
    if c ∈ ['<', '(', '['] then s.depth + 1
    else if c ∈ ['>', ')', ']'] then s.depth - 1
    else s.depth
  if c = ',' ∧ depth = 0 then ⟨s.parts ++ [s.cur], depth, []⟩
  else ⟨s.parts, depth, s.cur ++ [c]⟩

/-- `_split_top_level`. -/
def splitTopLevel (params : Text) : List Text :=
  let s := params.foldl splitStep ⟨[], 0, []⟩
  if strip s.cur ≠ [] then s.parts ++ [s.cur] else s.parts

/-- `re.sub(r"<.*>", "", t)`: from a `<` to the last `>` on its line. A round takes at
least one character. -/
def eraseGenerics : (rounds : Nat) → Text → Text
  | 0, t => t
  | _, [] => []
  | rounds + 1, c :: rest =>
    let line := rest.takeWhile (· ≠ '\n')
    if c = '<' ∧ '>' ∈ line then
      eraseGenerics rounds (line.rtakeWhile (· ≠ '>') ++ rest.dropWhile (· ≠ '\n'))
    else c :: eraseGenerics rounds rest

/-- `t.count("[]")`. -/
def countBrackets : Text → Nat
  | '[' :: ']' :: rest => countBrackets rest + 1
  | _ :: rest => countBrackets rest
  | [] => 0

/-- `t.replace("[]", " ")`. -/
def spaceBrackets : Text → Text
  | '[' :: ']' :: rest => ' ' :: spaceBrackets rest
  | c :: rest => c :: spaceBrackets rest
  | [] => []

/-- `t.replace("...", " ")`. -/
def spaceDots : Text → Text
  | '.' :: '.' :: '.' :: rest => ' ' :: spaceDots rest
  | c :: rest => c :: spaceDots rest
  | [] => []

/-- The type of one parameter, before its nullable mark is dropped. -/
def typeText (p : Text) : Option Text :=
  if ':' ∈ p then some (strip (afterLast ':' p))
  else
    match (words p).filter (· ≠ "final".toList) with
    | [] => none
    | [tok] => some tok
    | tok :: toks => some ([' '].intercalate ((tok :: toks).dropLast))

/-- `_param_simple`. -/
def paramSimple (param : Text) : Text :=
  let p := strip (eraseGenerics param.length param)
  let dims := countBrackets p + if "...".toList <:+: p then 1 else 0
  match typeText (strip (spaceDots (spaceBrackets p))) with
  | none => []
  | some typeStr =>
    let base := simpleName (strip (rstrip (· = '?') typeStr))
    (kotlinAliases.lookup base).getD base ++ brackets dims

/-- `_ARITY_ONLY_RE.fullmatch`. -/
def arityOnly (tables : CharTables) (params : Text) : Option Nat :=
  let t := lstrip params
  let digits := t.takeWhile fun c => (tables.decimal c).isSome
  let rest := t.dropWhile fun c => (tables.decimal c).isSome
  if digits ≠ [] ∧ "args".toList <+: rest ∧ (rest.drop 4).all isSpace then
    some (digits.foldl (fun n c => 10 * n + (tables.decimal c).getD 0) 0)
  else none

/-- What `_parse_api` returns; a field or constant has no types. -/
structure Api where
  cls : Text
  method : Text
  types : Option (List Text)

/-- `_parse_api`. -/
def parseApi (tables : CharTables) (entry : Text) : Api :=
  let cls := (entry.takeWhile (· ≠ '#')).map fun c => if c = '$' then '.' else c
  let rest := (entry.dropWhile (· ≠ '#')).tail
  let args := (rest.rdropWhile (· ≠ ')')).dropLast
  if '(' ∈ args then
    let name := rest.takeWhile (· ≠ '(')
    let args := (args.dropWhile (· ≠ '(')).tail
    let params := stripAnnotations tables args.length args
    if strip params = [] then ⟨cls, name, some []⟩
    else
      match arityOnly tables params with
      | some n => ⟨cls, name, some (List.replicate (min n 256) ['*'])⟩
      | none => ⟨cls, name, some ((splitTopLevel params).map paramSimple)⟩
  else ⟨cls, rest, none⟩

/-- `_ref_matches`, on the proto of the reference. -/
def refMatches (proto : Text) (types : List Text) (arityMap : List (Nat × Nat)) : Bool :=
  if (arityMap.map Prod.snd).sum ≤ 1 then true
  else
    let refTypes := dalvikParamTypes proto
    if refTypes.length ≠ types.length then false
    else if (arityMap.lookup types.length).getD 0 ≤ 1 then true
    else refTypes = types

end Dexllm.Permissions
