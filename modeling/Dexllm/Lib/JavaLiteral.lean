/-!
String literals of the Java language, over UTF-16 code units: the Unicode escapes
are translated first, then the literal is read with its escape sequences.
-/

namespace JavaLiteral

/-- The value of a hexadecimal digit. -/
def hexDigit (c : Nat) : Option Nat :=
  if 0x30 ≤ c ∧ c ≤ 0x39 then some (c - 0x30)
  else if 0x41 ≤ c ∧ c ≤ 0x46 then some (c - 0x37)
  else if 0x61 ≤ c ∧ c ≤ 0x66 then some (c - 0x57)
  else none

/-- What the translation has read of an escape. A backslash starts one only if an
even number of backslashes stands right before it. -/
inductive Pending where
  | plain
  | backslash
  | marker
  | digits (left value : Nat)

/-- The units after the Unicode escapes are translated; `none` if one is malformed. -/
def translate : Pending → List Nat → Option (List Nat)
  | .plain, [] => some []
  | .backslash, [] => some [0x5c]
  | _, [] => none
  | .plain, c :: rest =>
    if c = 0x5c then translate .backslash rest else (translate .plain rest).map (c :: ·)
  | .backslash, c :: rest =>
    if c = 0x75 then translate .marker rest
    else (translate .plain rest).map fun t => 0x5c :: c :: t
  | .marker, c :: rest =>
    if c = 0x75 then translate .marker rest
    else match hexDigit c with
      | none => none
      | some d => translate (.digits 3 d) rest
  | .digits left value, c :: rest =>
    match hexDigit c with
    | none => none
    | some d =>
      if left = 1 then (translate .plain rest).map ((16 * value + d) :: ·)
      else translate (.digits (left - 1) (16 * value + d)) rest

def isOctal (c : Nat) : Bool := 0x30 ≤ c && c ≤ 0x37

/-- An escape sequence after its backslash: what it denotes, and what follows. -/
def escapeSequence : List Nat → Option (List Nat × List Nat)
  | [] => none
  | c :: rest =>
    match c with
    | 0x62 => some ([0x08], rest)
    | 0x73 => some ([0x20], rest)
    | 0x74 => some ([0x09], rest)
    | 0x6e => some ([0x0a], rest)
    | 0x66 => some ([0x0c], rest)
    | 0x72 => some ([0x0d], rest)
    | 0x22 => some ([0x22], rest)
    | 0x27 => some ([0x27], rest)
    | 0x5c => some ([0x5c], rest)
    | 0x0a => some ([], rest)
    | 0x0d => some ([], if rest.head? = some 0x0a then rest.tail else rest)
    | _ =>
      if isOctal c then
        -- at most three digits, and three only from a leading 0 to 3
        let digits := c :: (rest.take (if c ≤ 0x33 then 2 else 1)).takeWhile isOctal
        some ([digits.foldl (fun n d => 8 * n + (d - 0x30)) 0], rest.drop (digits.length - 1))
      else none

/-- The literal after its opening quote: its value, and what follows it. A line ends
no literal. A round takes at least one unit. -/
def body : (rounds : Nat) → List Nat → Option (List Nat × List Nat)
  | 0, _ => none
  | _, [] => none
  | rounds + 1, c :: rest =>
    if c = 0x22 then some ([], rest)
    else if c = 0x5c then
      match escapeSequence rest with
      | none => none
      | some (units, rest) => (body rounds rest).map fun (value, rest) => (units ++ value, rest)
    else if c = 0x0a ∨ c = 0x0d then none
    else (body rounds rest).map fun (value, rest) => (c :: value, rest)

/-- The string literal at the start of a source text: its value, and the translated
units after it. Three quotes open a text block instead. -/
def read (source : List Nat) : Option (List Nat × List Nat) := do
  let units ← translate .plain source
  match units with
  | 0x22 :: 0x22 :: 0x22 :: _ => none
  | 0x22 :: rest => body rest.length rest
  | _ => none

variable {c d : Nat} {rest : List Nat}

theorem translate_plain (h : c ≠ 0x5c) :
    translate .plain (c :: rest) = (translate .plain rest).map (c :: ·) := by
  rw [translate, if_neg h]

/-- A backslash before anything but `u` is no Unicode escape, and what it escapes
starts none. -/
theorem translate_pair (h : c ≠ 0x75) :
    translate .plain (0x5c :: c :: rest) = (translate .plain rest).map fun t => 0x5c :: c :: t := by
  rw [translate, if_pos rfl, translate, if_neg h]

theorem hexDigit_ne_marker {v : Nat} (h : hexDigit c = some v) : c ≠ 0x75 := by
  rintro rfl
  cases h

/-- A Unicode escape of four digits. -/
theorem translate_escape {a b : Nat} {va vb vc vd : Nat} (ha : hexDigit a = some va)
    (hb : hexDigit b = some vb) (hc : hexDigit c = some vc) (hd : hexDigit d = some vd) :
    translate .plain (0x5c :: 0x75 :: a :: b :: c :: d :: rest) =
      (translate .plain rest).map ((16 * (16 * (16 * va + vb) + vc) + vd) :: ·) := by
  rw [translate, if_pos rfl, translate, if_pos rfl, translate, if_neg (hexDigit_ne_marker ha), ha]
  simp only [translate, hb, hc, hd]
  rfl

theorem body_plain (hquote : c ≠ 0x22) (hslash : c ≠ 0x5c) (hline : c ≠ 0x0a ∧ c ≠ 0x0d)
    (rounds : Nat) : body (rounds + 1) (c :: rest) =
      (body rounds rest).map fun (value, rest) => (c :: value, rest) := by
  rw [body, if_neg hquote, if_neg hslash, if_neg (not_or.mpr hline)]

theorem body_escape {units after : List Nat} (h : escapeSequence rest = some (units, after))
    (rounds : Nat) : body (rounds + 1) (0x5c :: rest) =
      (body rounds after).map fun (value, rest) => (units ++ value, rest) := by
  rw [body, if_neg (by decide), if_pos rfl, h]

/-- One quote opens a literal. -/
theorem read_quote {source : List Nat} (hc : c ≠ 0x22)
    (h : translate .plain source = some (0x22 :: c :: rest)) :
    read source = body (c :: rest).length (c :: rest) := by
  unfold read
  rw [h, Option.bind_eq_bind, Option.bind_some]
  split
  · rename_i heq
    exact absurd (List.cons.inj (List.cons.inj heq).2).1 hc
  · rename_i heq
    rw [(List.cons.inj heq).2]
  · rename_i hnone
    exact absurd rfl (hnone _)

end JavaLiteral
