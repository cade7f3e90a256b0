import ValueTrace.Json.Basic

/-! Read JSON text. Blanks may stand between tokens, nothing may follow the value, and numerals
have no leading zeros. Depth and range are not limited here: what a value is used for decides. -/

namespace ValueTrace.Json

def isBlank (c : Char) : Bool := c == ' ' || c == '\n' || c == '\t' || c == '\r'

def skipBlank (cs : List Char) : List Char := cs.dropWhile isBlank

def hexDigit? (c : Char) : Option Nat :=
  if '0' ≤ c ∧ c ≤ '9' then some (c.toNat - 48)
  else if 'a' ≤ c ∧ c ≤ 'f' then some (c.toNat - 87)
  else if 'A' ≤ c ∧ c ≤ 'F' then some (c.toNat - 55)
  else none

def hexQuad? (a b c d : Char) : Option Nat := do
  return 4096 * (← hexDigit? a) + 256 * (← hexDigit? b) + 16 * (← hexDigit? c) + (← hexDigit? d)

/-- The character that a one-letter escape stands for. -/
def shortEscape? : Char → Option Char
  | '"' => some '"'
  | '\\' => some '\\'
  | '/' => some '/'
  | 'b' => some '\x08'
  | 'f' => some '\x0c'
  | 'n' => some '\n'
  | 'r' => some '\r'
  | 't' => some '\t'
  | _ => none

/-- Join code points to text. A high and a low surrogate side by side stand for one character, and
any other surrogate makes the text meaningless. -/
def joinUnits : List Nat → Option (List Char)
  | [] => some []
  | u :: rest =>
    if 0xD800 ≤ u ∧ u < 0xDC00 then
      match rest with
      | v :: rest =>
        if 0xDC00 ≤ v ∧ v < 0xE000 then
          (joinUnits rest).map (Char.ofNat (0x10000 + (u - 0xD800) * 0x400 + (v - 0xDC00)) :: ·)
        else none
      | [] => none
    else if 0xDC00 ≤ u ∧ u < 0xE000 then none
    else (joinUnits rest).map (Char.ofNat u :: ·)

/-- The code points up to the closing quote, latest first on top of `seen`, and what follows the
quote. Characters below the blank have to be escaped. -/
def readUnits (seen : List Nat) : List Char → Option (List Nat × List Char)
  | [] => none
  | '"' :: rest => some (seen, rest)
  | '\\' :: 'u' :: a :: b :: c :: d :: rest =>
    match hexQuad? a b c d with
    | some u => readUnits (u :: seen) rest
    | none => none
  | '\\' :: e :: rest =>
    match shortEscape? e with
    | some c => readUnits (c.toNat :: seen) rest
    | none => none
  | c :: rest => if c.toNat < 0x20 then none else readUnits (c.toNat :: seen) rest

def readText (cs : List Char) : Option (Option String × List Char) := do
  let (units, rest) ← readUnits [] cs
  return ((joinUnits units.reverse).map String.ofList, rest)

def ofDigits (ds : List Char) : Nat :=
  ds.foldl (fun n d => 10 * n + (d.toNat - 48)) 0

/-- The exponent part of a numeral, zero if there is none. -/
def readExponent : List Char → Option (Int × List Char)
  | e :: rest =>
    if e == 'e' || e == 'E' then
      let (negative, rest) :=
        match rest with
        | '+' :: rest => (false, rest)
        | '-' :: rest => (true, rest)
        | rest => (false, rest)
      match rest.takeWhile Char.isDigit with
      | [] => none
      | ds =>
        let e : Int := if negative then -(ofDigits ds : Int) else ofDigits ds
        some (e, rest.dropWhile Char.isDigit)
    else some (0, e :: rest)
  | [] => some (0, [])

/-- The rest of a numeral after its whole digits. -/
def readFraction (negative : Bool) (ds : List Char) : List Char → Option (Numeral × List Char)
  | '.' :: rest =>
    match rest.takeWhile Char.isDigit with
    | [] => none
    | fs => do
      let (e, rest) ← readExponent (rest.dropWhile Char.isDigit)
      return (.decimal negative ds fs e, rest)
  | 'e' :: rest => do
    let (e, rest) ← readExponent ('e' :: rest)
    return (.decimal negative ds [] e, rest)
  | 'E' :: rest => do
    let (e, rest) ← readExponent ('E' :: rest)
    return (.decimal negative ds [] e, rest)
  | rest => some (.whole negative (ofDigits ds), rest)

/-- A numeral whose sign has been read. A leading zero stands alone. -/
def readUnsigned (negative : Bool) : List Char → Option (Numeral × List Char)
  | '0' :: rest =>
    match rest with
    | c :: _ => if c.isDigit then none else readFraction negative ['0'] rest
    | [] => readFraction negative ['0'] rest
  | c :: rest =>
    if c.isDigit then
      readFraction negative (c :: rest.takeWhile Char.isDigit) (rest.dropWhile Char.isDigit)
    else none
  | [] => none

mutual

/-- One value at the start of a text without leading blanks. The first argument bounds the number
of tokens. -/
def readValue : Nat → List Char → Option (Json × List Char)
  | 0, _ => none
  | n + 1, cs =>
    match cs with
    | 'n' :: 'u' :: 'l' :: 'l' :: rest => some (.null, rest)
    | 't' :: 'r' :: 'u' :: 'e' :: rest => some (.bool true, rest)
    | 'f' :: 'a' :: 'l' :: 's' :: 'e' :: rest => some (.bool false, rest)
    | '"' :: rest => (readText rest).map fun (s, rest) => (.string s, rest)
    | '[' :: rest =>
      match skipBlank rest with
      | ']' :: rest => some (.array [], rest)
      | rest => (readItems n rest).map fun (l, rest) => (.array l, rest)
    | '{' :: rest =>
      match skipBlank rest with
      | '}' :: rest => some (.object [], rest)
      | rest => (readMembers n rest).map fun (l, rest) => (.object l, rest)
    | '-' :: rest => (readUnsigned true rest).map fun (k, rest) => (.number k, rest)
    | rest => (readUnsigned false rest).map fun (k, rest) => (.number k, rest)

/-- The items of an array, at least one, up to its closing bracket. -/
def readItems : Nat → List Char → Option (List Json × List Char)
  | 0, _ => none
  | n + 1, cs =>
    match readValue n cs with
    | some (v, rest) =>
      match skipBlank rest with
      | ',' :: rest => (readItems n (skipBlank rest)).map fun (l, rest) => (v :: l, rest)
      | ']' :: rest => some ([v], rest)
      | _ => none
    | none => none

/-- The members of an object, at least one, up to its closing brace. -/
def readMembers : Nat → List Char → Option (List (Option String × Json) × List Char)
  | 0, _ => none
  | n + 1, cs =>
    match cs with
    | '"' :: rest =>
      match readText rest with
      | some (name, rest) =>
        match skipBlank rest with
        | ':' :: rest =>
          match readValue n (skipBlank rest) with
          | some (v, rest) =>
            match skipBlank rest with
            | ',' :: rest =>
              (readMembers n (skipBlank rest)).map fun (l, rest) => ((name, v) :: l, rest)
            | '}' :: rest => some ([(name, v)], rest)
            | _ => none
          | none => none
        | _ => none
      | none => none
    | _ => none

end

def read? (s : String) : Option Json :=
  match readValue (s.length + 1) (skipBlank s.toList) with
  | some (v, rest) => if (skipBlank rest).isEmpty then some v else none
  | none => none

end ValueTrace.Json
