import ValueTrace.Json.Basic

/-! Write JSON text: on one line, or laid out with two blanks for each level. -/

namespace ValueTrace.Json

def hexChar (n : Nat) : Char := Nat.digitChar (n % 16)

/-- One character inside quotes. Quote, backslash and the characters below the blank are escaped. -/
def escapeChar (c : Char) : List Char :=
  if c = '"' then ['\\', '"']
  else if c = '\\' then ['\\', '\\']
  else if c = '\x08' then ['\\', 'b']
  else if c = '\x0c' then ['\\', 'f']
  else if c = '\n' then ['\\', 'n']
  else if c = '\r' then ['\\', 'r']
  else if c = '\t' then ['\\', 't']
  else if c.toNat < 0x20 then ['\\', 'u', '0', '0', hexChar (c.toNat / 16), hexChar c.toNat]
  else [c]

def quoteChars (s : String) : List Char :=
  '"' :: s.toList.flatMap escapeChar ++ ['"']

def Numeral.chars : Numeral → List Char
  | .whole negative n => (if negative then ['-'] else []) ++ (Nat.repr n).toList
  | .decimal negative ds fs e =>
    (if negative then ['-'] else []) ++ ds ++ (if fs.isEmpty then [] else '.' :: fs) ++
      (if e = 0 then [] else 'e' :: (if e < 0 then ['-'] else ['+']) ++ (Nat.repr e.natAbs).toList)

mutual

/-- A value on one line, without blanks. -/
def compactChars : Json → List Char
  | .null => ['n', 'u', 'l', 'l']
  | .bool true => ['t', 'r', 'u', 'e']
  | .bool false => ['f', 'a', 'l', 's', 'e']
  | .number n => Numeral.chars n
  | .string s => quoteChars (s.getD "")
  | .array l => '[' :: compactItems l ++ [']']
  | .object l => '{' :: compactMembers l ++ ['}']

def compactItems : List Json → List Char
  | [] => []
  | [v] => compactChars v
  | v :: l => compactChars v ++ ',' :: compactItems l

def compactMembers : List (Option String × Json) → List Char
  | [] => []
  | [(name, v)] => quoteChars (name.getD "") ++ ':' :: compactChars v
  | (name, v) :: l => quoteChars (name.getD "") ++ ':' :: compactChars v ++ ',' :: compactMembers l

end

def compact (v : Json) : String := String.ofList (compactChars v)

def newline (depth : Nat) : List Char := '\n' :: List.replicate (2 * depth) ' '

mutual

/-- A value laid out over lines, where the line that it starts on is `depth` levels deep. -/
def layoutChars (depth : Nat) : Json → List Char
  | .array [] => ['[', ']']
  | .array l => '[' :: layoutItems (depth + 1) l ++ newline depth ++ [']']
  | .object [] => ['{', '}']
  | .object l => '{' :: layoutMembers (depth + 1) l ++ newline depth ++ ['}']
  | .null => ['n', 'u', 'l', 'l']
  | .bool true => ['t', 'r', 'u', 'e']
  | .bool false => ['f', 'a', 'l', 's', 'e']
  | .number n => Numeral.chars n
  | .string s => quoteChars (s.getD "")

def layoutItems (depth : Nat) : List Json → List Char
  | [] => []
  | [v] => newline depth ++ layoutChars depth v
  | v :: l => newline depth ++ layoutChars depth v ++ ',' :: layoutItems depth l

def layoutMembers (depth : Nat) : List (Option String × Json) → List Char
  | [] => []
  | [(name, v)] => newline depth ++ quoteChars (name.getD "") ++ ':' :: ' ' :: layoutChars depth v
  | (name, v) :: l =>
    newline depth ++ quoteChars (name.getD "") ++ ':' :: ' ' :: layoutChars depth v ++
      ',' :: layoutMembers depth l

end

def layout (v : Json) : String := String.ofList (layoutChars 0 v)

end ValueTrace.Json
