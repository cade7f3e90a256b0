import ValueTrace.Toml.Number
import ValueTrace.Toml.Tree

/-! Read TOML text. A key has at most 80 parts, and arrays and tables in braces may stand 80
deep. -/

namespace ValueTrace.Toml

def skipBlank (cs : List Char) : List Char := cs.dropWhile fun c => c == ' ' || c == '\t'

def inComment (c : Char) : Bool := c == '\t' || (0x20 ≤ c.toNat && c != '\x7f')

def skipComment : List Char → List Char
  | '#' :: cs => cs.dropWhile inComment
  | cs => cs

def lineBreak? : List Char → Option (List Char)
  | '\n' :: cs => some cs
  | '\r' :: '\n' :: cs => some cs
  | _ => none

/-- The rest of a text after blanks, comments and line breaks. The first argument bounds the number
of lines. -/
def skipLines : Nat → List Char → List Char
  | 0, cs => cs
  | n + 1, cs =>
    let cs := skipComment (skipBlank cs)
    match lineBreak? cs with
    | some rest => skipLines n rest
    | none => cs

def skipSpace (cs : List Char) : List Char := skipLines (cs.length + 1) cs

def readNumbered (count : Nat) (cs : List Char) : Option (Char × List Char) := do
  let digits ← (cs.take count).mapM hexValue?
  if digits.length < count then none
  let n := digits.foldl (fun n d => 16 * n + d) 0
  if n < 0xD800 ∨ (0xE000 ≤ n ∧ n < 0x110000) then some (Char.ofNat n, cs.drop count) else none

/-- The character of an escape whose backslash has been read. -/
def readEscape : List Char → Option (Char × List Char)
  | 'b' :: cs => some ('\x08', cs)
  | 't' :: cs => some ('\t', cs)
  | 'n' :: cs => some ('\n', cs)
  | 'f' :: cs => some ('\x0c', cs)
  | 'r' :: cs => some ('\r', cs)
  | 'e' :: cs => some ('\x1b', cs)
  | '"' :: cs => some ('"', cs)
  | '\\' :: cs => some ('\\', cs)
  | 'x' :: cs => readNumbered 2 cs
  | 'u' :: cs => readNumbered 4 cs
  | 'U' :: cs => readNumbered 8 cs
  | _ => none

def inText (c : Char) : Bool := c == '\t' || (0x20 ≤ c.toNat && c != '\x7f')

def readLiteral (cs : List Char) : Option (String × List Char) :=
  match cs.dropWhile fun c => inText c && c != '\'' with
  | '\'' :: rest => some (String.ofList (cs.takeWhile fun c => inText c && c != '\''), rest)
  | _ => none

/-- A text between double quotation marks, after the opening one. -/
def readBasic : Nat → List Char → List Char → Option (String × List Char)
  | 0, _, _ => none
  | n + 1, seen, cs =>
    match cs with
    | '"' :: rest => some (String.ofList seen.reverse, rest)
    | '\\' :: rest =>
      match readEscape rest with
      | some (c, rest) => readBasic n (c :: seen) rest
      | none => none
    | c :: rest => if inText c then readBasic n (c :: seen) rest else none
    | [] => none

/-- The rest of a text after a backslash at the end of a line, if that is what it is: blanks and
line breaks, with at least one line break. -/
def joinLine? (cs : List Char) : Option (List Char) :=
  match lineBreak? (skipBlank cs) with
  | some rest => some (skip (rest.length + 1) rest)
  | none => none
where
  /-- Pass over blanks and line breaks. -/
  skip : Nat → List Char → List Char
    | 0, cs => cs
    | n + 1, cs =>
      match lineBreak? (skipBlank cs) with
      | some rest => skip n rest
      | none => skipBlank cs

/-- A text over several lines, after the opening marks. Line breaks are kept as they are written.
The closing marks may follow one or two marks that belong to the text. -/
def readLong (mark : Char) : Nat → List Char → List Char → Option (String × List Char)
  | 0, _, _ => none
  | n + 1, seen, cs =>
    match cs with
    | '\n' :: rest => readLong mark n ('\n' :: seen) rest
    | '\r' :: '\n' :: rest => readLong mark n ('\n' :: '\r' :: seen) rest
    | c :: rest =>
      if c == mark then
        let run := (cs.takeWhile (· == mark)).length
        if 6 ≤ run then none
        else if 3 ≤ run then
          some (String.ofList (List.replicate (run - 3) mark ++ seen).reverse, cs.drop run)
        else readLong mark n (mark :: seen) rest
      else if c == '\\' && mark == '"' then
        match joinLine? rest with
        | some rest => readLong mark n seen rest
        | none =>
          match readEscape rest with
          | some (c, rest) => readLong mark n (c :: seen) rest
          | none => none
      else if inText c then readLong mark n (c :: seen) rest
      else none
    | [] => none

def dropBreak (cs : List Char) : List Char := (lineBreak? cs).getD cs

def readText : List Char → Option (String × List Char)
  | '"' :: '"' :: '"' :: cs => readLong '"' (cs.length + 1) [] (dropBreak cs)
  | '\'' :: '\'' :: '\'' :: cs => readLong '\'' (cs.length + 1) [] (dropBreak cs)
  | '"' :: cs => readBasic (cs.length + 1) [] cs
  | '\'' :: cs => readLiteral cs
  | _ => none

def inKey (c : Char) : Bool := c.isAlphanum || c == '_' || c == '-'

/-- One part of a key. -/
def readKeyPart : List Char → Option (String × List Char)
  | '"' :: cs => readBasic (cs.length + 1) [] cs
  | '\'' :: cs => readLiteral cs
  | cs =>
    match cs.takeWhile inKey with
    | [] => none
    | part => some (String.ofList part, cs.dropWhile inKey)

/-- A key of one or more parts with points between them. The first argument bounds their number. -/
def readParts : Nat → List Char → Option (List String × List Char)
  | 0, _ => none
  | n + 1, cs => do
    let (part, rest) ← readKeyPart cs
    match skipBlank rest with
    | '.' :: rest => do
      let (more, rest) ← readParts n (skipBlank rest)
      return (part :: more, rest)
    | rest => return ([part], rest)

def partLimit : Nat := 80

def readKey (cs : List Char) : Option (List String × List Char) := readParts partLimit cs

def dividers : List Char := ['=', ',', '[', ']', '\x7b', '\x7d', '#', ' ', '\t', '\r', '\n']

def inPlain (c : Char) : Bool := !dividers.contains c

/-- A plain value. A date may be followed by a blank and a time. -/
def readPlain (cs : List Char) : Option (Toml × List Char) :=
  let word := cs.takeWhile inPlain
  let rest := cs.dropWhile inPlain
  let (word, rest) :=
    match Moment.readDate word, rest with
    | some (_, []), ' ' :: d :: more =>
      if d.isDigit then
        (word ++ ' ' :: (d :: more).takeWhile inPlain, (d :: more).dropWhile inPlain)
      else (word, rest)
    | _, _ => (word, rest)
  if word == ['t', 'r', 'u', 'e'] then some (.boolean true, rest)
  else if word == ['f', 'a', 'l', 's', 'e'] then some (.boolean false, rest)
  else
    match Moment.read? word with
    | some m => some (.moment m, rest)
    | none => (number? word).map (·, rest)

def depthLimit : Nat := 80

mutual

/-- A value. The first argument bounds the number of tokens, the second the depth. -/
def readValue : Nat → Nat → List Char → Option (Toml × List Char)
  | 0, _, _ => none
  | n + 1, depth, cs =>
    match cs with
    | '[' :: rest =>
      if depth == 0 then none
      else (readItems n (depth - 1) (skipSpace rest)).map fun (l, rest) => (.array l, rest)
    | '\x7b' :: rest =>
      if depth == 0 then none
      else (readEntries n (depth - 1) [] (skipSpace rest)).map fun (es, rest) =>
        (.table (Tree.finishEntries es), rest)
    | c :: _ =>
      if c == '"' || c == '\'' then (readText cs).map fun (s, rest) => (.string s, rest)
      else readPlain cs
    | [] => none

/-- The items of an array up to its closing bracket. A comma may follow the last one. -/
def readItems : Nat → Nat → List Char → Option (List Toml × List Char)
  | 0, _, _ => none
  | n + 1, depth, cs =>
    match cs with
    | ']' :: rest => some ([], rest)
    | cs =>
      match readValue n depth cs with
      | some (v, rest) =>
        match skipSpace rest with
        | ',' :: rest => (readItems n depth (skipSpace rest)).map fun (l, rest) => (v :: l, rest)
        | ']' :: rest => some ([v], rest)
        | _ => none
      | none => none

/-- The entries of a table in braces, on top of those before. Comments and line breaks may stand
anywhere but inside a key, and a comma may follow the last entry. -/
def readEntries : Nat → Nat → Tree.Entries → List Char → Option (Tree.Entries × List Char)
  | 0, _, _, _ => none
  | n + 1, depth, es, cs =>
    match cs with
    | '\x7d' :: rest => some (es, rest)
    | cs =>
      match readKey cs with
      | some (key, rest) =>
        match skipSpace rest with
        | '=' :: rest =>
          match readValue n depth (skipSpace rest) with
          | some (v, rest) =>
            match Tree.assign es v key with
            | some es =>
              match skipSpace rest with
              | ',' :: rest => readEntries n depth es (skipSpace rest)
              | '\x7d' :: rest => some (es, rest)
              | _ => none
            | none => none
          | none => none
        | _ => none
      | none => none

end

/-- A document in the making: its entries, and the path of the table that is open. -/
structure Document where
  entries : Tree.Entries := []
  path : List String := []

def readHeader (close : List Char) (cs : List Char) : Option (List String × List Char) := do
  let (key, rest) ← readKey (skipBlank cs)
  if close.isPrefixOf rest then some (key, rest.drop close.length) else none

/-- One header or entry. -/
def readStatement (d : Document) : List Char → Option (Document × List Char)
  | '[' :: '[' :: cs => do
    let (key, rest) ← readHeader [']', ']'] cs
    return (⟨← Tree.openItem d.entries key, key⟩, rest)
  | '[' :: cs => do
    let (key, rest) ← readHeader [']'] cs
    return (⟨← Tree.openTable d.entries key, key⟩, rest)
  | cs => do
    let (key, rest) ← readKey cs
    match rest with
    | '=' :: rest => do
      let (v, rest) ← readValue (rest.length + 1) depthLimit (skipBlank rest)
      return ({ d with entries := ← Tree.assignAt d.entries key v d.path }, rest)
    | _ => none

/-- All statements, one to a line. The first argument bounds the number of lines. -/
def readStatements : Nat → Document → List Char → Option Document
  | 0, _, _ => none
  | n + 1, d, cs =>
    match skipSpace cs with
    | [] => some d
    | cs =>
      match readStatement d cs with
      | some (d, rest) =>
        match skipComment (skipBlank rest) with
        | [] => some d
        | rest =>
          match lineBreak? rest with
          | some rest => readStatements n d rest
          | none => none
      | none => none

def read? (s : String) : Option Toml :=
  let cs := match s.toList with
    | '\uFEFF' :: cs => cs
    | cs => cs
  (readStatements (cs.length + 1) {} cs).map fun d => .table (Tree.finishEntries d.entries)

end ValueTrace.Toml
