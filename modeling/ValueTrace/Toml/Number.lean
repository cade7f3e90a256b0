import ValueTrace.Toml.Basic
import ValueTrace.Number

/-! Numbers in TOML text. First the outline of a numeral is checked: where its sign, its point and
its underscores stand. Only then is its value computed. A numeral whose outline is right and that
still has no value, such as `1_a`, `0x` or `1e999`, is kept as malformed. -/

namespace ValueTrace.Toml

def hexValue? (c : Char) : Option Nat :=
  if c.isDigit then some (c.toNat - 48)
  else if 'a' ≤ c ∧ c ≤ 'f' then some (c.toNat - 87)
  else if 'A' ≤ c ∧ c ≤ 'F' then some (c.toNat - 55)
  else none

def isDigitOf (base : Nat) (c : Char) : Bool := (hexValue? c).any (· < base)

def ofDigits (base : Nat) (ds : List Char) : Nat :=
  ds.foldl (fun n d => base * n + (hexValue? d).getD 0) 0

def splitSign : List Char → Bool × List Char
  | '+' :: cs => (false, cs)
  | '-' :: cs => (true, cs)
  | cs => (false, cs)

/-- Whether a digit stands on both sides of each underscore. The first argument tells whether what
stands before the text counts for a digit. -/
def isSeparated (isDigit : Char → Bool) (before : Bool) : List Char → Bool
  | [] => true
  | '_' :: cs => before && cs.head?.any isDigit && isSeparated isDigit false cs
  | c :: cs => isSeparated isDigit (isDigit c) cs

/-- The integer that digits with underscores between them write, malformed without digits, with
other characters among them, or beyond 128 bits. -/
def ofNumeral (written : List Char) (negative : Bool) (base : Nat) (cs : List Char) : Toml :=
  let ds := cs.filter (· != '_')
  let n : Int := if negative then -ofDigits base ds else ofDigits base ds
  if !ds.isEmpty && ds.all (isDigitOf base) && -Word.half128 ≤ n && n < Word.bound128 then
    .integer n
  else .malformed (String.ofList written)

def based? (written : List Char) (base : Nat) (cs : List Char) : Option Toml :=
  if cs.all (fun c => isDigitOf base c || c == '_') && isSeparated (isDigitOf base) false cs then
    some (ofNumeral written false base cs)
  else none

/-- A decimal integer after its sign. A leading zero stands alone. What follows the first underscore
is no part of the outline, save that underscores have hexadecimal digits around them. -/
def decimal? (written : List Char) (signed negative : Bool) (cs : List Char) : Option Toml :=
  let isPlain := match cs, cs.dropWhile Char.isDigit with
    | [], _ => false
    | '0' :: _ :: _, _ => false
    | _, [] => true
    | _, c :: _ => c == '_'
  if isPlain && isSeparated (isDigitOf 16) signed cs then
    some (ofNumeral written negative 10 cs)
  else none

def spanDigits (cs : List Char) : List Char × List Char :=
  let inDigits (c : Char) : Bool := c.isDigit || c == '_'
  ((cs.takeWhile inDigits).filter (· != '_'), cs.dropWhile inDigits)

def readFraction : List Char → Option (List Char × List Char)
  | '.' :: cs =>
    match spanDigits cs with
    | ([], _) => none
    | found => some found
  | cs => some ([], cs)

/-- The exponent that ends a numeral, zero if there is none. -/
def exponent? : List Char → Option Int
  | [] => some 0
  | mark :: cs =>
    let (negative, cs) := splitSign cs
    match spanDigits cs with
    | ([], _) => none
    | (ds, rest) =>
      if (mark == 'e' || mark == 'E') && rest.isEmpty then
        some (if negative then -(ofDigits 10 ds : Int) else ofDigits 10 ds)
      else none

/-- The least number that double precision rounds to infinity: it lies half a unit above the
largest double. -/
def overflowBound : Nat := (Nat.pow 2 54 - 1) * Nat.pow 2 970

/-- Whether `m · 10 ^ e` is too large for double precision. By the count of its digits alone a
number of more than 309 of them is, and one of less is not. -/
def overflows (m : Nat) (e : Int) : Bool :=
  let size : Int := (Nat.toDigits 10 m).length + e
  if m == 0 || size < 309 then false
  else if 309 < size then true
  else overflowBound * Nat.pow 10 (-e).toNat ≤ m * Nat.pow 10 e.toNat

/-- A number with a fraction or an exponent, after its sign. Of several digits before the point the
first is not zero. -/
def float? (written : List Char) (signed : Bool) (cs : List Char) : Option Toml := do
  let (whole, rest) := spanDigits cs
  let (fraction, rest) ← readFraction rest
  let e ← exponent? rest
  if whole.isEmpty || (cs.head? == some '0' && 1 < whole.length)
      || !isSeparated Char.isDigit signed cs then
    none
  else if overflows (ofDigits 10 (whole ++ fraction)) (e - fraction.length) then
    some (.malformed (String.ofList written))
  else some (.float (String.ofList written))

/-- The number that a plain value writes, if its outline is that of a number. -/
def number? (cs : List Char) : Option Toml :=
  match cs with
  | '0' :: 'x' :: ds => based? cs 16 ds
  | '0' :: 'o' :: ds => based? cs 8 ds
  | '0' :: 'b' :: ds => based? cs 2 ds
  | _ =>
    let (negative, body) := splitSign cs
    let signed := body.length < cs.length
    if body == ['i', 'n', 'f'] || body == ['n', 'a', 'n'] then some (.float (String.ofList cs))
    else if body.any fun c => c == '.' || c == 'e' || c == 'E' then float? cs signed body
    else decimal? cs signed negative body

end ValueTrace.Toml
