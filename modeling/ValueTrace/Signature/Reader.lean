import ValueTrace.Signature.Basic
import ValueTrace.Text

/-! Read signatures. The longest piece that starts at a place is one token, and a lone `or` is no
name. Errors count tokens, or bytes where a character starts no token. -/

namespace ValueTrace

/-- A piece of the notation. -/
inductive Token where
  | parenOpen | parenClose | bracketOpen | bracketClose | comma | colon | equals | ellipsis | arrow
  | doubleStar | star | question | or
  | name (s : String)
  deriving DecidableEq, Repr

namespace Token

def startsName (c : Char) : Bool := c.isAlpha || c == '_'

def inName (c : Char) : Bool := c.isAlphanum || c == '_' || c == '.'

def isBlank (c : Char) : Bool :=
  c == ' ' || c == '\t' || c == '\r' || c == '\n' || c == '\x0c'

/-- The token at the start of a text, with how many characters it takes. -/
def first? : List Char → Option (Token × Nat)
  | '(' :: _ => some (.parenOpen, 1)
  | ')' :: _ => some (.parenClose, 1)
  | '[' :: _ => some (.bracketOpen, 1)
  | ']' :: _ => some (.bracketClose, 1)
  | ',' :: _ => some (.comma, 1)
  | ':' :: _ => some (.colon, 1)
  | '=' :: _ => some (.equals, 1)
  | '.' :: '.' :: '.' :: _ => some (.ellipsis, 3)
  | '-' :: '>' :: _ => some (.arrow, 2)
  | '*' :: '*' :: _ => some (.doubleStar, 2)
  | '*' :: _ => some (.star, 1)
  | '?' :: _ => some (.question, 1)
  | c :: cs =>
    if startsName c then
      let s := c :: cs.takeWhile inName
      some (if s = ['o', 'r'] then .or else .name (String.ofList s), s.length)
    else none
  | [] => none

/-- The tokens of a text, or the byte at which no token starts. Characters of the current token are
passed over, `skip` of them. -/
def scan (offset skip : Nat) : List Char → Except Nat (List Token)
  | [] => .ok []
  | c :: cs =>
    if 0 < skip then scan (offset + c.utf8Size) (skip - 1) cs
    else if isBlank c then scan (offset + c.utf8Size) 0 cs
    else
      match first? (c :: cs) with
      | some (t, n) => (scan (offset + c.utf8Size) (n - 1) cs).map (t :: ·)
      | none => .error offset

end Token

/-- What should have come next in a signature. -/
inductive Wanted where
  | parenOpen | bracketClose | commaOrClose | ellipsis | arrow | name
  deriving DecidableEq, Repr

/-- How an error names what it wanted. -/
def Wanted.label : Wanted → String
  | .parenOpen => "'('"
  | .bracketClose => "']'"
  | .commaOrClose => "',' or ')'"
  | .ellipsis => "'...'"
  | .arrow => "'->'"
  | .name => "a name"

/-- Why a text is no signature. -/
inductive SignatureError where
  | unexpectedCharacter (offset : Nat)
  | wanted (what : Wanted) (token : Nat)
  | duplicateParam (name : String) (token : Nat)
  | trailing (token : Nat)
  deriving DecidableEq, Repr

/-- The text of an error in the signature `s`. -/
def SignatureError.message (s : String) (e : SignatureError) : String :=
  let shown := Text.quoted s
  let cause := match e with
    | .unexpectedCharacter offset => s!"unexpected character at offset {offset}"
    | .wanted what token => s!"expected {what.label} at token {token}"
    | .duplicateParam name token => s!"duplicate parameter {name} at token {token}"
    | .trailing token => s!"trailing input at token {token}"
  s!"bad signature {shown}: {cause}"

namespace Signature

/-- A step of reading. An error is a function of the position, and comes with how many tokens were
left. -/
abbrev Reading := Except ((Nat → SignatureError) × Nat)

def refuse (what : Wanted) (ts : List Token) : Reading (α × List Token) :=
  .error (.wanted what, ts.length)

def readName : List Token → Reading (String × List Token)
  | .name s :: ts => .ok (s, ts)
  | ts => refuse .name ts

def readToken (t : Token) (what : Wanted) : List Token → Reading (Unit × List Token)
  | u :: ts => if u = t then .ok ((), ts) else refuse what (u :: ts)
  | [] => refuse what []

mutual

def readType : Nat → List Token → Reading (TypeExpr × List Token)
  | 0, ts => refuse .name ts
  | n + 1, ts => do
    let (first, ts) ← readAtom n ts
    let (more, ts) ← readOptions n ts
    return (.ofOptions first more, ts)

def readOptions : Nat → List Token → Reading (List TypeExpr × List Token)
  | n + 1, .or :: ts => do
    let (t, ts) ← readAtom n ts
    let (more, ts) ← readOptions n ts
    return (t :: more, ts)
  | _, ts => .ok ([], ts)

/-- A type that is no union. -/
def readAtom : Nat → List Token → Reading (TypeExpr × List Token)
  | _, .question :: ts => .ok (.any, ts)
  | n + 1, .name s :: .bracketOpen :: ts => do
    let (p, ts) ← readType n ts
    let (more, ts) ← readTypeParams n ts
    return (.generic s (p :: more), ts)
  | _, .name s :: ts => .ok (.ofName s, ts)
  | _, ts => refuse .name ts

/-- Further parameters of a type, each after a comma, and the closing bracket. -/
def readTypeParams : Nat → List Token → Reading (List TypeExpr × List Token)
  | n + 1, .comma :: ts => do
    let (t, ts) ← readType n ts
    let (more, ts) ← readTypeParams n ts
    return (t :: more, ts)
  | _, .bracketClose :: ts => .ok ([], ts)
  | _, ts => refuse .bracketClose ts

end

def readParamType : List Token → Reading (Option TypeExpr × List Token)
  | .colon :: ts => do
    let (t, ts) ← readType (ts.length + 2) ts
    return (some t, ts)
  | ts => .ok (none, ts)

def readDefault : List Token → Reading (Bool × List Token)
  | .equals :: ts => do
    let ((), ts) ← readToken .ellipsis .ellipsis ts
    return (true, ts)
  | ts => .ok (false, ts)

/-- One parameter, added to those before it. -/
def readParam (sig : Signature) : List Token → Reading (Signature × List Token)
  | .doubleStar :: ts => do
    let (name, ts) ← readName ts
    return ({ sig with kwargs := some name }, ts)
  | .star :: ts => do
    let (name, ts) ← readName ts
    return ({ sig with varargs := some name }, ts)
  | ts => do
    let (name, ts) ← readName ts
    let (type, ts) ← readParamType ts
    let (hasDefault, ts) ← readDefault ts
    if sig.params.any (·.name == name) then throw (SignatureError.duplicateParam name, ts.length)
    return ({ sig with params := sig.params ++ [{ name, type, hasDefault }] }, ts)

/-- The parameters up to the closing parenthesis, at least one. The first argument bounds their
number. -/
def readParams : Nat → Signature → List Token → Reading (Signature × List Token)
  | 0, _, ts => refuse .name ts
  | n + 1, sig, ts => do
    let (sig, ts) ← readParam sig ts
    match ts with
    | .parenClose :: ts => .ok (sig, ts)
    | .comma :: ts => readParams n sig ts
    | ts => refuse .commaOrClose ts

/-- A signature. -/
def read (ts : List Token) : Reading (Signature × List Token) := do
  let ((), ts) ← readToken .parenOpen .parenOpen ts
  let (sig, ts) ← match ts with
    | .parenClose :: ts => .ok ({}, ts)
    | ts => readParams (ts.length + 1) {} ts
  let ((), ts) ← readToken .arrow .arrow ts
  let (result, ts) ← readType (ts.length + 2) ts
  return ({ sig with result }, ts)

/-- The signature that a text writes. -/
def parse (s : String) : Except SignatureError Signature :=
  match Token.scan 0 0 s.toList with
  | .error offset => .error (.unexpectedCharacter offset)
  | .ok ts =>
    match read ts with
    | .error (cause, left) => .error (cause (ts.length - left))
    | .ok (sig, []) => .ok sig
    | .ok (_, rest) => .error (.trailing (ts.length - rest.length))

end Signature

end ValueTrace
