/-!
# JSON values

A value keeps what the text says about its numbers, since whether a numeral may stand for an
integer depends on how it is written: `1.0` and `-0` may not.
-/

namespace ValueTrace

/-- A numeral as written: a whole number, or a decimal with a fraction or an exponent. -/
inductive Numeral where
  /-- Digits only, with an optional minus sign. -/
  | whole (negative : Bool) (magnitude : Nat)
  /-- The digits before and after the point, and the power of ten that scales them. -/
  | decimal (negative : Bool) (integral fraction : List Char) (exponent : Int)
  deriving DecidableEq, Repr

/-- A JSON value. A text is `none` when it holds an unpaired surrogate escape, which stands for no
Unicode text. Members keep their order, and a name may be given twice. -/
inductive Json where
  | null
  | bool (b : Bool)
  | number (n : Numeral)
  | string (text : Option String)
  | array (items : List Json)
  | object (members : List (Option String × Json))
  deriving Inhabited, Repr

namespace Json

def text (s : String) : Json := .string (some s)

def nat (n : Nat) : Json := .number (.whole false n)

def int : Int → Json
  | .ofNat n => nat n
  | .negSucc n => .number (.whole true (n + 1))

def record (members : List (String × Json)) : Json :=
  .object (members.map fun (name, v) => (some name, v))

def option (f : α → Json) : Option α → Json
  | some a => f a
  | none => .null

def list (f : α → Json) (l : List α) : Json := .array (l.map f)

def member? (name : String) : Json → Option Json
  | .object members => (members.find? fun m => m.1 == some name).map (·.2)
  | _ => none

end Json

end ValueTrace
