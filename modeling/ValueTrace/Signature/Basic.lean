/-!
# Signatures

The types of library functions, and their notation:

    (self, x: T, y: int = ..., *args, **kwargs) -> list[T]

A type is a class name, a class with parameters in brackets, several types joined by `or`, or a
question mark for any type. One capital letter, with or without digits after it, is a type
variable, and `None` names the class `NoneType`.
-/

namespace ValueTrace

/-- A type in a signature. -/
inductive TypeExpr where
  | any
  | name (name : String)
  | var (name : String)
  | generic (name : String) (params : List TypeExpr)
  | union (options : List TypeExpr)
  deriving Inhabited

namespace TypeExpr

def isVarName (name : String) : Bool :=
  match name.toList with
  | c :: cs => c.isUpper && cs.all (·.isDigit)
  | [] => false

def ofName (s : String) : TypeExpr :=
  if isVarName s then .var s else if s == "None" then .name "NoneType" else .name s

def ofOptions (first : TypeExpr) : List TypeExpr → TypeExpr
  | [] => first
  | more => .union (first :: more)

mutual

def classNames : TypeExpr → List String
  | .any | .var _ => []
  | .name s => [s]
  | .generic s params => s :: allClassNames params
  | .union options => allClassNames options

def allClassNames : List TypeExpr → List String
  | [] => []
  | t :: ts => classNames t ++ allClassNames ts

end

mutual

def text : TypeExpr → String
  | .any => "?"
  | .name s | .var s => s
  | .generic s params => s ++ "[" ++ ", ".intercalate (texts params) ++ "]"
  | .union options => " or ".intercalate (texts options)

def texts : List TypeExpr → List String
  | [] => []
  | t :: ts => text t :: texts ts

end

end TypeExpr

/-- A parameter with a name. One without a type takes any value. -/
structure Param where
  name : String
  type : Option TypeExpr := none
  hasDefault : Bool := false
  deriving Inhabited

def Param.text (p : Param) : String :=
  p.name ++ (p.type.elim "" fun t => ": " ++ t.text) ++ if p.hasDefault then " = ..." else ""

/-- One way to call a library function. -/
structure Signature where
  params : List Param := []
  varargs : Option String := none
  kwargs : Option String := none
  result : TypeExpr := .any
  deriving Inhabited

namespace Signature

def minArgs (s : Signature) : Nat := s.params.countP fun p => !p.hasDefault

def maxArgs? (s : Signature) : Option Nat :=
  if s.varargs.isSome then none else some s.params.length

def acceptsCount (s : Signature) (n : Nat) : Bool := s.minArgs ≤ n && s.maxArgs?.all (n ≤ ·)

def paramsText (s : Signature) : String :=
  let parts := s.params.map Param.text ++ (s.varargs.map ("*" ++ ·)).toList ++
    (s.kwargs.map ("**" ++ ·)).toList
  "(" ++ ", ".intercalate parts ++ ")"

def text (s : Signature) : String := s.paramsText ++ " -> " ++ s.result.text

end Signature

end ValueTrace
