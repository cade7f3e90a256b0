import ValueTrace.Machine.Attribute

/-!
# Calls

A call tries each value that may be in the variable that is called. A try succeeds with the node
after the call and a variable for the result, or it fails. Only a call of which every try fails is
reported.
-/

namespace ValueTrace

/-- The arguments of a call. Those after a star are a sequence of unknown length, and those after
two stars are a mapping of unknown keys. -/
structure CallArgs where
  positional : List VarId := []
  named : List (String × VarId) := []
  star : Option VarId := none
  starStar : Option VarId := none
  deriving Repr, Inhabited

namespace CallArgs

def withReceiver (a : CallArgs) (receiver : VarId) : CallArgs :=
  { a with positional := receiver :: a.positional }

def count (a : CallArgs) : Nat := a.positional.length + a.named.length

def isOpen (a : CallArgs) : Bool := a.star.isSome || a.starStar.isSome

end CallArgs

/-- Why a value could not be called. -/
inductive CallFailure where
  | wrongCount (function expected : String) (actual : Nat)
  | wrongTypes (function expected actual : String)
  | unknownKeywords (function : String) (keywords : List String)
  | duplicateKeyword (function keyword : String)
  | missingParameter (function parameter : String)
  | notCallable (type : String)
  deriving DecidableEq, Repr

namespace CallFailure

/-- The kind of finding that a failure is reported as. -/
def kind : CallFailure → FindingKind
  | .wrongCount .. => .wrongArgCount
  | .wrongTypes .. => .wrongArgTypes
  | .unknownKeywords .. => .wrongKeywordArgs
  | .duplicateKeyword .. => .duplicateKeywordArgument
  | .missingParameter .. => .missingParameter
  | .notCallable _ => .notCallable

/-- The text of a failure. -/
def message : CallFailure → String
  | .wrongCount function expected actual =>
    s!"Function {function} was called with {actual} args instead of expected {expected}"
  | .wrongTypes function _ _ => s!"Function {function} was called with the wrong arguments"
  | .unknownKeywords function keywords =>
    "Invalid keyword arguments (" ++ ", ".intercalate keywords ++ s!") to function {function}"
  | .duplicateKeyword function keyword =>
    s!"function {function} got multiple values for keyword argument '{keyword}'"
  | .missingParameter function parameter =>
    s!"Missing parameter '{parameter}' in call to function {function}"
  | .notCallable type => s!"'{type}' object is not callable"

def details : CallFailure → Option String
  | .wrongTypes _ expected actual => some s!"Expected: {expected}\nActually passed: {actual}"
  | _ => none

end CallFailure

def arityText (least : Nat) (most : Option Nat) : String :=
  match most with
  | some most => if most == least then s!"{least}" else s!"{least}-{most}"
  | none => s!"at least {least}"

/-- Steps of a call, which may fail without an end of the analysis. -/
abbrev Attempt := ExceptT CallFailure Analysis

/-- A way to call whatever is in a variable. -/
abbrev Caller := NodeId → VarId → CallArgs → Attempt (NodeId × VarId)

namespace Analysis

def typeNames (v : VarId) (n : NodeId) : Analysis String := do
  let store := (← get).store
  return " or ".intercalate ((← dataAt v n).map store.typeName).eraseDups

def textIn (v : VarId) (n : NodeId) : Analysis String := do
  let store := (← get).store
  return ((← dataAt v n).findSome? store.text?).getD "<class>"

/-- Call each value in a variable, given a way to call one. Results are justified by the binding of
the value that was called. -/
def callEach (call : NodeId → DataId → BindingId → CallArgs → Attempt (NodeId × VarId)) : Caller :=
  fun n func args => ExceptT.mk do
    let result ← newVariable "return"
    let tries ← (← visible func n).mapM fun b => do
      return (b, ← (call n (← dataOf b) b args).run)
    let done := tries.filterMap fun
      | (b, .ok (stop, ret)) => some (b, stop, ret)
      | (_, .error _) => none
    if done.isEmpty then
      match tries with
      | (_, .error e) :: _ => return .error e
      | _ => return .ok (n, result)
    let stop ← joinNodes (done.map (·.2.1))
    done.forM fun (b, after, ret) => do
      (← visible ret after).forM fun r => do bind result (← dataOf r) [r, b] stop
    return .ok (stop, result)

/-- Call what is in a variable. A failure is reported and gives a value that the analysis has given
up on. -/
def callOrReport (call : Caller) (n : NodeId) (func : VarId) (args : CallArgs) :
    Analysis (NodeId × VarId) := do
  match ← (call n func args).run with
  | .ok done => return done
  | .error e =>
    report e.kind e.message e.details [func]
    return (n, ← newUnsolvable n)

def callQuietly (call : Caller) (n : NodeId) (func : VarId) (args : CallArgs) :
    Analysis (NodeId × VarId) := do
  match ← (call n func args).run with
  | .ok done => return done
  | .error _ => return (n, ← newVariable "failed call")

def callMethod (call : Caller) (n : NodeId) (obj : VarId) (name : String) (args : List VarId) :
    Analysis (NodeId × VarId) := do
  callOrReport call n (← loadAttribute n obj name) { positional := args }

end Analysis

end ValueTrace
