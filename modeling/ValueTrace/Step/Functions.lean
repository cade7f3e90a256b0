import ValueTrace.Machine.Class
import ValueTrace.Step.Containers
import ValueTrace.Step.Names

/-! Instructions that call, and that make functions and classes. -/

namespace ValueTrace

def pairUp : List α → List (α × α)
  | a :: b :: rest => (a, b) :: pairUp rest
  | _ => []

def Store.code? (s : Store) (d : DataId) : Option PlacedCode :=
  match (s.object? d).bind (·.payload) with
  | some (.code c) => some c
  | _ => none

namespace Analysis

def tupleItems (v : VarId) (n : NodeId) : Analysis (Option (List VarId)) := do
  match ← dataAt v n with
  | [d] => return (← get).store.tupleItems? d
  | _ => return none

def namedPairs (n : NodeId) (vs : List VarId) : Analysis (List (String × VarId)) :=
  (pairUp vs).mapM fun (name, v) => do return (← textIn name n, v)

/-- Pop the arguments of a call and what is called, and push the result. The argument of the
instruction holds the number of positional arguments in its lowest byte, and that of named ones in
the next. -/
def callOperands (call : Caller) (counts : Nat) (star starStar : Option VarId) (p : Path) :
    Analysis Path := do
  let (pairs, p) ← p.popN (2 * (counts / 256 % 256))
  let named ← namedPairs p.node pairs
  let (positional, p) ← p.popN (counts % 256)
  let (func, p) ← p.pop
  let surplus ← match star with
    | some v => tupleItems v p.node
    | none => pure none
  let args : CallArgs := match surplus with
    | some items => { positional := positional ++ items, named, starStar }
    | none => { positional, named, star, starStar }
  let (n, result) ← callOrReport call p.node func args
  return { p with node := n }.push result

/-- Pop the sequence of surplus arguments, the mapping of named ones, or both, then call. -/
def callWith (call : Caller) (i : Instruction) (hasStar hasStarStar : Bool) (p : Path) :
    Analysis Path := do
  let counts ← argument i
  let (starStar, p) ← popIf hasStarStar p
  let (star, p) ← popIf hasStar p
  callOperands call counts star starStar p
where
  /-- Pop an operand if there is one. -/
  popIf (present : Bool) (p : Path) : Analysis (Option VarId × Path) := do
    if present then
      let (v, p) ← p.pop
      return (some v, p)
    else return (none, p)

/-- The class that a parameter is annotated with. Anything but a single class is reported, unless
it is a value of which nothing is known. -/
def annotatedClass (n : NodeId) (name : String) (v : VarId) : Analysis (Option DataId) := do
  let store := (← get).store
  let single := match ← dataAt v n with
    | [d] => some d
    | _ => none
  match single with
  | some d =>
    if (store.class? d).isSome then return some d
    if (store.get d).isOpaque then return none
  | none => pure ()
  report .annotationInvalid s!"Invalid type annotation for parameter '{name}'"
    (some "Must be a single class") [v]
  return none

/-- Pop a tuple of names and as many values less one, which are classes of parameters. -/
def popAnnotated (count : Nat) (p : Path) : Analysis (Std.TreeMap String DataId × Path) := do
  if count = 0 then return (∅, p)
  let (names, p) ← p.pop
  let (values, p) ← p.popN (count - 1)
  let names ← ((← tupleItems names p.node).getD []).mapM fun v => textIn v p.node
  let classes ← (names.zip values).foldlM (fun classes (name, v) => do
    if name == "return" then return classes
    match ← annotatedClass p.node name v with
    | some d => return classes.insert name d
    | none => return classes) ∅
  return (classes, p)

/-- What is popped below the code of a function. -/
structure FunctionParts where
  closure : List VarId := []
  annotations : Std.TreeMap String DataId := ∅
  kwDefaults : Members := ∅
  defaults : List VarId := []

/-- Pop the parts of a function. In the third version of the language the argument of the
instruction holds the number of defaults in its lowest byte, that of defaults given by keyword in
the next, and that of annotations above. -/
def popFunctionParts (counts : Nat) (hasClosure : Bool) (p : Path) :
    Analysis (FunctionParts × Path) := do
  let third := (← get).options.isThird
  let (closure, p) ← if hasClosure then do
      let (cells, p) ← p.pop
      pure ((← tupleItems cells p.node).getD [], p)
    else pure ([], p)
  if third then
    let (annotations, p) ← popAnnotated (counts / 65536) p
    let (pairs, p) ← p.popN (2 * (counts / 256 % 256))
    let kwDefaults ← namedPairs p.node pairs
    let (defaults, p) ← p.popN (counts % 256)
    return ({ closure, annotations, kwDefaults := .ofList kwDefaults, defaults }, p)
  else
    let (defaults, p) ← p.popN counts
    return ({ closure, defaults }, p)

/-- Pop code and what belongs to it, and push a function. -/
def makeFunction (i : Instruction) (hasClosure : Bool) (p : Path) : Analysis Path := do
  let counts ← argument i
  let p ← if (← get).options.isThird then p.discard else pure p
  let (codeVar, p) ← p.pop
  let (parts, p) ← popFunctionParts counts hasClosure p
  let store := (← get).store
  match (← dataAt codeVar p.node).findSome? store.code? with
  | none => return p.push (← newUnsolvable p.node)
  | some code =>
    let f ← frame
    let name := code.code.name
    let d ← addValue (.function {
      name, code
      globals := f.globals
      defaults := parts.defaults
      kwDefaults := parts.kwDefaults
      closure := parts.closure
      annotations := parts.annotations })
    return p.push (← variableWith name d [] p.node)

/-- Pop a name, a tuple of bases and a dictionary of members, and push a class. -/
def buildClassFromParts (p : Path) : Analysis Path := do
  let (name, bases, members, p) ← p.popThree
  let store := (← get).store
  let name ← textIn name p.node
  let bases := ((← dataAt bases p.node).findSome? store.tupleItems?).getD []
  let members ← objectMembers members p.node
  return p.push (← makeClass p.node name bases members)

end Analysis

end ValueTrace
