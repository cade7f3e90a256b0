import ValueTrace.Call.Basic

/-!
# Binding arguments to parameters

Positional arguments come first, then named ones, then defaults. What is left over goes to the
parameters for surplus arguments, if there are any.
-/

namespace ValueTrace

/-- The function that is called, as far as its arguments are concerned. -/
structure Parameters where
  function : String
  positional : List String
  kwonly : List String
  varargs : Option String
  varkw : Option String
  defaults : List VarId
  kwDefaults : Members

namespace Parameters

/-- The parameters of a function. -/
def ofFunction (f : FunctionValue) : Parameters where
  function := f.name
  positional := f.code.code.positionalParams
  kwonly := f.code.code.kwonlyParams
  varargs := f.code.code.varargsName?
  varkw := f.code.code.varkwName?
  defaults := f.defaults
  kwDefaults := f.kwDefaults

def required (p : Parameters) : Nat := p.positional.length - p.defaults.length

def defaultAt? (p : Parameters) (i : Nat) : Option VarId :=
  if p.required ≤ i then p.defaults[i - p.required]? else none

def wrongCount (p : Parameters) (args : CallArgs) : CallFailure :=
  .wrongCount p.function
    (arityText p.required (if p.varargs.isSome then none else some p.positional.length))
    args.positional.length

def bindPositional (p : Parameters) (args : List VarId) : Members :=
  (p.positional.zip args).foldl (fun bound (name, v) => bound.insert name v) ∅

/-- Bind named arguments. Those that name no parameter are left over. -/
def bindNamed (p : Parameters) :
    List (String × VarId) → Members → Except CallFailure (Members × List (String × VarId))
  | [], bound => .ok (bound, [])
  | (name, v) :: rest, bound =>
    if p.positional.contains name || p.kwonly.contains name then
      if bound.contains name then .error (.duplicateKeyword p.function name)
      else p.bindNamed rest (bound.insert name v)
    else do
      let (bound, surplus) ← p.bindNamed rest bound
      return (bound, (name, v) :: surplus)

end Parameters

namespace Analysis

/-- Bind the positional parameters that have got no argument. -/
def bindDefaults (n : NodeId) (p : Parameters) (args : CallArgs) :
    List (String × Nat) → Members → Attempt Members
  | [], bound => return bound
  | (name, i) :: rest, bound => do
    if bound.contains name then bindDefaults n p args rest bound
    else
      match p.defaultAt? i with
      | some v => bindDefaults n p args rest (bound.insert name v)
      | none =>
        if args.isOpen then
          let v ← newUnknown n
          bindDefaults n p args rest (bound.insert name v)
        else if args.named.isEmpty then throw (p.wrongCount args)
        else throw (.missingParameter p.function name)

/-- Bind the parameters that are given by keyword only and have got no argument. -/
def bindKwonly (n : NodeId) (p : Parameters) (args : CallArgs) :
    List String → Members → Attempt Members
  | [], bound => return bound
  | name :: rest, bound => do
    if bound.contains name then bindKwonly n p args rest bound
    else
      match p.kwDefaults[name]? with
      | some v => bindKwonly n p args rest (bound.insert name v)
      | none =>
        if args.starStar.isSome then
          let v ← newUnknown n
          bindKwonly n p args rest (bound.insert name v)
        else throw (.missingParameter p.function name)

def surplusTuple (n : NodeId) (name : String) (star : Option VarId) (surplus : List VarId) :
    Analysis VarId := do
  match star with
  | some v => if surplus.isEmpty then return v else newUnsolvable n
  | none => variableWith name (← tupleObject surplus n) [] n

/-- A variable for surplus named arguments. -/
def surplusDict (n : NodeId) (starStar : Option VarId) (surplus : List (String × VarId)) :
    Analysis VarId := do
  match starStar with
  | some v => if surplus.isEmpty then return v else newUnsolvable n
  | none =>
    let d ← newObject (← libraryClass "dict") none
    surplus.forM fun (name, v) => do
      fillTypeParam d "K" [← literalVar (.str name)] n
      fillTypeParam d "V" [v] n
      setMember n d name v
    variableWith "kwargs" d [] n

/-- Bind the arguments of a call to parameters. -/
def bindArguments (n : NodeId) (p : Parameters) (args : CallArgs) : Attempt Members := do
  let surplus := args.positional.drop p.positional.length
  if !surplus.isEmpty && p.varargs.isNone then throw (p.wrongCount args)
  let (bound, keywords) ← MonadExcept.ofExcept
    (p.bindNamed args.named (p.bindPositional args.positional))
  if !keywords.isEmpty && p.varkw.isNone then
    throw (.unknownKeywords p.function (keywords.map (·.1)))
  let bound ← bindDefaults n p args p.positional.zipIdx bound
  let bound ← bindKwonly n p args p.kwonly bound
  let bound ← match p.varargs with
    | some name => do pure (bound.insert name (← surplusTuple n name args.star surplus))
    | none => pure bound
  match p.varkw with
  | some name => return bound.insert name (← surplusDict n args.starStar keywords)
  | none => return bound

def fitsAnnotated (s : Store) (cls d : DataId) : Bool :=
  match s.get d with
  | .object o => (s.mro o.cls).contains cls
  | v => v.isOpaque

/-- Arguments for parameters that are annotated with a class have to be instances of it, unless
nothing is known of them. -/
def checkAnnotated (n : NodeId) (f : FunctionValue) (bound : Members) : Attempt Unit := do
  let store := (← get).store
  f.annotations.toList.forM fun (name, cls) => do
    let some arg := bound[name]? | return
    let data ← dataAt arg n
    if data.isEmpty || data.any (fitsAnnotated store cls) then return
    let actual := " or ".intercalate (data.map store.typeName)
    let expected := store.className cls
    throw (.wrongTypes f.name s!"({name}: {expected})" s!"({name}: {actual})")

end Analysis

end ValueTrace
