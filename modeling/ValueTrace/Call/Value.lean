import ValueTrace.Call.Arguments
import ValueTrace.Call.Library
import ValueTrace.Machine.Class
import ValueTrace.Machine.Run

/-!
# Calls of values

What happens in a call depends on what is called: functions of the program run in a frame of their
own, a class makes an object, an object is called through its class. All of this goes round, so the
depth of calls is bounded.
-/

namespace ValueTrace

namespace Analysis

/-- Call a function of the program, unless its code is being run already or there are too many
frames. A generator is an object that holds what is yielded. -/
def callFunction (step : Stepper) (n : NodeId) (f : FunctionValue) (args : CallArgs) :
    Attempt (NodeId × VarId) := do
  let bound ← bindArguments n (.ofFunction f) args
  checkAnnotated n f bound
  let m ← get
  if m.frames.any fun g => g.code.place == f.code.place then return (n, ← newUnsolvable n)
  if m.atMaximumDepth then return (n, ← newUnsolvable n)
  let frame ← newFrame f.code f.globals none f.closure bound n
  let start ← enterNode n f.name
  let (stop, result) ← runFrame step frame start
  if f.code.code.isGenerator then
    let d ← newObject (← libraryClass "generator") none
    fillTypeParam d "T" [frame.yielded] stop
    return (stop, ← variableWith f.name d [] stop)
  return (stop, result)

/-- The classes of the values in a variable. -/
def typeOf (n : NodeId) (v : VarId) : Analysis VarId := do
  let result ← newVariable "type"
  (← visible v n).forM fun b => do
    let cls ← match ← value (← dataOf b) with
      | .object o => pure o.cls
      | .ofClass _ => libraryClass "type"
      | .function _ | .native _ | .method .. | .special _ => libraryClass "function"
      | .module .. => libraryClass "module"
      | .unknown _ | .unsolvable => pure Machine.unsolvable
    bind result cls [b] n
  return result

/-- Make an object of a class, and call its initialiser. -/
def instantiateClass (call : Caller) (n : NodeId) (cls : DataId) (c : ClassValue)
    (args : CallArgs) : Attempt (NodeId × VarId) := do
  if let (true, [v], []) := (c.name == "type", args.positional, args.named) then
    return (n, ← typeOf n v)
  let d ← if c.origin = .library then sharedObject cls else newObject cls none
  let v ← variableWith c.name d [] n
  let receiver := (← allBindings v).head?
  match ← attributeOf n d "__init__" receiver with
  | none => return (n, v)
  | some init =>
    let (stop, _) ← call n init args
    return (stop, v)

/-- Whether what is in a variable is an instance of what is in another one. This is known only of
objects and classes. -/
def isInstance (n : NodeId) (obj cls : VarId) : Analysis VarId := do
  let result ← newVariable "isinstance"
  let objs ← visible obj n
  let classes ← visible cls n
  objs.forM fun o => classes.forM fun c => do
    let store := (← get).store
    let d ← dataOf c
    let known := match store.get (← dataOf o), store.class? d with
      | .object o, some _ => (store.class? o.cls).map fun k => k.mro.contains d
      | _, _ => none
    bind result (← truth known) [o, c] n
  return result

/-- Make a class from a function that runs its body, its name and its bases. -/
def buildClass (step : Stepper) (n : NodeId) (args : CallArgs) : Attempt (NodeId × VarId) := do
  match args.positional with
  | body :: name :: bases =>
    let store := (← get).store
    let function := (← dataAt body n).findSome? fun d =>
      match store.get d with
      | .function f => some f
      | _ => none
    let name ← textIn name n
    match function with
    | none => return (n, ← newUnsolvable n)
    | some f =>
      let frame ← newFrame f.code f.globals none f.closure ∅ n
      let start ← enterNode n name
      let (stop, _) ← runFrame step frame start
      let members := ((← get).store.namespace? frame.locals).getD ∅
      return (stop, ← makeClass stop name bases members)
  | _ => throw (.wrongCount SpecialForm.buildClass.name "at least 2" args.count)

/-- Call a special function. -/
def callSpecial (step : Stepper) (n : NodeId) (form : SpecialForm) (args : CallArgs) :
    Attempt (NodeId × VarId) := do
  match form with
  | .super => return (n, ← newUnsolvable n)
  | .isInstance =>
    match args.positional, args.named with
    | [obj, cls], [] => return (n, ← isInstance n obj cls)
    | _, _ => throw (.wrongCount form.name "2" args.count)
  | .buildClass => buildClass step n args

/-- Call a value that has been reached through a binding, given the instructions in terms of a way
to call. The first argument bounds the depth of calls. -/
def callValue (step : Caller → Stepper) :
    Nat → NodeId → DataId → BindingId → CallArgs → Attempt (NodeId × VarId)
  | 0, _, _, _, _ => ExceptT.lift (throw .outOfFuel)
  | fuel + 1, n, d, b, args => do
    let call : Caller := callEach (callValue step fuel)
    match ← value d with
    | .function f => callFunction (step call) n f args
    | .native f => callLibrary n f args
    | .method receiver f => callValue step fuel n f b (args.withReceiver receiver)
    | .ofClass c => instantiateClass call n d c args
    | .object _ =>
      match ← attributeOf n d "__call__" (some b) with
      | some method => call n method args
      | none => throw (.notCallable ((← get).store.typeName d))
    | .module .. => throw (.notCallable ((← get).store.typeName d))
    | .unknown _ => return (n, ← newUnknown n)
    | .unsolvable => return (n, ← newUnsolvable n)
    | .special form => callSpecial (step call) n form args

end Analysis

end ValueTrace
