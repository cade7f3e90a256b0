import ValueTrace.Call.Basic

/-!
# Calls of library functions

A call is looked at once for each view, that is, for each choice of one binding for every argument.
The first signature that a view fits says what the call returns, and the result is justified by the
bindings of the view. What type variables matched may go into type parameters of the receiver.
-/

namespace ValueTrace

namespace Signature

def accepts (s : Signature) (args : CallArgs) : Bool :=
  let named := args.named.countP fun (name, _) => s.params.any (·.name == name)
  s.maxArgs?.all (args.positional.length ≤ ·) &&
    (named == args.named.length || s.kwargs.isSome) &&
    s.minArgs ≤ args.positional.length + named

def arity (ss : List Signature) : Nat × Option Nat :=
  ((ss.map minArgs).min?.getD 0,
    ss.foldl (fun most s => do return max (← most) (← s.maxArgs?)) (some 0))

end Signature

namespace Analysis

/-- Items of a dictionary under a known text are tracked as members. The answer is the item, if the
call asks for one that is known. -/
def dictItem (n : NodeId) (f : NativeValue) (args : List VarId) : Analysis (Option VarId) := do
  let operands := match f.name, args with
    | "dict.__setitem__", [d, k, v] => some (d, k, some v)
    | "dict.__getitem__", [d, k] => some (d, k, none)
    | _, _ => none
  let some (dict, key, assigned) := operands | return none
  let store := (← get).store
  let [d] ← dataAt dict n | return none
  let [k] ← dataAt key n | return none
  let some name := store.text? k | return none
  let some o := store.object? d | return none
  match assigned with
  | some v =>
    setMember n d name v
    return none
  | none =>
    let some item := o.members[name]? | return none
    if (← visible item n).isEmpty then return none
    return some (← copyVisible item n)

/-- Copy what type variables matched to the type parameters of the receiver that a function
mutates. -/
def mutate (n : NodeId) (f : NativeValue) (receiver : DataId) (s : Subst) : Analysis Unit :=
  f.mutates.forM fun name => do
    match s[name]?, (← get).store.typeParam? receiver name with
    | some sources, some p => sources.forM (pasteSource p n)
    | _, _ => return

/-- Look at one view of a call. The answer says whether a signature fits. -/
def callView (n : NodeId) (f : NativeValue) (args : CallArgs) (result : VarId)
    (view : List BindingId) : Analysis Bool := do
  let { library, graph, store, .. } ← get
  let positional := view.take args.positional.length
  let named := (args.named.map (·.1)).zip (view.drop args.positional.length)
  let some (sig, s) := f.signatures.findSome? fun sig =>
      (Matcher.matchSignature { library, graph, store } sig positional named).map (sig, ·)
    | return false
  let receiver := match sig.params, view with
    | p :: _, b :: _ => if p.name == "self" then some (graph.dataOf b) else none
    | _, _ => none
  let ret ← instantiate n s receiver sig.result
  (← allBindings ret).forM fun r => do bind result (← dataOf r) (view ++ [r]) n
  match receiver with
  | some r => mutate n f r s
  | none => return true
  return true

def describeArgs (n : NodeId) (sig : Option Signature) (args : CallArgs) : Analysis String := do
  let positional ← args.positional.zipIdx.mapM fun (v, i) => do
    let name := ((sig.bind (·.params[i]?)).map (·.name)).getD s!"_{i}"
    return name ++ ": " ++ (← typeNames v n)
  let named ← args.named.mapM fun (name, v) => do return name ++ ": " ++ (← typeNames v n)
  return "(" ++ ", ".intercalate (positional ++ named) ++ ")"

/-- Call a library function. -/
def callLibrary (n : NodeId) (f : NativeValue) (args : CallArgs) : Attempt (NodeId × VarId) := do
  if args.isOpen then return (n, ← newUnsolvable n)
  if !f.signatures.any (·.accepts args) then
    let (least, most) := Signature.arity f.signatures
    throw (.wrongCount f.name (arityText least most) args.count)
  let vars := args.positional ++ args.named.map (·.2)
  let choices ← vars.mapM fun v => (visible v n : Attempt _)
  if choices.any (·.isEmpty) then return (n, ← newUnsolvable n)
  if let some item ← dictItem n f vars then return (n, item)
  let result ← newVariable "return"
  let fits ← (views (← get).options.maxNativeViews choices).mapM fun view =>
    (callView n f args result view : Attempt _)
  if fits.any id then return (n, result)
  let sig := f.signatures.head?
  throw (.wrongTypes f.name (sig.elim "()" (·.paramsText)) (← describeArgs n sig args))

end Analysis

end ValueTrace
