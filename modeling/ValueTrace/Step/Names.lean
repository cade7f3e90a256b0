import ValueTrace.Step.Argument

/-!
# Names

A name has one variable in a namespace, whatever the path. A store binds it and moves the path to a
new node, so that the new bindings hide the old ones from there on, and other paths go on to see
theirs. That a name is deleted is not tracked.
-/

namespace ValueTrace

/-- Where a name is looked up before the builtins. -/
inductive Scope where
  | name
  | global
  | fast
  deriving DecidableEq, Repr

def Scope.namespaces (f : Frame) : Scope → List NamespaceId
  | .name => [f.locals, f.globals]
  | .global => [f.globals]
  | .fast => [f.locals]

namespace Analysis

open Machine (root)

def visibleIn (ns : NamespaceId) (name : String) (n : NodeId) : Analysis (Option VarId) := do
  match (← get).store.lookup? ns name with
  | none => return none
  | some v =>
    let copy ← copyVisible v n
    return if ← isBound copy then some copy else none

def visibleInAny (name : String) (n : NodeId) : List NamespaceId → Analysis (Option VarId)
  | [] => return none
  | ns :: rest => do
    match ← visibleIn ns name n with
    | some v => return some v
    | none => visibleInAny name n rest

def specialForm (form : SpecialForm) : Analysis VarId := do
  variableWith form.name (← addValue (.special form)) [] root

/-- What a name means everywhere: the names of literals and special functions, then what has been
run before the module, then the library. -/
def loadBuiltin (n : NodeId) (name : String) : Analysis (Option VarId) := do
  match name with
  | "True" => some <$> literalVar (.bool true)
  | "False" => some <$> literalVar (.bool false)
  | "None" => some <$> literalVar .none
  | "isinstance" => some <$> specialForm .isInstance
  | "super" => some <$> specialForm .super
  | "__random__" => some <$> (do variableWith name (← truth none) [] n)
  | "__any_object__" => some <$> newUnknown n
  | _ =>
    match ← visibleIn Machine.builtins name n with
    | some v => return some v
    | none => (← libraryBuiltin name).mapM fun d => variableWith name d [] root

/-- Push what a name stands for. A local variable without a value raises; any other name without a
meaning is reported. -/
def loadName (scope : Scope) (name : String) (p : Path) : Analysis Path := do
  let f ← frame
  match ← visibleInAny name p.node (scope.namespaces f) with
  | some v => return p.push v
  | none =>
    if scope = .fast then
      let type ← libraryClassVar "UnboundLocalError"
      let value ← newUnknown p.node
      let traceback ← newUnknown p.node
      return { p with exception := some { type, value, traceback }, stop := some .raised }
    match ← loadBuiltin p.node name with
    | some v => return p.push v
    | none =>
      report .nameError s!"Name '{name}' is not defined" none []
      return p.push (← newUnsolvable p.node)

/-- Let a name in a namespace stand for what is in a variable. -/
def storeValue (n : NodeId) (ns : NamespaceId) (name : String) (v : VarId) : Analysis Unit := do
  let slot ← match (← get).store.lookup? ns name with
    | some slot => pure slot
    | none => do
      let slot ← newVariable name
      setStore (·.define ns name slot)
      pure slot
  paste slot v n

def storeName (ns : NamespaceId) (name : String) (p : Path) : Analysis Path := do
  let (v, p) ← p.pop
  storeValue p.node ns name v
  grow p.forward

def loadCell (cell : VarId) (p : Path) : Analysis Path := return p.push (← copyVisible cell p.node)

def storeCell (cell : VarId) (p : Path) : Analysis Path := do
  let (v, p) ← p.pop
  paste cell v p.node
  grow p.forward

/-- Push the local variables as a dictionary. -/
def loadLocals (p : Path) : Analysis Path := do
  let f ← frame
  let members := ((← get).store.namespace? f.locals).getD ∅
  let d ← newObject (← libraryClass "dict") none
  setStore (·.modify d fun
    | .object o => .object { o with members }
    | v => v)
  return p.push (← variableWith "locals" d [] p.node)

def objectMembers (v : VarId) (n : NodeId) : Analysis Members := do
  let store := (← get).store
  return ((← dataAt v n).findSome? fun d => (store.object? d).map (·.members)).getD ∅

/-- Pop a dictionary and take its items for the local variables. -/
def storeLocals (p : Path) : Analysis Path := do
  let (v, p) ← p.pop
  let members ← objectMembers v p.node
  let ns ← onStore (·.newNamespace)
  setStore (·.modifyNamespace ns fun _ => members)
  modifyFrame ({ · with locals := ns })
  return p

end Analysis

end ValueTrace
