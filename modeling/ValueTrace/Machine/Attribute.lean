import ValueTrace.Machine.Instantiate

/-!
# Attributes

Members of library classes and modules are made when they are first looked up. Which members a value
has does not depend on the path, only what is in them.
-/

namespace ValueTrace

def Value.members? : Value → Option Members
  | .object o => some o.members
  | .ofClass c => some c.members
  | .function f => some f.members
  | .module _ members | .unknown members => some members
  | .native _ | .method .. | .unsolvable | .special _ => none

/-- Add a member to a value that can have some. -/
def Value.addMember (v : Value) (name : String) (var : VarId) : Value :=
  match v with
  | .object o => .object { o with members := o.members.insert name var }
  | .ofClass c => .ofClass { c with members := c.members.insert name var }
  | .function f => .function { f with members := f.members.insert name var }
  | .module m members => .module m (members.insert name var)
  | .unknown members => .unknown (members.insert name var)
  | v => v

namespace Analysis

open Machine (root)

def addMember (d : DataId) (name : String) (v : VarId) : Analysis Unit :=
  setStore (·.modify d (·.addMember name v))

/-- The member that the library declares for a class. -/
def libraryMember (cls : DataId) (name : String) : Analysis (Option VarId) := do
  let m ← get
  let some decl := m.library.class? (m.store.className cls) | return none
  let v ← match decl.methods[name]?, decl.attributes[name]? with
    | some f, _ => do variableWith name (← libraryFunction f) [] root
    | none, some t => instantiate root ∅ none t
    | none, none => return none
  addMember cls name v
  return some v

/-- The first member of this name in a list of classes. -/
def memberAlong (name : String) : List DataId → Analysis (Option VarId)
  | [] => return none
  | d :: rest => do
    match (← get).store.class? d with
    | none => memberAlong name rest
    | some c =>
      match c.members[name]? with
      | some v => return some v
      | none =>
        if c.origin = .library then
          match ← libraryMember d name with
          | some v => return some v
          | none => memberAlong name rest
        else memberAlong name rest

def classMember (cls : DataId) (name : String) : Analysis (Option VarId) := do
  memberAlong name ((← get).store.mro cls)

/-- The member of a module: what the library declares, or a module inside of it. -/
def moduleMember (d : DataId) (module : String) (members : Members) (name : String) :
    Analysis (Option VarId) := do
  if let some v := members[name]? then return some v
  let library := (← get).library
  let v ← match (library.module? module).bind (·.members[name]?) with
    | some (.function f) =>
      match library.function? f with
      | some f => do variableWith name (← libraryFunction f) [] root
      | none => return none
    | some (.ofClass c) => libraryClassVar c
    | some (.attribute t) => instantiate root ∅ none t
    | none =>
      match ← libraryModule (module ++ "." ++ name) with
      | some inner => variableWith name inner [] root
      | none => return none
  addMember d name v
  return some v

def bindsReceiver : Value → Bool
  | .function _ | .native _ => true
  | _ => false

/-- Replace the functions in a variable by methods of an object. -/
def bindMethods (n : NodeId) (d : DataId) (attr : VarId) (receiver : Option BindingId) :
    Analysis VarId := do
  let { graph, store, .. } ← get
  if (graph.allData attr).all fun f => !bindsReceiver (store.get f) then return attr
  let self ← variableWith "self" d receiver.toList n
  let bound ← newVariable (graph.var attr).name
  (← allBindings attr).forM fun b => do
    let f ← dataOf b
    let f ← if bindsReceiver (← value f) then addValue (.method self f) else pure f
    bind bound f [b] n
  return bound

/-- The attribute of a value, at a node. Methods remember the receiver, which has been reached
through a binding. -/
def attributeOf (n : NodeId) (d : DataId) (name : String) (receiver : Option BindingId) :
    Analysis (Option VarId) := do
  match ← value d with
  | .object o =>
    match o.members[name]? with
    | some v => return some v
    | none => (← classMember o.cls name).mapM fun attr => bindMethods n d attr receiver
  | .ofClass _ => classMember d name
  | .function f => ofFunction f.members
  | .native _ | .special _ => ofFunction ∅
  | .method _ f =>
    match ← value f with
    | .function f => ofFunction f.members
    | _ => ofFunction ∅
  | .module module members => moduleMember d module members name
  | .unknown members =>
    match members[name]? with
    | some v => return some v
    | none =>
      let v ← newUnknown root
      addMember d name v
      return some v
  | .unsolvable => some <$> newUnsolvable n
where
  /-- The attribute of a function with these members. -/
  ofFunction (members : Members) : Analysis (Option VarId) := do
    match members[name]? with
    | some v => return some v
    | none => classMember (← libraryClass "function") name

/-- Copy what can be in an attribute at a node, justified by that and by the binding of the value
that has it. The answer says whether there was anything. -/
def pasteAttribute (n : NodeId) (result attr : VarId) (b : BindingId) : Analysis Bool := do
  let bs ← visible attr n
  bs.forM fun a => do bind result (← dataOf a) [a, b] n
  return !bs.isEmpty

/-- The attribute of whatever is in a variable. There is none if no value has one. -/
def loadAttribute? (n : NodeId) (obj : VarId) (name : String) : Analysis (Option VarId) := do
  let result ← newVariable name
  let found ← (← visible obj n).mapM fun b => do
    match ← attributeOf n (← dataOf b) name (some b) with
    | some attr => pasteAttribute n result attr b
    | none => return false
  return if found.any id then some result else none

/-- The attribute of whatever is in a variable. If no value has one, this is reported. -/
def loadAttribute (n : NodeId) (obj : VarId) (name : String) : Analysis VarId := do
  if let some v ← loadAttribute? n obj name then return v
  let data ← dataAt obj n
  let store := (← get).store
  unless data.isEmpty do
    if data.all store.isNone then
      report .noneAttr s!"Access of attribute '{name}' on None" none [obj]
    else
      match data with
      | [d] =>
        let type := store.typeName d
        report .attributeError s!"No attribute '{name}' on {type}" none [obj]
      | _ => report .attributeError s!"No attribute '{name}'" none [obj]
  newUnsolvable n

/-- The variable of a member of a value, which is made if need be. -/
def memberVar (d : DataId) (name : String) : Analysis (Option VarId) := do
  match (← value d).members? with
  | none => return none
  | some members =>
    match members[name]? with
    | some v => return some v
    | none =>
      let v ← newVariable name
      addMember d name v
      return some v

def setMember (n : NodeId) (d : DataId) (name : String) (v : VarId) : Analysis Unit := do
  match ← memberVar d name with
  | some slot => paste slot v n
  | none => return

def storeAttribute (n : NodeId) (obj : VarId) (name : String) (v : VarId) : Analysis Unit := do
  (← dataAt obj n).forM fun d => setMember n d name v

end Analysis

end ValueTrace
