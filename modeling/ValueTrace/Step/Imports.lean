import ValueTrace.Machine.Attribute
import ValueTrace.Step.Names

/-! Imports. Only modules of the library can be imported; any other is reported. -/

namespace ValueTrace

namespace Analysis

def intIn (v : VarId) (n : NodeId) : Analysis (Option Int) := do
  let store := (← get).store
  return (← dataAt v n).findSome? fun d => (store.get d).constant?.bind (·.int?)

def topName (name : String) : String := String.ofList (name.toList.takeWhile (· != '.'))

/-- A new variable for a module: the one that is named or, unless something is to be taken from it,
the one that its name begins with. -/
def importModule (n : NodeId) (name : String) (level : Int) (isFrom : Bool) : Analysis VarId := do
  let resolved ← if level > 0 then pure none else libraryModule name
  match resolved with
  | none =>
    report .importError s!"Can't find module '{name}'." none []
    newUnsolvable n
  | some module =>
    let d ← if isFrom then pure module else do pure ((← libraryModule (topName name)).getD module)
    let shown := match ← value d with
      | .module name _ => name
      | _ => name
    variableWith shown d [] n

def importName (name : String) (p : Path) : Analysis Path := do
  let (level, wanted, p) ← p.popTwo
  let level := (← intIn level p.node).getD 0
  let store := (← get).store
  let isFrom := !(← dataAt wanted p.node).all store.isNone
  return p.push (← importModule p.node name level isFrom)

def moduleName? (v : Value) : Option String :=
  match v with
  | .module name _ => some name
  | _ => none

/-- Push a member of the modules on top. If there is none, this is reported. -/
def importFrom (name : String) (p : Path) : Analysis Path := do
  let module ← p.top
  let result ← newVariable name
  let bs ← visible module p.node
  let found ← bs.mapM fun b => do
    let d ← dataOf b
    if (← value d).isOpaque then
      bind result Machine.unsolvable [b] p.node
      return true
    match ← attributeOf p.node d name (some b) with
    | some attr => pasteAttribute p.node result attr b
    | none => return false
  if found.any id then return p.push result
  let m ← get
  let owner := (bs.findSome? fun b => moduleName? (m.store.get (m.graph.dataOf b))).getD "?"
  report .importError s!"Can't find module '{owner}.{name}'." none []
  return p.push (← newUnsolvable p.node)

/-- Pop modules and let the names of their public members stand for these. -/
def importStar (p : Path) : Analysis Path := do
  let (module, p) ← p.pop
  let f ← frame
  let library := (← get).library
  (← dataAt module p.node).forM fun d => do
    let some name := moduleName? (← value d) | return
    let some decl := library.module? name | return
    (decl.members.keys.filter fun k => k.toList.head? != some '_').forM fun k => do
      match ← attributeOf p.node d k none with
      | some v => storeValue p.node f.locals k v
      | none => return
  grow p.forward

end Analysis

end ValueTrace
