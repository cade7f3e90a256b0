import ValueTrace.Machine.Basic
import ValueTrace.Value.Key
import ValueTrace.Value.Linearization

/-!
# Shared values

Values that are made when they are first needed and then used again: what the library declares, and
the literals of the program. They are bound at the root, so they hold everywhere.
-/

namespace ValueTrace

/-- The type parameters of a class, its own first, then those of the classes that it inherits
from. -/
def Store.template (s : Store) (cls : DataId) : List String :=
  match s.class? cls with
  | some c => (c.mro.flatMap fun m => ((s.class? m).map (·.template)).getD []).eraseDups
  | none => []

def Store.mro (s : Store) (cls : DataId) : List DataId := ((s.class? cls).map (·.mro)).getD []

def Store.typeParam? (s : Store) (d : DataId) (name : String) : Option VarId := do
  (← s.object? d).typeParams[name]?

/-- The name of the class of a literal. -/
def Constant.className (third : Bool) : Constant → String
  | .none => "NoneType"
  | .bool _ => "bool"
  | .int _ => "int"
  | .float _ => "float"
  | .complex .. => "complex"
  | .str _ => "str"
  | .unicode _ => if third then "str" else "unicode"
  | .bytes _ => if third then "bytes" else "str"
  | .ellipsis => "object"
  | .tuple _ => "tuple"
  | .code _ => "code"

namespace Analysis

open Machine (root)

def share (f : Shared → Shared) : Analysis Unit := modify fun m => { m with shared := f m.shared }

/-- The class of a library class with its bases. The first argument bounds how far these reach. -/
def libraryClassWithin : Nat → String → Analysis DataId
  | 0, _ => throw .outOfFuel
  | fuel + 1, name => do
    if let some d := (← get).shared.classes[name]? then return d
    let some decl := (← get).library.class? name
      | throw (.internal s!"no library class named {name}")
    let id ← addValue (.ofClass { name, template := decl.template, origin := .library })
    share fun s => { s with classes := s.classes.insert name id }
    let bases ← decl.bases.mapM fun base => do
      let d ← libraryClassWithin fuel base
      return (d, ← variableWith base d [] root)
    let store := (← get).store
    let some mro := linearize id (bases.map (·.1)) (bases.map fun b => store.mro b.1)
      | throw (.internal s!"library class {name} has no consistent MRO")
    setStore (·.modify id fun
      | .ofClass c => .ofClass { c with bases := bases.map (·.2), mro }
      | v => v)
    return id

def libraryClass (name : String) : Analysis DataId := do
  libraryClassWithin ((← get).library.classes.size + 1) name

def libraryClassVar (name : String) : Analysis VarId := do
  variableWith name (← libraryClass name) [] root

def newObject (cls : DataId) (payload : Option Payload) : Analysis DataId := do
  let params ← ((← get).store.template cls).mapM fun name => do return (name, ← newVariable name)
  addValue (.object { cls, typeParams := .ofList params, payload })

/-- An object of a class of which nothing else is known. It is shared if the class has no type
parameters. -/
def sharedObject (cls : DataId) : Analysis DataId := do
  if !((← get).store.template cls).isEmpty then newObject cls none
  else
    match (← get).shared.objects.lookup cls with
    | some d => return d
    | none =>
      let d ← newObject cls none
      share fun s => { s with objects := (cls, d) :: s.objects }
      return d

def plainObject (name : String) : Analysis DataId := do sharedObject (← libraryClass name)

def fillTypeParam (d : DataId) (param : String) (items : List VarId) (n : NodeId) :
    Analysis Unit := do
  match (← get).store.typeParam? d param with
  | some v => items.forM fun item => paste v item n
  | none => return

def tupleObject (items : List VarId) (n : NodeId) : Analysis DataId := do
  let d ← newObject (← libraryClass "tuple") (some (.tuple items))
  fillTypeParam d "T" items n
  return d

mutual

/-- The value of a literal at a place, and a variable for it. -/
def constant (place : List Nat) (c : Constant) : Analysis (DataId × VarId) := do
  match (← get).shared.constants[c.key place]? with
  | some known => return known
  | none =>
    let cls ← libraryClass (c.className (← get).options.isThird)
    let d ← match c with
      | .tuple items => do tupleObject (← constants place 0 items) root
      | .code code => newObject cls (some (.code ⟨place, code⟩))
      | c => newObject cls (some (.constant c))
    let v ← variableWith "const" d [] root
    share fun s => { s with constants := s.constants.insert (c.key place) (d, v) }
    return (d, v)

def constants (place : List Nat) (i : Nat) : List Constant → Analysis (List VarId)
  | [] => return []
  | c :: cs => do
    let (_, v) ← constant (place ++ [i]) c
    return v :: (← constants place (i + 1) cs)

end

def literal (c : Constant) : Analysis DataId := return (← constant [] c).1

def literalVar (c : Constant) : Analysis VarId := return (← constant [] c).2

def newNone (n : NodeId) : Analysis VarId := do variableWith "None" (← literal .none) [] n

def truth : Option Bool → Analysis DataId
  | some b => literal (.bool b)
  | none => plainObject "bool"

/-- The function of a library function. -/
def libraryFunction (f : LibraryFunction) : Analysis DataId := do
  match (← get).shared.functions[f.name]? with
  | some d => return d
  | none =>
    let d ← addValue (.native { name := f.name, signatures := f.signatures, mutates := f.mutates })
    share fun s => { s with functions := s.functions.insert f.name d }
    return d

def libraryBuiltin (name : String) : Analysis (Option DataId) := do
  let library := (← get).library
  if (library.class? name).isSome && !name.toList.contains '.' then some <$> libraryClass name
  else (library.function? name).mapM libraryFunction

/-- The module of a library module. -/
def libraryModule (name : String) : Analysis (Option DataId) := do
  match (← get).shared.modules[name]? with
  | some d => return some d
  | none =>
    if ((← get).library.module? name).isNone then return none
    let d ← addValue (.module name ∅)
    share fun s => { s with modules := s.modules.insert name d }
    return some d

end Analysis

end ValueTrace
