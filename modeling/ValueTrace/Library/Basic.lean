import Std.Data.TreeMap
import ValueTrace.Signature.Reader

/-!
# The library of a program

Classes, functions and modules whose code is not analysed. Declarations give signatures in their
notation; a library holds them read and checked, and is looked up by qualified name: `len`,
`list.append`, `os.path.join`.
-/

namespace ValueTrace

/-- A function as it is declared. What it mutates are the type parameters of its receiver that take
up the values of the arguments. -/
structure FunctionDecl where
  name : String
  signatures : List String
  mutates : List String := []
  deriving Repr, Inhabited

/-- A class as it is declared. Attributes are in order of their names. -/
structure ClassDecl where
  name : String
  bases : List String := []
  template : List String := []
  methods : List FunctionDecl := []
  attributes : List (String × String) := []
  deriving Repr, Inhabited

/-- A module as it is declared. Attributes are in order of their names. -/
structure ModuleDecl where
  name : String
  functions : List FunctionDecl := []
  classes : List ClassDecl := []
  attributes : List (String × String) := []
  deriving Repr, Inhabited

/-- All that is declared. -/
structure Declarations where
  classes : List ClassDecl := []
  functions : List FunctionDecl := []
  modules : List ModuleDecl := []
  deriving Repr, Inhabited

/-- A function under its qualified name. -/
structure LibraryFunction where
  name : String
  signatures : List Signature
  mutates : List String
  deriving Inhabited

/-- A class under its qualified name, with methods and attributes by their short names. -/
structure LibraryClass where
  name : String
  bases : List String
  template : List String
  methods : Std.TreeMap String LibraryFunction
  attributes : Std.TreeMap String TypeExpr
  deriving Inhabited

/-- A member of a module: a function or class by its qualified name, or a value of a type. -/
inductive LibraryMember where
  | function (name : String)
  | ofClass (name : String)
  | attribute (type : TypeExpr)
  deriving Inhabited

/-- A module with its members by their short names. -/
structure LibraryModule where
  name : String
  members : Std.TreeMap String LibraryMember
  deriving Inhabited

/-- What there is to look up. -/
structure Library where
  classes : Std.TreeMap String LibraryClass := ∅
  functions : Std.TreeMap String LibraryFunction := ∅
  modules : Std.TreeMap String LibraryModule := ∅
  deriving Inhabited

/-- Why declarations were refused. -/
inductive LibraryError where
  /-- The text is no TOML form of declarations. -/
  | malformed
  | signature (text : String) (cause : SignatureError)
  | unknownBase (cls base : String)
  | unknownType (context name : String)
  | duplicate (name : String)
  deriving DecidableEq, Repr

def LibraryError.message : LibraryError → String
  | .malformed => "invalid stub TOML"
  | .signature text cause => cause.message text
  | .unknownBase cls base => s!"class {cls} has unknown base {base}"
  | .unknownType context name => s!"{context} refers to unknown class {name}"
  | .duplicate name => s!"{name} is declared twice"

namespace Library

def readSignature (text : String) : Except LibraryError Signature :=
  (Signature.parse text).mapError (.signature text)

def readType (text : String) : Except LibraryError TypeExpr :=
  (readSignature ("() -> " ++ text)).map (·.result)

def qualify (owner : Option String) (name : String) : String :=
  owner.elim name fun o => o ++ "." ++ name

def readFunction (owner : Option String) (d : FunctionDecl) :
    Except LibraryError LibraryFunction := do
  let signatures ← d.signatures.mapM readSignature
  return { name := qualify owner d.name, signatures, mutates := d.mutates }

def readClass (owner : Option String) (d : ClassDecl) : Except LibraryError LibraryClass := do
  let name := qualify owner d.name
  let methods ← d.methods.foldlM (fun m f => do
    return m.insert f.name (← readFunction (some name) f)) ∅
  let attributes ← d.attributes.foldlM (fun m (k, t) => do return m.insert k (← readType t)) ∅
  return { name, bases := d.bases, template := d.template, methods, attributes }

def addClass (l : Library) (owner : Option String) (d : ClassDecl) :
    Except LibraryError (String × Library) := do
  let c ← readClass owner d
  if l.classes.contains c.name then throw (.duplicate c.name)
  return (c.name, { l with classes := l.classes.insert c.name c })

def addFunction (l : Library) (d : FunctionDecl) : Except LibraryError Library := do
  let f ← readFunction none d
  if l.functions.contains f.name then throw (.duplicate f.name)
  return { l with functions := l.functions.insert f.name f }

/-- Add a module. A function takes the place of a class of its name, and an attribute that of
either. -/
def addModule (l : Library) (d : ModuleDecl) : Except LibraryError Library := do
  let (l, members) ← d.classes.foldlM (fun (l, m) c => do
    let (name, l) ← l.addClass (some d.name) c
    return (l, m.insert c.name (.ofClass name))) (l, (∅ : Std.TreeMap String LibraryMember))
  let (l, members) ← d.functions.foldlM (fun (l, m) f => do
    let g ← readFunction (some d.name) f
    let l := { l with functions := l.functions.insert g.name g }
    return (l, m.insert f.name (.function g.name)))
    (l, members)
  let members ← d.attributes.foldlM (fun m (k, t) => do
    return m.insert k (.attribute (← readType t))) members
  if l.modules.contains d.name then throw (.duplicate d.name)
  return { l with modules := l.modules.insert d.name { name := d.name, members } }

def checkType (l : Library) (context : String) (t : TypeExpr) : Except LibraryError Unit :=
  t.classNames.forM fun name =>
    if l.classes.contains name then .ok () else .error (.unknownType context name)

def checkFunction (l : Library) (f : LibraryFunction) : Except LibraryError Unit :=
  f.signatures.forM fun s => do
    s.params.forM fun p => p.type.elim (.ok ()) (l.checkType f.name)
    l.checkType f.name s.result

def checkClass (l : Library) (c : LibraryClass) : Except LibraryError Unit := do
  c.bases.forM fun base =>
    if l.classes.contains base then .ok () else .error (.unknownBase c.name base)
  c.methods.values.forM l.checkFunction
  c.attributes.values.forM (l.checkType c.name)

def checkModule (l : Library) (m : LibraryModule) : Except LibraryError Unit :=
  m.members.values.forM fun
    | .attribute t => l.checkType m.name t
    | _ => .ok ()

def check (l : Library) : Except LibraryError Unit := do
  l.classes.values.forM l.checkClass
  l.functions.values.forM l.checkFunction
  l.modules.values.forM l.checkModule

def ofDeclarations (d : Declarations) : Except LibraryError Library := do
  let l ← d.classes.foldlM (fun l c => do return (← addClass l none c).2) {}
  let l ← d.functions.foldlM addFunction l
  let l ← d.modules.foldlM addModule l
  l.check
  return l

def class? (l : Library) (name : String) : Option LibraryClass := l.classes[name]?

def function? (l : Library) (name : String) : Option LibraryFunction := l.functions[name]?

def module? (l : Library) (name : String) : Option LibraryModule := l.modules[name]?

def hasBuiltin (l : Library) (name : String) : Bool :=
  l.functions.contains name || l.classes.contains name

def classNames (l : Library) : List String := l.classes.keys

end Library

end ValueTrace
