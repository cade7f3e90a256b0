import ValueTrace.Value.Basic

/-! The store of values and namespaces, numbered from zero in the order in which they are made. -/

namespace ValueTrace

/-- Values and namespaces. -/
structure Store where
  values : Array Value := #[]
  namespaces : Array Members := #[]
  deriving Inhabited

namespace Store

def add (s : Store) (v : Value) : DataId × Store :=
  let id := s.values.size
  (.value id, { s with values := s.values.push v })

def get (s : Store) : DataId → Value
  | .value i => s.values[i]?.getD .unsolvable
  | .marker => .unsolvable

def modify (s : Store) (d : DataId) (f : Value → Value) : Store :=
  match d with
  | .value i => { s with values := s.values.modify i f }
  | .marker => s

def newNamespace (s : Store) : NamespaceId × Store :=
  let id := s.namespaces.size
  (id, { s with namespaces := s.namespaces.push ∅ })

def namespace? (s : Store) (ns : NamespaceId) : Option Members := s.namespaces[ns]?

def modifyNamespace (s : Store) (ns : NamespaceId) (f : Members → Members) : Store :=
  { s with namespaces := s.namespaces.modify ns f }

def define (s : Store) (ns : NamespaceId) (name : String) (v : VarId) : Store :=
  s.modifyNamespace ns (·.insert name v)

def lookup? (s : Store) (ns : NamespaceId) (name : String) : Option VarId := do
  (← s.namespace? ns)[name]?

def class? (s : Store) (d : DataId) : Option ClassValue := (s.get d).class?

def object? (s : Store) (d : DataId) : Option Object := (s.get d).object?

def className (s : Store) (d : DataId) : String := ((s.class? d).map (·.name)).getD "?"

def isSubclass (s : Store) (d : DataId) (name : String) : Bool :=
  (s.class? d).any fun c => c.mro.any fun m => s.className m == name

def classOf? (s : Store) (d : DataId) : Option DataId := (s.object? d).map (·.cls)

def isNone (s : Store) (d : DataId) : Bool :=
  match (s.get d).constant? with
  | some .none => true
  | _ => false

def text? (s : Store) (d : DataId) : Option String := (s.get d).constant?.bind (·.str?)

/-- How messages name the type of a value. -/
def typeName (s : Store) (d : DataId) : String :=
  match s.get d with
  | .object o =>
    match o.payload with
    | some (.constant .none) => "None"
    | _ => s.className o.cls
  | .ofClass c => s!"Type[{c.name}]"
  | .function _ | .native _ | .method .. | .special _ => "Callable"
  | .module name _ => s!"module '{name}'"
  | .unknown _ | .unsolvable => "?"

/-- Whether a value may count as true, or as false. A container whose parameters have never been
bound is empty. -/
def compatibleWith (s : Store) (g : Graph) (d : DataId) (truth : Bool) : Bool :=
  match s.get d with
  | .object o =>
    match o.payload with
    | some (.constant c) => c.truthy == truth
    | some (.tuple items) => !items.isEmpty == truth
    | some (.code _) => truth
    | none =>
      if o.typeParams.isEmpty then true
      else if o.typeParams.values.all fun v => (g.allBindings v).isEmpty then !truth
      else true
  | .ofClass _ | .function _ | .native _ | .method .. | .module .. | .special _ => truth
  | .unknown _ | .unsolvable => true

end Store

end ValueTrace
