import ValueTrace.Finding.Log
import ValueTrace.Graph.Visibility
import ValueTrace.Library.Builtins
import ValueTrace.Path.Basic
import ValueTrace.Profile
import ValueTrace.Value.Store

/-!
# The machine

An abstract stack machine. It runs each block of a code object once on variables of the graph in
place of values. What it is about to do lies in frames, one for each call that is being analysed,
and what it has found out lies in the graph, the store and the log.
-/

namespace ValueTrace

/-- One run of a code object. All paths through the code share it. -/
structure Frame where
  code : PlacedCode
  globals : NamespaceId
  locals : NamespaceId
  /-- The cells of the code, then its free variables. -/
  cells : List VarId
  /-- The paths with which blocks begin, by the positions of their first instructions. -/
  entries : Std.TreeMap Nat Path := ∅
  /-- The paths with which cleanups begin after an exception. The exception is on top. -/
  raisedEntries : Std.TreeMap Nat Path := ∅
  /-- The blocks that have been run, by the positions of their first instructions. -/
  executed : Std.TreeSet Nat := ∅
  /-- What is returned. -/
  result : VarId
  /-- What is yielded. -/
  yielded : VarId
  current : Option Instruction := none
  deriving Inhabited

namespace Frame

def name (f : Frame) : String := f.code.code.name

def line (f : Frame) : Nat := f.current.elim f.code.code.firstLine (·.line)

end Frame

/-- Values that are made once: library classes, functions and modules by name, one object for each
class without type parameters, and the literals. -/
structure Shared where
  classes : Std.TreeMap String DataId := ∅
  functions : Std.TreeMap String DataId := ∅
  modules : Std.TreeMap String DataId := ∅
  objects : List (DataId × DataId) := []
  constants : Std.TreeMap (List Nat) (DataId × VarId) := ∅
  deriving Inhabited

/-- The machine. The innermost frame comes first. -/
structure Machine where
  options : Options := {}
  library : Library := {}
  graph : Graph := {}
  store : Store := {}
  shared : Shared := {}
  frames : List Frame := []
  /-- Where the next module begins. -/
  start : NodeId := 0
  log : FindingLog := {}
  /-- The node of the latest instruction. -/
  current : Option NodeId := none
  profile : Profile := {}
  deriving Inhabited

/-- Steps of a machine. What a step did before it failed stays. -/
abbrev Analysis := EStateM Failure Machine

instance : MonadLift (Except Failure) Analysis where
  monadLift x := MonadExcept.ofExcept x

namespace Machine

def root : NodeId := 0

def builtins : NamespaceId := 0

def unsolvable : DataId := .value 0

/-- A machine that has not run anything. -/
def make (options : Options) : Except Failure Machine := do
  options.validate.mapError .options
  let library ← Library.builtins.mapError .library
  match Graph.newNode "root" { limit := options.complexityLimit } with
  | .ok _ graph =>
    return {
      options, library, graph
      store := { values := #[.unsolvable], namespaces := #[∅] }
      profile := { enabled := options.profileOpcodes } }
  | .error e _ => throw (.tooComplex e)

def remainingDepth (m : Machine) : Nat := m.options.maxDepth - m.frames.length

def atMaximumDepth (m : Machine) : Bool := decide (m.options.maxDepth < m.frames.length)

end Machine

namespace Analysis

def lift (x : EStateM Failure Graph α) : Analysis α := fun m =>
  match x m.graph with
  | .ok a graph => .ok a { m with graph }
  | .error e graph => .error e { m with graph }

def mapFailure (f : Failure → Failure) (x : Analysis α) : Analysis α := fun m =>
  match x m with
  | .ok a m => .ok a m
  | .error e m => .error (f e) m

def grow (x : Graph.Growth α) : Analysis α := lift x.run

def onGraph (f : Graph → α × Graph) : Analysis α :=
  modifyGet fun m =>
    let (a, graph) := f m.graph
    (a, { m with graph })

def onStore (f : Store → α × Store) : Analysis α :=
  modifyGet fun m =>
    let (a, store) := f m.store
    (a, { m with store })

def setStore (f : Store → Store) : Analysis Unit := modify fun m => { m with store := f m.store }

def value (d : DataId) : Analysis Value := return (← get).store.get d

def addValue (v : Value) : Analysis DataId := onStore (·.add v)

def visible (v : VarId) (n : NodeId) : Analysis (List BindingId) := return (← get).graph.visible v n

def dataAt (v : VarId) (n : NodeId) : Analysis (List DataId) :=
  return (← get).graph.visibleData v n

def dataOf (b : BindingId) : Analysis DataId := return (← get).graph.dataOf b

def allBindings (v : VarId) : Analysis (List BindingId) := return (← get).graph.allBindings v

def isBound (v : VarId) : Analysis Bool := return !(← allBindings v).isEmpty

def newVariable (name : String) : Analysis VarId := onGraph (·.newVariable name)

def bind (v : VarId) (d : DataId) (sources : List BindingId) (n : NodeId) : Analysis Unit :=
  onGraph fun g => ((), (g.addBinding v d sources n).2)

def paste (dst src : VarId) (n : NodeId) : Analysis Unit :=
  onGraph fun g => ((), g.pasteVariable dst src n)

def variableWith (name : String) (d : DataId) (sources : List BindingId) (n : NodeId) :
    Analysis VarId := do
  let v ← newVariable name
  bind v d sources n
  return v

def newUnsolvable (n : NodeId) : Analysis VarId := variableWith "unsolvable" Machine.unsolvable [] n

def newUnknown (n : NodeId) : Analysis VarId := do
  variableWith "unknown" (← addValue (.unknown ∅)) [] n

/-- A new variable with the bindings of another one that can hold at a node, each justified by the
one that it copies. -/
def copyVisible (v : VarId) (n : NodeId) : Analysis VarId := do
  let bs ← visible v n
  onGraph fun g =>
    let (copy, g) := g.newVariable (g.var v).name
    (copy, g.pasteBindings copy bs n)

/-- One node behind several: the only one if there is just one. -/
def joinNodes (ns : List NodeId) : Analysis NodeId :=
  match ns.eraseDups with
  | [] => throw (.internal "joining no nodes")
  | [n] => return n
  | ns => grow do
    let join ← Graph.newNode "join"
    ns.forM fun n => Graph.connect n join
    return join

def frame : Analysis Frame := do
  match (← get).frames with
  | f :: _ => return f
  | [] => throw (.internal "no active frame")

def modifyFrame (f : Frame → Frame) : Analysis Unit :=
  modify fun m => { m with frames := m.frames.modifyHead f }

def withFrame (f : Frame) (x : Analysis α) : Analysis α := fun m =>
  match x { m with frames := f :: m.frames } with
  | .ok a m => .ok a { m with frames := m.frames.tail }
  | .error e m => .error e { m with frames := m.frames.tail }

/-- Report a finding about the present instruction. -/
def report (kind : FindingKind) (message : String) (details : Option String)
    (vars : List VarId) : Analysis Unit :=
  modify fun m =>
    let finding : Finding := { kind, message, details, vars }
    let finding := match m.frames with
      | f :: _ => { finding with
        filename := f.code.code.filename
        function := f.name
        line := f.line
        opcode := f.current.elim "" fun i => i.op.mnemonic }
      | [] => finding
    { m with log := m.log.report finding }

end Analysis

end ValueTrace
