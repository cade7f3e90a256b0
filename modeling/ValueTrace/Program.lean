import ValueTrace.Bytecode.Json
import ValueTrace.Call.Value
import ValueTrace.Machine.Types
import ValueTrace.Step.Instruction

/-!
# Programs

A program is the code of a module. It may be run after others that provide names for it. What comes
out are the names that it defines, with the types of what they may stand for, and the findings on
the way.
-/

namespace ValueTrace

/-- What a run of a program leaves. -/
structure Outcome where
  /-- The node after the program. -/
  final : NodeId
  /-- The names that the program defines. -/
  names : Members
  /-- The names that were there before. -/
  provided : List String
  deriving Inhabited

/-- What an analysis finds out: the types of names, and the findings. -/
structure Report where
  names : List (String × String)
  findings : List Finding
  deriving DecidableEq, Repr, Inhabited

namespace Analysis

def stepWithin (fuel : Nat) : Stepper := step (callEach (callValue step fuel))

/-- A frame for the code of a module, and the node at which it begins. -/
def enterModule (code : PlacedCode) : Analysis (Frame × NodeId) := do
  let n ← enterNode (← get).start "init"
  let globals ← onStore (·.newNamespace)
  let main ← literalVar (.str "__main__")
  let name ← newVariable "__name__"
  paste name main n
  setStore (·.define globals "__name__" name)
  return (← newFrame code globals (some globals) [] ∅ n, n)

def runModule (step : Stepper) (code : PlacedCode) : Analysis (NodeId × NamespaceId) := do
  let (f, n) ← enterModule code
  let (final, _) ← runFrame step f n
  return (final, f.globals)

def namesIn (ns : NamespaceId) : Analysis Members :=
  return ((← get).store.namespace? ns).getD ∅

def runProgramWith (step : Stepper) (code : PlacedCode) (provided : Members) :
    Analysis Outcome := do
  setStore (·.modifyNamespace Machine.builtins fun ns => ns.insertMany provided.toList)
  let (final, globals) ← runModule step code
  return { final, names := ← namesIn globals, provided := provided.keys }

def runProgram (fuel : Nat) : PlacedCode → Members → Analysis Outcome :=
  runProgramWith (stepWithin fuel)

def preload (fuel : Nat) (code : PlacedCode) : Analysis Members := do
  let (final, globals) ← runModule (stepWithin fuel) code
  modify ({ · with start := final })
  namesIn globals

end Analysis

def callDepth : Nat := 10000

def isSpecialName (name : String) : Bool :=
  let cs := name.toList
  cs.take 2 == ['_', '_'] && cs.reverse.take 2 == ['_', '_']

def Machine.report (m : Machine) (o : Outcome) : Report where
  names := (o.names.toList.filter fun (name, _) => !isSpecialName name).map fun (name, v) =>
    (name, m.typeText v o.final)
  findings := m.log.findings

def analyzeWith (step : Analysis.Stepper) (code : Code) (options : Options) :
    Except Failure Report := do
  let m ← Machine.make options
  match Analysis.runProgramWith step ⟨[0], code⟩ ∅ m with
  | .ok o m => return m.report o
  | .error e _ => throw e

def analyzeWithin (fuel : Nat) : Code → Options → Except Failure Report :=
  analyzeWith (Analysis.stepWithin fuel)

def analyze (code : Code) (options : Options) : Except Failure Report :=
  analyzeWithin callDepth code options

def analyzeText (text : String) (options : Options) : Except Failure Report := do
  analyze (← (Code.load text).mapError .code) options

def Machine.text (m : Machine) : String :=
  let o := m.options
  s!"VirtualMachine \x7b python_version: ({o.major}, {o.minor}), frames: {m.frames.length}, " ++
    s!"nodes: {m.graph.nodes.size}, variables: {m.graph.vars.size}, " ++
    s!"values: {m.store.values.size}, cost: {m.graph.cost} \x7d"

end ValueTrace
