import ValueTrace.Machine.Shared

/-!
# Running a frame

The blocks of a code object are run once each, in order. A block begins with the join of the paths
that reach it from blocks before, and is passed over if there is none. A path that leads back to a
block that has been run adds an edge of the graph. A cleanup that is also reached by an exception
is run a second time, because the operands of the two do not match.
-/

namespace ValueTrace

namespace Analysis

/-- A new frame. Code that asks for local variables of its own does not use those that are given. -/
def newFrame (code : PlacedCode) (globals : NamespaceId) (locals : Option NamespaceId)
    (closure : List VarId) (args : Members) (n : NodeId) : Analysis Frame := do
  let given := if code.code.hasFlag Code.newLocals then none else locals
  let locals ← match given with
    | some ns => pure ns
    | none => onStore (·.newNamespace)
  let cells ← code.code.cellvars.mapM fun name => do
    let cell ← newVariable name
    if let some arg := args[name]? then paste cell arg n
    return cell
  let free ← code.code.freevars.zipIdx.mapM fun (name, i) =>
    match closure[i]? with
    | some v => pure v
    | none => newVariable name
  args.toList.forM fun (name, arg) => do
    let v ← newVariable name
    paste v arg n
    setStore (·.define locals name v)
  let result ← newVariable "return"
  let yielded ← newVariable "yield"
  return { code, globals, locals, cells := cells ++ free, result, yielded }

def enterNode (n : NodeId) (name : String) : Analysis NodeId := grow (Graph.connectNew n name none)

/-- Lead a path to an instruction. -/
def storeJump (target : Nat) (p : Path) : Analysis Unit := do
  let p := { p with stop := none }
  let f ← frame
  if f.executed.contains target then
    let some stored := f.entries[target]? | return
    stored.checkCompatible p target
    grow (Graph.connect p.node stored.node)
    (stored.stack.zip p.stack).reverse.forM fun (dst, src) => paste dst src p.node
  else
    let p ← match f.entries[target]? with
      | some existing => lift (p.merge existing target)
      | none => pure p
    modifyFrame fun f => { f with entries := f.entries.insert target p }

/-- Lead a path with an exception on top to a cleanup. -/
def storeRaised (target : Nat) (p : Path) : Analysis Unit := do
  let p := { p with stop := none }
  let f ← frame
  unless f.executed.contains target do
    let p ← match f.raisedEntries[target]? with
      | some existing => lift (p.merge existing target)
      | none => pure p
    modifyFrame fun f => { f with raisedEntries := f.raisedEntries.insert target p }

/-- Push the exception of a path: traceback, value and type. Parts that are not known are made up.
-/
def pushException (p : Path) : Analysis Path := do
  let e ← match p.exception with
    | some e => pure e
    | none => do
      let list ← plainObject "list"
      let traceback ← variableWith "tb" list [] p.node
      let value ← newUnknown p.node
      let type ← newUnknown p.node
      pure { type, value, traceback }
  return { p with exception := none }.pushAll [e.traceback, e.value, e.type]

/-- Leave regions until one takes over a path that has stopped. -/
def unwind (i : Instruction) (p : Path) : List Region → Analysis Unit
  | [] => return
  | r :: regions => do
    let left := { p with regions }.truncate r.level
    match p.stop, r.kind with
    | some .continued, .loop =>
      let some target := i.target | throw (.missingArgument i.op.mnemonic)
      storeJump target { p with regions := r :: regions }
    | some .broke, .loop => storeJump r.handler left
    | some .raised, .handled => storeJump r.handler (← pushException left)
    | some .raised, .cleanup | some .raised, .context =>
      storeRaised r.handler (← pushException left)
    | _, _ => unwind i p regions

/-- A way to run an instruction on a path. -/
abbrev Stepper := Instruction → Path → Analysis Path

def runInstruction (step : Stepper) (i : Instruction) (p : Path) : Analysis Path := do
  modify fun m => { m with profile := m.profile.record i.op, current := some p.node }
  modifyFrame ({ · with current := some i })
  let p ← mapFailure (·.atOp i.op) (step i p)
  return if p.stop = some .reraised then { p with stop := some .raised } else p

/-- Run instructions until the path stops, given the instruction before. The answer is the
instruction that was run last, with the path after it. -/
def runInstructions (step : Stepper) (last : Instruction) (p : Path) :
    List Instruction → Analysis (Instruction × Path)
  | [] => return (last, p)
  | i :: is => do
    if p.stop.isSome then return (last, p)
    runInstructions step i (← runInstruction step i p) is

/-- Run a block with a path. The answer is the node at which the path returns, if it does. -/
def runBlock (step : Stepper) (b : Block) (p : Path) : Analysis (Option NodeId) := do
  match b.ops with
  | [] => return none
  | i :: is =>
    let (last, p) ← runInstructions step i (← runInstruction step i p) is
    match p.stop with
    | some .returned | some .yielded => return some p.node
    | some .unsatisfiable => return none
    | some _ =>
      unwind last p p.regions
      return none
    | none =>
      if last.carriesOn then storeJump last.next p
      return none

/-- Run a block with each of the paths that reach it. The answer is where they return. -/
def runEntries (step : Stepper) (b : Block) : Analysis (List NodeId) := do
  let some start := b.start? | return []
  let f ← frame
  let paths := f.entries[start]?.toList ++ f.raisedEntries[start]?.toList
  if paths.isEmpty then return []
  modifyFrame fun f => { f with executed := f.executed.insert start }
  return (← paths.mapM (runBlock step b)).filterMap id

/-- Run a frame from a node. The answer is the node after it and the variable for its result. If all
paths raise, it is the node before. -/
def runFrame (step : Stepper) (f : Frame) (n : NodeId) : Analysis (NodeId × VarId) := do
  let code := f.code.code
  let some first := code.firstOp? | throw (.internal s!"{code.name} has no instructions")
  let f := { f with entries := f.entries.insert first.index { node := n } }
  let returns ← withFrame f do return (← code.blocks.mapM (runEntries step)).flatten
  if returns.isEmpty then return (n, f.result)
  return (← joinNodes returns, f.result)

end Analysis

end ValueTrace
