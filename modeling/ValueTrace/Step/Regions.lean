import ValueTrace.Call.Basic
import ValueTrace.Step.Argument

/-!
# Regions, exceptions and returns

The instruction that takes over when a region is left early gets a path when the region is entered,
so it is looked at even if nothing in the region can raise. Paths that do leave early are added to
it.
-/

namespace ValueTrace

namespace Analysis

def isAllNone (v : VarId) (n : NodeId) : Analysis Bool := do
  let store := (← get).store
  return (← dataAt v n).all store.isNone

def setupHandled (i : Instruction) (p : Path) : Analysis Path := do
  let dest ← target i
  storeJump dest (← pushException p)
  return p.enter .handled dest

def setupCleanup (i : Instruction) (p : Path) : Analysis Path := do
  let dest ← target i
  storeJump dest (p.push (← newNone p.node))
  return p.enter .cleanup dest

/-- Enter a context: its way out stays on the stack, and what its way in gives goes on top. -/
def setupContext (call : Caller) (i : Instruction) (p : Path) : Analysis Path := do
  let dest ← target i
  let (context, p) ← p.pop
  let p := p.push (← loadAttribute p.node context "__exit__")
  storeJump dest (p.push (← newNone p.node))
  let p := p.enter (if (← get).options.isThird then .cleanup else .context) dest
  let (n, entered) ← callMethod call p.node context "__enter__" []
  return { p with node := n }.push entered

/-- Call the way out of a context, below nothing or an exception. What is on top stays. -/
def leaveContext (call : Caller) (p : Path) : Analysis Path := do
  if ← isAllNone (← p.top) p.node then
    let (out, v, p) ← p.popTwo
    let (n, _) ← callOrReport call p.node out { positional := [v, v, v] }
    return { p with node := n }.push v
  else
    let (traceback, value, type, p) ← p.popThree
    let (out, p) ← p.pop
    let (n, _) ← callOrReport call p.node out { positional := [type, value, traceback] }
    return { p with node := n }.pushAll [traceback, value, type]

def endCleanup (p : Path) : Analysis Path := do
  let (v, p) ← p.pop
  if ← isAllNone v p.node then return p
  p.discardN 2

def unknownException (n : NodeId) : Analysis Raised := do
  let type ← newUnknown n
  let value ← newUnknown n
  let traceback ← newUnknown n
  return { type, value, traceback }

/-- Raise an exception given by so many operands. Without any, the present one is raised again. -/
def raise (count : Nat) (p : Path) : Analysis Path := do
  if count = 0 then
    let e ← match p.exception with
      | some e => pure e
      | none => unknownException p.node
    return { p with exception := some e, stop := some .reraised }
  let (items, p) ← p.popN count
  let e ← unknownException p.node
  let type := items.head?.getD e.type
  if (← get).options.isThird then
    return { p with exception := some { e with type, value := type }, stop := some .raised }
  return { p with
    exception := some {
      type
      value := items[1]?.getD e.value
      traceback := items[2]?.getD e.traceback }
    stop := some (if count = 3 then .reraised else .raised) }

def returnValue (p : Path) : Analysis Path := do
  let (v, p) ← p.pop
  paste (← frame).result v p.node
  return { p with stop := some .returned }

def yieldValue (p : Path) : Analysis Path := do
  let (v, p) ← p.pop
  paste (← frame).yielded v p.node
  return { p with stop := some .yielded }

end Analysis

end ValueTrace
