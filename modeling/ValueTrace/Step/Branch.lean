import ValueTrace.Call.Basic
import ValueTrace.Path.Split
import ValueTrace.Step.Argument

/-!
# Branches and loops

A branch splits the path. Each side goes on under the bindings that agree with it, and a side with
which none agrees ends.
-/

namespace ValueTrace

/-- Whether the sides of a branch keep the operand that is tested. -/
inductive Tested where
  | keep
  | drop
  /-- The side that jumps keeps it. -/
  | keepOnJump
  deriving DecidableEq, Repr

namespace Analysis

def jump (i : Instruction) (p : Path) : Analysis Path := do
  let dest ← target i
  let p ← grow p.forward
  storeJump dest p
  return p

/-- Jump if the topmost operand counts as true, or as false. -/
def jumpIf (i : Instruction) (sense : Bool) (tested : Tested) (p : Path) : Analysis Path := do
  let dest ← target i
  let v ← p.top
  let store := (← get).store
  let (yes, no) ← onGraph fun g =>
    let (yes, no, g) := store.split g p.node p.condition v
    ((yes, no), g)
  let (taken, other) := if sense then (yes, no) else (no, yes)
  if taken ≠ .unsatisfiable then
    let q ← if tested = .drop then p.discard else pure p
    storeJump dest (← grow (q.restrict taken).forward)
  let p ← if tested = .keep then pure p else p.discard
  if other = .unsatisfiable then return { p with stop := some .unsatisfiable }
  grow (p.restrict other).forward

/-- Replace a sequence by an iterator over it. -/
def getIterator (call : Caller) (p : Path) : Analysis Path := do
  let (seq, p) ← p.pop
  match ← loadAttribute? p.node seq "__iter__" with
  | some method =>
    let (n, iterator) ← callOrReport call p.node method {}
    return { p with node := n }.push iterator
  | none =>
    match ← loadAttribute? p.node seq "__getitem__" with
    | some _ => return p.push (← newUnsolvable p.node)
    | none => return p.push (← loadAttribute p.node seq "__iter__")

def nextItem (call : Caller) (i : Instruction) (p : Path) : Analysis Path := do
  let dest ← target i
  storeJump dest (← p.discard)
  let method := if (← get).options.isThird then "__next__" else "next"
  let (n, item) ← callMethod call p.node (← p.top) method []
  return { p with node := n }.push item

end Analysis

end ValueTrace
