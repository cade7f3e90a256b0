import ValueTrace.Failure

/-!
# Paths

The state of one path through a piece of code: the node that it has reached, its operands, the
regions that it is in, and the condition under which it is taken. Paths that meet at one
instruction are joined, slot by slot.
-/

namespace ValueTrace

/-- Why a path does not go on to the next instruction. -/
inductive Stop where
  | returned
  | yielded
  | raised
  | reraised
  | broke
  | continued
  /-- The condition of the path cannot hold. -/
  | unsatisfiable
  deriving DecidableEq, Repr

/-- What a region of the code does when control leaves it early. -/
inductive RegionKind where
  | loop
  /-- Exceptions are handled. -/
  | handled
  /-- There is something to be done on every way out. -/
  | cleanup
  /-- A context is left on every way out. -/
  | context
  deriving DecidableEq, Repr

/-- A region that a path has entered, the instruction that takes over when it is left early, and how
many operands there were at its start. -/
structure Region where
  kind : RegionKind
  handler : Nat
  level : Nat
  deriving DecidableEq, Repr

/-- An exception on its way to a handler. -/
structure Raised where
  type : VarId
  value : VarId
  traceback : VarId
  deriving DecidableEq, Repr

/-- What taking one side of a branch says. -/
inductive Condition where
  /-- The side is always possible. -/
  | unrestricted
  /-- The side is never possible. -/
  | unsatisfiable
  /-- The side is possible where the binding holds. -/
  | holds (b : BindingId)
  deriving DecidableEq, Repr

/-- The state of a path. The topmost operand and the innermost region come first. -/
structure Path where
  node : NodeId
  stack : List VarId := []
  regions : List Region := []
  condition : Option BindingId := none
  exception : Option Raised := none
  stop : Option Stop := none
  deriving DecidableEq, Repr, Inhabited

namespace Path

def push (p : Path) (v : VarId) : Path := { p with stack := v :: p.stack }

def pushAll (p : Path) (vs : List VarId) : Path := vs.foldl push p

def pop (p : Path) : Except Failure (VarId × Path) :=
  match p.stack with
  | v :: stack => .ok (v, { p with stack })
  | [] => .error (.stackUnderflow none 1 0)

def discard (p : Path) : Except Failure Path := return (← p.pop).2

def popN (p : Path) (n : Nat) : Except Failure (List VarId × Path) :=
  if p.stack.length < n then .error (.stackUnderflow none n p.stack.length)
  else .ok ((p.stack.take n).reverse, { p with stack := p.stack.drop n })

def popTwo (p : Path) : Except Failure (VarId × VarId × Path) :=
  match p.stack with
  | y :: x :: stack => .ok (x, y, { p with stack })
  | stack => .error (.stackUnderflow none 2 stack.length)

def popThree (p : Path) : Except Failure (VarId × VarId × VarId × Path) :=
  match p.stack with
  | z :: y :: x :: stack => .ok (x, y, z, { p with stack })
  | stack => .error (.stackUnderflow none 3 stack.length)

def peek (p : Path) (n : Nat) : Except Failure VarId :=
  match n with
  | 0 => .error (.stackUnderflow none 0 p.stack.length)
  | d + 1 => (p.stack[d]?).elim (.error (.stackUnderflow none n p.stack.length)) .ok

def top (p : Path) : Except Failure VarId := p.peek 1

def truncate (p : Path) (level : Nat) : Path :=
  { p with stack := p.stack.drop (p.stack.length - level) }

def rotate (p : Path) (n : Nat) : Except Failure Path := do
  let (vs, p) ← p.popN n
  return p.pushAll (vs.getLast?.toList ++ vs.dropLast)

def duplicate (p : Path) (n : Nat) : Except Failure Path := do
  let (vs, p) ← p.popN n
  return (p.pushAll vs).pushAll vs

def discardN (p : Path) (n : Nat) : Except Failure Path := return (← p.popN n).2

def enter (p : Path) (kind : RegionKind) (handler : Nat) : Path :=
  { p with regions := ⟨kind, handler, p.stack.length⟩ :: p.regions }

def leave (p : Path) : Except Failure (Region × Path) :=
  match p.regions with
  | r :: regions => .ok (r, { p with regions })
  | [] => .error (.stackUnderflow none 1 0)

def restrict (p : Path) : Condition → Path
  | .holds b => { p with condition := some b }
  | .unrestricted => p
  | .unsatisfiable => { p with stop := some .unsatisfiable }

def forward (p : Path) : Graph.Growth Path := do
  let n ← Graph.connectNew p.node ((← get).node p.node).name p.condition
  return { p with node := n }

def checkCompatible (a b : Path) (index : Nat) : Except Failure Unit :=
  if a.stack.length ≠ b.stack.length then
    .error (.stateMismatch index (.heights a.stack.length b.stack.length))
  else if a.regions ≠ b.regions then
    .error (.stateMismatch index (.regions a.regions.length b.regions.length))
  else .ok ()

def mergeStacks (g : Graph) (n : NodeId) : List VarId → List VarId → List VarId × Graph
  | a :: as, b :: bs =>
    let (rest, g) := mergeStacks g n as bs
    let (v, g) := g.mergeVariables n "stack" [a, b]
    (v :: rest, g)
  | _, _ => ([], g)

/-- Join a path with one that is there already, at a new node behind both. -/
def joinTo (p existing : Path) : Graph.Growth Path := do
  let n ← Graph.newNode "join"
  Graph.connect existing.node n
  Graph.connect p.node n
  let stack ← modifyGet fun g => mergeStacks g n existing.stack p.stack
  return {
    node := n
    stack
    regions := existing.regions
    condition := if existing.condition = p.condition then existing.condition else none
    exception := existing.exception <|> p.exception }

end Path

def Graph.Growth.run (x : Graph.Growth α) : EStateM Failure Graph α := fun g =>
  match x g with
  | .ok a g => .ok a g
  | .error e g => .error (.tooComplex e) g

def Path.merge (p existing : Path) (index : Nat) : EStateM Failure Graph Path := do
  MonadExcept.ofExcept (existing.checkCompatible p index)
  (p.joinTo existing).run

end ValueTrace
