import ValueTrace.Bytecode.Validation

/-!
# Assembling code

An assembler collects instructions whose operands are given by name or label. Names go into the
tables of the code on first use. At the end labels become positions, and the instructions are cut
into blocks: one starts at the first instruction, at each target, and after each jump or
terminator.
-/

namespace ValueTrace

/-- Cut instructions into blocks, before each one that `leads` holds of. -/
def Block.cut (leads : Instruction → Bool) : List Instruction → List Block :=
  fun ops => (go [] ops).zipIdx.map fun (ops, id) => ⟨id, ops⟩
where
  /-- The runs of instructions, with the current one in reverse. -/
  go (current : List Instruction) : List Instruction → List (List Instruction)
    | [] => if current.isEmpty then [] else [current.reverse]
    | i :: rest =>
      if leads i && !current.isEmpty then current.reverse :: go [i] rest
      else go (i :: current) rest

def Block.leaders (ops : List Instruction) : List Nat :=
  0 :: ops.flatMap fun i =>
    i.target.toList ++ if i.op.hasTarget || i.op.isTerminator then [i.index + 1] else []

def Block.partition (ops : List Instruction) : List Block :=
  let leaders := Block.leaders ops
  Block.cut (fun i => leaders.contains i.index) ops

/-- An instruction whose target is still a label. -/
structure PendingOp where
  op : Op
  arg : Option Nat
  line : Nat
  label : Option Nat
  deriving DecidableEq, Repr, Inhabited

/-- Code in the making: the tables so far, the instructions, latest first, and the position that
each label is bound to. -/
structure Assembler where
  code : Code
  pending : List PendingOp := []
  labels : Array (Option Nat) := #[]
  line : Nat := 1
  deriving Inhabited

namespace Assembler

def ofName (name : String) : Assembler where
  code := { (default : Code) with name, firstLine := 1 }

def module (filename : String) : Assembler :=
  let a := ofName "<module>"
  { a with code := { a.code with filename } }

def function (name : String) (params : List String) : Assembler :=
  let a := ofName name
  { a with code := { a.code with
      flags := Code.optimized ||| Code.newLocals
      argCount := UInt64.ofNat params.length
      varnames := params } }

def classBody (name : String) : Assembler :=
  let a := ofName name
  { a with code := { a.code with flags := Code.newLocals } }

def modifyCode (a : Assembler) (f : Code → Code) : Assembler := { a with code := f a.code }

def filename (a : Assembler) (s : String) : Assembler := a.modifyCode ({ · with filename := s })

def firstLine (a : Assembler) (n : Nat) : Assembler :=
  { a.modifyCode ({ · with firstLine := n }) with line := n }

def flag (a : Assembler) (flag : UInt32) : Assembler :=
  a.modifyCode fun c => { c with flags := c.flags ||| flag }

def kwonly (a : Assembler) (names : List String) : Assembler :=
  a.modifyCode fun c => { c with
    kwonlyArgCount := c.kwonlyArgCount + UInt64.ofNat names.length
    varnames := c.varnames ++ names }

def varargs (a : Assembler) (name : String) : Assembler :=
  (a.flag Code.varArgs).modifyCode fun c => { c with varnames := c.varnames ++ [name] }

def varkw (a : Assembler) (name : String) : Assembler :=
  (a.flag Code.varKeywords).modifyCode fun c => { c with varnames := c.varnames ++ [name] }

def cellvars (a : Assembler) (names : List String) : Assembler :=
  a.modifyCode ({ · with cellvars := names })

def freevars (a : Assembler) (names : List String) : Assembler :=
  (a.flag Code.nested).modifyCode ({ · with freevars := names })

def newLabel (a : Assembler) : Assembler := { a with labels := a.labels.push none }

def atLine (a : Assembler) (n : Nat) : Assembler := { a with line := n }

def bind (a : Assembler) (label : Nat) : Assembler :=
  { a with labels := a.labels.setIfInBounds label (some a.pending.length) }

def emit (a : Assembler) (op : Op) (arg label : Option Nat) : Assembler :=
  { a with pending := ⟨op, arg, a.line, label⟩ :: a.pending }

def jump (a : Assembler) (op : Op) (label : Nat) : Assembler := a.emit op (some 0) (some label)

def intern (table : List String) (name : String) : Nat × List String :=
  match table.idxOf? name with
  | some i => (i, table)
  | none => (table.length, table ++ [name])

def constIndex (a : Assembler) (c : Constant) : Nat × Assembler :=
  match a.code.consts.findIdx? (·.same c) with
  | some i => (i, a)
  | none => (a.code.consts.length, a.modifyCode fun k => { k with consts := k.consts ++ [c] })

def loadConst (a : Assembler) (c : Constant) : Assembler :=
  let (i, a) := a.constIndex c
  a.emit .loadConst (some i) none

def nameOp (a : Assembler) (op : Op) (name : String) : Assembler :=
  let (i, names) := intern a.code.names name
  (a.modifyCode ({ · with names })).emit op (some i) none

def fastOp (a : Assembler) (op : Op) (name : String) : Assembler :=
  let (i, varnames) := intern a.code.varnames name
  (a.modifyCode ({ · with varnames })).emit op (some i) none

/-- An instruction whose argument is a cell. A name that is neither a cell nor free becomes a
cell. -/
def cellOp (a : Assembler) (op : Op) (name : String) : Assembler :=
  match a.code.cellvars.idxOf? name with
  | some i => a.emit op (some i) none
  | none =>
    match a.code.freevars.idxOf? name with
    | some i => a.emit op (some (a.code.cellvars.length + i)) none
    | none =>
      (a.modifyCode fun c => { c with cellvars := c.cellvars ++ [name] }).emit op
        (some a.code.cellvars.length) none

/-- One step of assembling. -/
inductive Step where
  | line (n : Nat)
  | bind (label : Nat)
  | loadConst (c : Constant)
  | constant (c : Constant)
  | plain (op : Op)
  | withArg (op : Op) (arg : Nat)
  | withName (op : Op) (name : String)
  | withLocal (op : Op) (name : String)
  | withCell (op : Op) (name : String)
  | jump (op : Op) (label : Nat)

/-- Take one step. -/
def step (a : Assembler) : Step → Assembler
  | .line n => a.atLine n
  | .bind l => a.bind l
  | .loadConst c => a.loadConst c
  | .constant c => (a.constIndex c).2
  | .plain op => a.emit op none none
  | .withArg op n => a.emit op (some n) none
  | .withName op s => a.nameOp op s
  | .withLocal op s => a.fastOp op s
  | .withCell op s => a.cellOp op s
  | .jump op l => a.jump op l

def run (a : Assembler) (steps : List Step) : Assembler := steps.foldl step a

def emitted (a : Assembler) : List PendingOp := a.pending.reverse

def position? (a : Assembler) (label : Nat) : Option Nat := (a.labels[label]?).join

/-- The finished form of an instruction at a position. -/
def resolve (a : Assembler) (p : PendingOp) (index : Nat) : Except CodeError Instruction :=
  match p.label with
  | none => .ok { index, op := p.op, arg := p.arg, line := p.line }
  | some label =>
    match a.position? label with
    | some target =>
      .ok { index, op := p.op, arg := some target, line := p.line, target := some target }
    | none => .error (.unboundLabel a.code.name label)

def build (a : Assembler) : Except CodeError Code := do
  let ops ← a.emitted.zipIdx.mapM fun (p, i) => a.resolve p i
  let code := { a.code with blocks := Block.partition ops }
  code.validate
  return code

end Assembler

end ValueTrace
