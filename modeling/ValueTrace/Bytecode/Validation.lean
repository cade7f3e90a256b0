import ValueTrace.Bytecode.Code

/-! The form that the machine relies on: instructions count up from zero, arguments stay within the
tables, and jumps land on the first instruction of a block. -/

namespace ValueTrace

/-- The tables of a code object that arguments index. -/
inductive CodeTable where
  | names | locals | consts | cells
  deriving DecidableEq, Repr

namespace CodeTable

def label : CodeTable → String
  | .names => "names"
  | .locals => "varnames"
  | .consts => "consts"
  | .cells => "cells"

def size (c : Code) : CodeTable → Nat
  | .names => c.names.length
  | .locals => c.varnames.length
  | .consts => c.consts.length
  | .cells => c.cellvars.length + c.freevars.length

def ofOp? (op : Op) : Option CodeTable :=
  if op.usesName then some .names
  else if op.usesLocal then some .locals
  else if op.usesConst then some .consts
  else if op.usesCell then some .cells
  else none

end CodeTable

/-- Why code was refused. Each cause names the code object. -/
inductive CodeError where
  | emptyCode (code : String)
  | emptyBlock (code : String) (block : Nat)
  | outOfSequence (code : String) (expected found : Nat)
  | missingArgument (code : String) (index : Nat) (op : Op)
  | badTarget (code : String) (index : Nat) (target : Option Nat)
  | outOfRange (code : String) (index : Nat) (table : CodeTable) (arg size : Nat)
  | unboundLabel (code : String) (label : Nat)
  /-- The text is no JSON form of a code object. -/
  | malformed
  deriving DecidableEq, Repr

/-- The text of an error. -/
def CodeError.message : CodeError → String
  | .emptyCode code => s!"code object '{code}' has no instructions"
  | .emptyBlock code block => s!"block {block} of '{code}' is empty"
  | .outOfSequence code expected found =>
    s!"instruction {found} of '{code}' is out of sequence, expected {expected}"
  | .missingArgument code index op =>
    s!"instruction {index} of '{code}' ({op.mnemonic}) is missing its argument"
  | .badTarget code index target =>
    let shown := target.elim "None" fun n => s!"Some({n})"
    s!"instruction {index} of '{code}' jumps to {shown}, which does not start a block"
  | .outOfRange code index table arg size =>
    s!"instruction {index} of '{code}' refers to {table.label}[{arg}] " ++
      s!"but the table has {size} entries"
  | .unboundLabel code label => s!"label {label} in '{code}' was never bound"
  | .malformed => "invalid bytecode JSON"

namespace Code

def blockStarts (c : Code) : Except CodeError (List Nat) :=
  c.blocks.mapM fun b =>
    match b.start? with
    | some i => .ok i
    | none => .error (.emptyBlock c.name b.id)

/-- Check one instruction, which should stand at position `expected`. -/
def checkOp (c : Code) (starts : List Nat) (expected : Nat) (i : Instruction) :
    Except CodeError Unit := do
  if i.index ≠ expected then throw (.outOfSequence c.name expected i.index)
  if i.op.hasArg && i.arg.isNone then throw (.missingArgument c.name i.index i.op)
  if i.op.hasTarget && !(i.target.any starts.contains) then
    throw (.badTarget c.name i.index i.target)
  match CodeTable.ofOp? i.op with
  | some table =>
    let arg := i.arg.getD 0
    if table.size c ≤ arg then throw (.outOfRange c.name i.index table arg (table.size c))
  | none => pure ()

def checkSelf (c : Code) : Except CodeError Unit := do
  if c.blocks.isEmpty then throw (.emptyCode c.name)
  let starts ← c.blockStarts
  c.ops.zipIdx.forM fun (i, expected) => c.checkOp starts expected i

end Code

mutual

def Code.validate : Code → Except CodeError Unit
  | ⟨name, filename, line, args, kwonly, flags, vars, names, consts, cells, free, blocks⟩ => do
    Code.checkSelf
      ⟨name, filename, line, args, kwonly, flags, vars, names, consts, cells, free, blocks⟩
    Constant.validateAll consts

def Constant.validate : Constant → Except CodeError Unit
  | .code c => Code.validate c
  | .tuple items => Constant.validateAll items
  | _ => .ok ()

def Constant.validateAll : List Constant → Except CodeError Unit
  | [] => .ok ()
  | c :: cs => do
    Constant.validate c
    Constant.validateAll cs

end

end ValueTrace
