import ValueTrace.Bytecode.Validation
import ValueTrace.Graph.Basic
import ValueTrace.Library.Basic
import ValueTrace.Options

/-! What ends an analysis before its time. Findings in the analysed program do not. -/

namespace ValueTrace

/-- How two states at one instruction differ in shape. -/
inductive Mismatch where
  | heights (a b : Nat)
  | regions (a b : Nat)
  deriving DecidableEq, Repr

def Mismatch.message : Mismatch → String
  | .heights a b => s!"stack heights {a} and {b}"
  | .regions a b => s!"block stacks of depth {a} and {b}"

/-- Why an analysis ended. -/
inductive Failure where
  | tooComplex (o : Overgrown)
  /-- There was too little on the stack for an operation, or outside of any. -/
  | stackUnderflow (op : Option Op) (needed present : Nat)
  | unknownOp (op : Op)
  | missingArgument (what : String)
  | outOfRange (op : Option Op) (table : CodeTable) (index : Nat)
  | stateMismatch (index : Nat) (reason : Mismatch)
  | badComparison (n : Nat)
  | internal (what : String)
  | code (e : CodeError)
  | library (e : LibraryError)
  | options (e : OptionsError)
  /-- The bound on nested steps was too small. -/
  | outOfFuel
  deriving DecidableEq, Repr

namespace Failure

/-- The text of a failure. -/
def message : Failure → String
  | .tooComplex o => o.message
  | .stackUnderflow op needed present =>
    let name := op.elim "" Op.mnemonic
    s!"stack underflow at {name}: needed {needed}, have {present}"
  | .unknownOp op => s!"unknown opcode {op.mnemonic}"
  | .missingArgument what => s!"{what} is missing its argument"
  | .outOfRange op table index =>
    let name := op.elim "" Op.mnemonic
    s!"{table.label} index {index} out of range in {name}"
  | .stateMismatch index reason =>
    s!"cannot merge states at instruction {index}: {reason.message}"
  | .badComparison n => s!"invalid comparison operator {n}"
  | .internal what => s!"internal error: {what}"
  | .code e => e.message
  | .library e => e.message
  | .options e => e.message
  | .outOfFuel => "out of fuel"

def atOp (op : Op) : Failure → Failure
  | .stackUnderflow none needed present => .stackUnderflow (some op) needed present
  | .outOfRange none table index => .outOfRange (some op) table index
  | f => f

end Failure

end ValueTrace
