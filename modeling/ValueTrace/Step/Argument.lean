import ValueTrace.Machine.Run

/-! What the arguments of instructions refer to in the innermost frame. -/

namespace ValueTrace

namespace Analysis

def argument (i : Instruction) : Analysis Nat :=
  i.arg.elim (throw (.missingArgument i.op.mnemonic)) pure

def target (i : Instruction) : Analysis Nat :=
  i.target.elim (throw (.missingArgument i.op.mnemonic)) pure

def entryAt (table : CodeTable) (entries : Frame → List α) (i : Instruction) : Analysis α := do
  let n ← argument i
  let f ← frame
  (entries f)[n]?.elim (throw (.outOfRange (some i.op) table n)) pure

def nameAt (i : Instruction) : Analysis String := entryAt .names (·.code.code.names) i

def localAt (i : Instruction) : Analysis String := entryAt .locals (·.code.code.varnames) i

def cellAt (i : Instruction) : Analysis VarId := entryAt .cells (·.cells) i

def constAt (i : Instruction) : Analysis VarId := do
  let c ← entryAt .consts (·.code.code.consts) i
  let (_, v) ← constant ((← frame).code.place ++ [(← argument i)]) c
  return v

end Analysis

end ValueTrace
