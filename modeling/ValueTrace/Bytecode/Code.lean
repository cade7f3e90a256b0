import ValueTrace.Bytecode.Op

/-!
# Code and constants

A code object is a list of blocks of instructions with the tables that their arguments index.
Constants may hold further code. Two constants are the same when they are built alike and their
numbers compare equal, so positive and negative zero are one constant.
-/

namespace ValueTrace

/-- A straight run of instructions. Control enters at the first one only. -/
structure Block where
  id : Nat
  ops : List Instruction
  deriving DecidableEq, Repr, Inhabited

namespace Block

def start? (b : Block) : Option Nat := b.ops.head?.map (·.index)

def last? (b : Block) : Option Instruction := b.ops.getLast?

end Block

mutual

/-- A literal in the constants of a code object. -/
inductive Constant where
  | none
  | bool (b : Bool)
  | int (n : Int)
  | float (f : Float)
  | complex (re im : Float)
  | str (s : String)
  | unicode (s : String)
  | bytes (bs : List UInt8)
  | ellipsis
  | tuple (items : List Constant)
  | code (c : Code)

/-- A code object. The parameters come first among the local variables: positional ones, ones given
by keyword only, then those that collect surplus arguments. Their counts are machine words. -/
structure Code where
  name : String
  filename : String
  firstLine : Nat
  argCount : UInt64
  kwonlyArgCount : UInt64
  flags : UInt32
  varnames : List String
  names : List String
  consts : List Constant
  cellvars : List String
  freevars : List String
  blocks : List Block

end

instance : Inhabited Constant := ⟨.none⟩

instance : Inhabited Code := ⟨"", "", 0, 0, 0, 0, [], [], [], [], [], []⟩

mutual

/-- Whether two constants are the same. -/
def Constant.same : Constant → Constant → Bool
  | .none, .none => true
  | .bool a, .bool b => a == b
  | .int a, .int b => a == b
  | .float a, .float b => a == b
  | .complex a b, .complex c d => a == c && b == d
  | .str a, .str b => a == b
  | .unicode a, .unicode b => a == b
  | .bytes a, .bytes b => a == b
  | .ellipsis, .ellipsis => true
  | .tuple a, .tuple b => Constant.sameAll a b
  | .code a, .code b => Code.same a b
  | _, _ => false

def Constant.sameAll : List Constant → List Constant → Bool
  | [], [] => true
  | a :: as, b :: bs => Constant.same a b && Constant.sameAll as bs
  | _, _ => false

/-- Whether two code objects have the same content. -/
def Code.same : Code → Code → Bool
  | ⟨name, filename, line, args, kwonly, flags, vars, names, consts, cells, free, blocks⟩,
    ⟨name', filename', line', args', kwonly', flags', vars', names', consts', cells', free',
      blocks'⟩ =>
    name == name' && filename == filename' && line == line' && args == args' &&
      kwonly == kwonly' && flags == flags' && vars == vars' && names == names' &&
      Constant.sameAll consts consts' && cells == cells' && free == free' && blocks == blocks'

end

namespace Constant

/-- Whether the literal counts as true in a test. -/
def truthy : Constant → Bool
  | .none => false
  | .bool b => b
  | .int n => n != 0
  | .float f => f != 0.0
  | .complex re im => re != 0.0 || im != 0.0
  | .str s | .unicode s => !s.isEmpty
  | .bytes bs => !bs.isEmpty
  | .ellipsis | .code _ => true
  | .tuple items => !items.isEmpty

def str? : Constant → Option String
  | .str s | .unicode s => some s
  | _ => Option.none

def int? : Constant → Option Int
  | .int n => some n
  | .bool b => some (if b then 1 else 0)
  | _ => Option.none

mutual

def containsCode : Constant → Bool
  | .code _ => true
  | .tuple items => anyContainsCode items
  | _ => false

def anyContainsCode : List Constant → Bool
  | [] => false
  | c :: cs => containsCode c || anyContainsCode cs

end

end Constant

namespace Code

def optimized : UInt32 := 0x1

def newLocals : UInt32 := 0x2

def varArgs : UInt32 := 0x4

def varKeywords : UInt32 := 0x8

def nested : UInt32 := 0x10

def generator : UInt32 := 0x20

def hasFlag (c : Code) (flag : UInt32) : Bool := c.flags &&& flag != 0

def isGenerator (c : Code) : Bool := c.hasFlag generator

def positionalEnd (c : Code) : Nat := min c.argCount.toNat c.varnames.length

def namedEnd (c : Code) : UInt64 := c.argCount + c.kwonlyArgCount

def positionalParams (c : Code) : List String := c.varnames.take c.positionalEnd

def kwonlyParams (c : Code) : List String :=
  (c.varnames.take (min c.namedEnd.toNat c.varnames.length)).drop c.positionalEnd

def varargsName? (c : Code) : Option String :=
  if c.hasFlag varArgs then c.varnames[c.namedEnd.toNat]? else none

def varkwName? (c : Code) : Option String :=
  if c.hasFlag varKeywords then
    c.varnames[(if c.hasFlag varArgs then c.namedEnd + 1 else c.namedEnd).toNat]?
  else none

def cellName? (c : Code) (i : Nat) : Option String := (c.cellvars ++ c.freevars)[i]?

def ops (c : Code) : List Instruction := c.blocks.flatMap (·.ops)

def firstOp? (c : Code) : Option Instruction := c.blocks.head?.bind (·.ops.head?)

def blockStartingAt? (c : Code) (i : Nat) : Option Block :=
  c.blocks.find? fun b => b.start? == some i

def opAt? (c : Code) (i : Nat) : Option Instruction := c.ops.find? (·.index == i)

def countOps (c : Code) (op : Op) : Nat := c.ops.countP (·.op == op)

end Code

end ValueTrace
