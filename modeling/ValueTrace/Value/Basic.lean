import ValueTrace.Bytecode.Code
import ValueTrace.Graph.Basic
import ValueTrace.Signature.Basic
import Std.Data.TreeMap

/-!
# Abstract values

What the analysis knows of an object: its class and what may be in its parts, or that it gives up on
it. Parts are variables of the graph, so what is in them depends on the node.
-/

namespace ValueTrace

/-- The number of a namespace. -/
abbrev NamespaceId := Nat

/-- Variables by name. -/
abbrev Members := Std.TreeMap String VarId

/-- A code object with the place where it stands: the number of the code that is run, and from there
the positions among the constants. Code objects at two places are two, even if they are alike. -/
structure PlacedCode where
  place : List Nat
  code : Code
  deriving Inhabited

/-- What is known of an object beyond its class. -/
inductive Payload where
  /-- It is this literal, which is neither a tuple nor code. -/
  | constant (c : Constant)
  /-- It is a tuple of these items. -/
  | tuple (items : List VarId)
  /-- It is this code. -/
  | code (c : PlacedCode)
  deriving Inhabited

/-- An object. There is a variable for each type parameter of its class. -/
structure Object where
  cls : DataId
  typeParams : Members := ∅
  members : Members := ∅
  payload : Option Payload := none
  deriving Inhabited

/-- Where a class comes from. -/
inductive ClassOrigin where
  | library
  | program
  deriving DecidableEq, Repr, Inhabited

/-- A class. Its linearisation starts with itself. -/
structure ClassValue where
  name : String
  bases : List VarId := []
  members : Members := ∅
  mro : List DataId := []
  template : List String := []
  origin : ClassOrigin
  deriving Inhabited

/-- A function of the analysed program. Cells are in the order of the free variables of its code,
and annotations give classes to parameters. -/
structure FunctionValue where
  name : String
  code : PlacedCode
  globals : NamespaceId
  defaults : List VarId := []
  kwDefaults : Members := ∅
  closure : List VarId := []
  annotations : Std.TreeMap String DataId := ∅
  members : Members := ∅
  deriving Inhabited

/-- A function of the library. -/
structure NativeValue where
  name : String
  signatures : List Signature := []
  mutates : List String := []
  deriving Inhabited

/-- Functions that need more than a signature. -/
inductive SpecialForm where
  | isInstance
  | super
  | buildClass
  deriving DecidableEq, Repr, Inhabited

namespace SpecialForm

def name : SpecialForm → String
  | .isInstance => "isinstance"
  | .super => "super"
  | .buildClass => "__build_class__"

def all : List SpecialForm := [.isInstance, .super, .buildClass]

end SpecialForm

/-- An abstract value. -/
inductive Value where
  | object (o : Object)
  | ofClass (c : ClassValue)
  | function (f : FunctionValue)
  | native (f : NativeValue)
  /-- A function bound to the receiver that it was looked up on. -/
  | method (receiver : VarId) (function : DataId)
  /-- A module with the members that have been looked up so far. -/
  | module (name : String) (members : Members)
  /-- A value that is not tracked. What is read from it is remembered. -/
  | unknown (members : Members)
  /-- A value that the analysis has given up on. Whatever is done with it gives another one. -/
  | unsolvable
  | special (form : SpecialForm)
  deriving Inhabited

namespace Value

def isOpaque : Value → Bool
  | .unknown _ | .unsolvable => true
  | _ => false

def isFunction : Value → Bool
  | .function _ | .native _ | .method .. | .special _ => true
  | _ => false

def class? : Value → Option ClassValue
  | .ofClass c => some c
  | _ => none

def object? : Value → Option Object
  | .object o => some o
  | _ => none

def constant? : Value → Option Constant
  | .object { payload := some (.constant c), .. } => some c
  | _ => none

end Value

end ValueTrace
