import ValueTrace.Call.Basic

/-!
# Operators

An operator is a call of a method of its left operand. An operator in place tries a method of its
own first.
-/

namespace ValueTrace

/-- The method behind a binary operation. -/
def Op.binaryMethod? : Op → Option String
  | .binaryPower => some "__pow__"
  | .binaryMultiply => some "__mul__"
  | .binaryDivide => some "__div__"
  | .binaryModulo => some "__mod__"
  | .binaryAdd => some "__add__"
  | .binarySubtract => some "__sub__"
  | .binarySubscr => some "__getitem__"
  | .binaryFloorDivide => some "__floordiv__"
  | .binaryTrueDivide => some "__truediv__"
  | .binaryLshift => some "__lshift__"
  | .binaryRshift => some "__rshift__"
  | .binaryAnd => some "__and__"
  | .binaryXor => some "__xor__"
  | .binaryOr => some "__or__"
  | _ => none

/-- The methods behind an operation in place: its own, and that of the binary operation. -/
def Op.inplaceMethods? : Op → Option (String × String)
  | .inplacePower => some ("__ipow__", "__pow__")
  | .inplaceMultiply => some ("__imul__", "__mul__")
  | .inplaceDivide => some ("__idiv__", "__div__")
  | .inplaceModulo => some ("__imod__", "__mod__")
  | .inplaceAdd => some ("__iadd__", "__add__")
  | .inplaceSubtract => some ("__isub__", "__sub__")
  | .inplaceFloorDivide => some ("__ifloordiv__", "__floordiv__")
  | .inplaceTrueDivide => some ("__itruediv__", "__truediv__")
  | .inplaceLshift => some ("__ilshift__", "__lshift__")
  | .inplaceRshift => some ("__irshift__", "__rshift__")
  | .inplaceAnd => some ("__iand__", "__and__")
  | .inplaceXor => some ("__ixor__", "__xor__")
  | .inplaceOr => some ("__ior__", "__or__")
  | _ => none

/-- The method behind a comparison. Identity and membership have none that matters. -/
def Comparison.method? : Comparison → Option String
  | .lt => some "__lt__"
  | .le => some "__le__"
  | .eq => some "__eq__"
  | .ne => some "__ne__"
  | .gt => some "__gt__"
  | .ge => some "__ge__"
  | _ => none

def reflected? (method : String) : Option String :=
  if method == "__getitem__" then none
  else
    match method.toList with
    | '_' :: '_' :: rest => some (String.ofList ("__r".toList ++ rest))
    | _ => none

def Store.isSomething (s : Store) (d : DataId) : Bool := !(s.get d).isOpaque && !s.isNone d

namespace Analysis

/-- Call a method with one argument. There is no answer if it gives nothing. -/
def tryMethod (call : Caller) (n : NodeId) (obj : VarId) (method : String) (arg : VarId) :
    Analysis (Option (NodeId × VarId)) := do
  match ← loadAttribute? n obj method with
  | none => return none
  | some attr =>
    let (stop, result) ← callQuietly call n attr { positional := [arg] }
    return if ← isBound result then some (stop, result) else none

/-- Call the method of the left operand or, if options say so, the reflected one of the right
operand. -/
def tryOperator (call : Caller) (n : NodeId) (method : String) (x y : VarId) :
    Analysis (Option (NodeId × VarId)) := do
  if let some done ← tryMethod call n x method y then return some done
  if !(← get).options.reverseOperators then return none
  match reflected? method with
  | some method => tryMethod call n y method x
  | none => return none

/-- Apply an operator. Operands that do not support it are reported. -/
def applyOperator (call : Caller) (n : NodeId) (method : String) (x y : VarId) :
    Analysis (NodeId × VarId) := do
  if let some done ← tryOperator call n method x y then return done
  unless (← visible x n).isEmpty || (← visible y n).isEmpty do
    let left ← typeNames x n
    let right ← typeNames y n
    report .unsupportedOperands s!"Unsupported operands for {method}: '{left}' and '{right}'" none
      [x, y]
  return (n, ← newUnsolvable n)

def binaryOperator (call : Caller) (method : String) (p : Path) : Analysis Path := do
  let (x, y, p) ← p.popTwo
  let (n, result) ← applyOperator call p.node method x y
  return { p with node := n }.push result

/-- Pop two operands and push what the second one finds in the first. If that is nothing at all, what
has been reported on the way is taken back. -/
def subscript (call : Caller) (p : Path) : Analysis Path := do
  let (x, y, p) ← p.popTwo
  let mark := (← get).log.checkpoint
  let (n, result) ← applyOperator call p.node "__getitem__" x y
  if ← isBound result then return { p with node := n }.push result
  modify fun m => { m with log := m.log.revertTo mark }
  return p.push (← newUnsolvable p.node)

def inplaceOperator (call : Caller) (inplace binary : String) (p : Path) : Analysis Path := do
  let (x, y, p) ← p.popTwo
  let (n, result) ← match ← tryMethod call p.node x inplace y with
    | some done => pure done
    | none => applyOperator call p.node binary x y
  return { p with node := n }.push result

def unaryOperator (call : Caller) (method : String) (p : Path) : Analysis Path := do
  let (x, p) ← p.pop
  let (n, result) ← callMethod call p.node x method []
  return { p with node := n }.push result

/-- Pop an operand and push whether it is false. -/
def unaryNot (p : Path) : Analysis Path := do
  let (x, p) ← p.pop
  let result ← newVariable "not"
  (← visible x p.node).forM fun b => do
    let m ← get
    let d := m.graph.dataOf b
    let agrees := m.store.compatibleWith m.graph d
    let known := match agrees true, agrees false with
      | true, false => some false
      | false, true => some true
      | _, _ => none
    bind result (← truth known) [b] p.node
  return p.push result

def unaryConvert (p : Path) : Analysis Path := do
  let p ← p.discard
  return p.push (← variableWith "repr" (← plainObject "str") [] p.node)

/-- A truth value that is not known. It is justified by an operand that can be only one thing. -/
def unknownTruth (n : NodeId) (vars : List VarId) : Analysis VarId := do
  let d ← truth none
  let v ← newVariable "bool"
  let g := (← get).graph
  let sources := vars.filterMap fun v =>
    match g.visible v n with
    | [b] => some b
    | _ => none
  bind v d sources n
  return v

/-- Whether two variables hold the same object, or not if negated. This is known only where one of
them holds nothing. -/
def identity (n : NodeId) (x y : VarId) (negated : Bool) : Analysis VarId := do
  let result ← newVariable "is"
  let xs ← visible x n
  let ys ← visible y n
  xs.forM fun a => ys.forM fun b => do
    let store := (← get).store
    let c ← dataOf a
    let d ← dataOf b
    let same :=
      if store.isNone c && store.isNone d then some true
      else if store.isNone c && store.isSomething d then some false
      else if store.isNone d && store.isSomething c then some false
      else none
    bind result (← truth (same.map (· != negated))) [a, b] n
  return result

/-- Pop two operands and push the result of a comparison. -/
def compareOperands (call : Caller) (number : Nat) (p : Path) : Analysis Path := do
  let (x, y, p) ← p.popTwo
  let some c := Comparison.ofNat? number | throw (.badComparison number)
  match c.method? with
  | some method =>
    match ← tryOperator call p.node method x y with
    | some (n, result) => return { p with node := n }.push result
    | none =>
      let _ ← newVariable method
      return p.push (← unknownTruth p.node [x, y])
  | none =>
    match c with
    | .is => return p.push (← identity p.node x y false)
    | .isNot => return p.push (← identity p.node x y true)
    | _ => return p.push (← unknownTruth p.node [x, y])

end Analysis

end ValueTrace
