import ValueTrace.Library.Basic
import ValueTrace.Value.Store

/-!
# Matching signatures

Whether arguments fit a signature, given one binding for each argument. Type variables match
anything, and what they matched is remembered. A parameter that names a class takes its instances
and those of its subclasses.
-/

namespace ValueTrace

/-- What a type variable matched: one binding, or a type parameter of an argument. -/
inductive TypeSource where
  | binding (b : BindingId)
  | param (v : VarId)
  deriving DecidableEq, Repr

/-- What the type variables matched. -/
abbrev Subst := Std.TreeMap String (List TypeSource)

def Subst.add (s : Subst) (name : String) (source : TypeSource) : Subst :=
  s.insert name (s.getD name [] ++ [source])

/-- Every combination of one element of each list, in lexicographic order, but no more of them than
the cap. -/
def views (cap : Nat) (choices : List (List α)) : List (List α) :=
  choices.foldl (fun vs options => (vs.flatMap fun v => options.map (v ++ [·])).take cap) [[]]

/-- Whether a value is an instance of a library class. Whole numbers pass for floating point ones,
and both for complex ones. -/
def Store.fitsClass (s : Store) (d : DataId) (name : String) : Bool :=
  name == "object" ||
    match s.get d with
    | .object o =>
      s.isSubclass o.cls name || (name == "float" && s.isSubclass o.cls "int") ||
        (name == "complex" && (s.isSubclass o.cls "int" || s.isSubclass o.cls "float"))
    | .ofClass _ => name == "type"
    | .function _ | .native _ | .method .. | .special _ => name == "function"
    | .module .. => name == "module"
    | .unknown _ | .unsolvable => true

mutual

def Store.fitsType (s : Store) (d : DataId) : TypeExpr → Bool
  | .any | .var _ => true
  | .name name | .generic name _ => s.fitsClass d name
  | .union options => s.fitsAny d options

def Store.fitsAny (s : Store) (d : DataId) : List TypeExpr → Bool
  | [] => false
  | t :: ts => s.fitsType d t || s.fitsAny d ts

end

/-- What arguments are matched against. -/
structure Matcher where
  library : Library
  graph : Graph
  store : Store

namespace Matcher

def matchParam (m : Matcher) (v : VarId) (t : TypeExpr) (s : Subst) : Option Subst :=
  match t with
  | .var name => some (s.add name (.param v))
  | .any => some s
  | t => if (m.graph.allData v).all fun d => m.store.fitsType d t then some s else none

/-- Match the type parameters of an object. -/
def matchParams (m : Matcher) (o : Object) :
    List (String × TypeExpr) → Subst → Option Subst
  | [], s => some s
  | (name, t) :: rest, s =>
    match o.typeParams[name]? with
    | some v => do m.matchParams o rest (← m.matchParam v t s)
    | none => m.matchParams o rest s

mutual

/-- Match an argument. -/
def matchType (m : Matcher) (b : BindingId) (t : TypeExpr) (s : Subst) : Option Subst :=
  let d := m.graph.dataOf b
  match t with
  | .any => some s
  | .var name => some (s.add name (.binding b))
  | .name name => if m.store.fitsClass d name then some s else none
  | .generic name params =>
    if m.store.fitsClass d name then
      match m.store.object? d with
      | some o =>
        let template := ((m.library.class? name).map (·.template)).getD []
        m.matchParams o (template.zip params) s
      | none => some s
    else none
  | .union options => m.matchFirst b options s

/-- Match an argument against the first of the types that it fits. -/
def matchFirst (m : Matcher) (b : BindingId) (ts : List TypeExpr) (s : Subst) : Option Subst :=
  match ts with
  | [] => none
  | t :: ts =>
    match m.matchType b t s with
    | some s => some s
    | none => m.matchFirst b ts s

end

def matchArg (m : Matcher) (p : Param) (b : BindingId) (s : Subst) : Option Subst :=
  p.type.elim (some s) fun t => m.matchType b t s

def matchPositional (m : Matcher) (sig : Signature) :
    List Param → List BindingId → Subst → Option Subst
  | _, [], s => some s
  | p :: ps, b :: bs, s => do m.matchPositional sig ps bs (← m.matchArg p b s)
  | [], _ :: _, s => if sig.varargs.isSome then some s else none

/-- Match named arguments, given the positions of the parameters that have one already. -/
def matchNamed (m : Matcher) (sig : Signature) :
    List (String × BindingId) → List Nat → Subst → Option (List Nat × Subst)
  | [], taken, s => some (taken, s)
  | (name, b) :: rest, taken, s =>
    match sig.params.zipIdx.find? fun (p, _) => p.name == name with
    | some (p, i) =>
      if taken.contains i then none
      else do m.matchNamed sig rest (i :: taken) (← m.matchArg p b s)
    | none => if sig.kwargs.isSome then m.matchNamed sig rest taken s else none

def matchSignature (m : Matcher) (sig : Signature) (positional : List BindingId)
    (named : List (String × BindingId)) : Option Subst := do
  let s ← m.matchPositional sig sig.params positional ∅
  let (taken, s) ← m.matchNamed sig named (List.range (min positional.length sig.params.length)) s
  if sig.params.zipIdx.all fun (p, i) => taken.contains i || p.hasDefault then some s else none

end Matcher

end ValueTrace
