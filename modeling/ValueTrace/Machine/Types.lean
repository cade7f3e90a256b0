import ValueTrace.Machine.Shared

/-! The types of what a variable may hold, in words. -/

namespace ValueTrace

/-- A type: its name, and for each type parameter the names of what has been put in. -/
structure ShownType where
  base : String
  params : List (List String) := []
  deriving DecidableEq, Repr, Inhabited

namespace ShownType

def union (a b : ShownType) : ShownType :=
  { a with params := (a.params.zipWith (fun p q => (p ++ q).eraseDups) b.params) ++
      a.params.drop b.params.length }

def insert (t : ShownType) : List ShownType → List ShownType
  | [] => [t]
  | u :: us => if u.base == t.base then u.union t :: us else u :: insert t us

def alternatives : List String → String
  | [] => "nothing"
  | names => " or ".intercalate names

def text (t : ShownType) : String :=
  if t.params.isEmpty then t.base
  else t.base ++ "[" ++ ", ".intercalate (t.params.map alternatives) ++ "]"

end ShownType

namespace Machine

/-- The type of a value. -/
def shownType (m : Machine) (d : DataId) : ShownType where
  base := m.store.typeName d
  params :=
    match m.store.object? d with
    | some o => ((m.store.template o.cls).filterMap (o.typeParams[·]?)).map fun v =>
        ((m.graph.allData v).map m.store.typeName).eraseDups
    | none => []

def typeText (m : Machine) (v : VarId) (n : NodeId) : String :=
  let types := (m.graph.visibleData v n).foldl (fun ts d => (m.shownType d).insert ts) []
  ShownType.alternatives (types.map ShownType.text)

end Machine

end ValueTrace
