import ValueTrace.Graph.Visibility
import ValueTrace.Path.Basic
import ValueTrace.Value.Store

/-!
# Branches

A branch on a variable splits its bindings into those that may count as true and those that may
count as false. A side with which only some of them agree gets a condition of its own: a marker that
is justified by each of these, together with the condition of the path so far.
-/

namespace ValueTrace

/-- The condition of a side with which these bindings agree, out of so many. -/
def Graph.conditionOf (g : Graph) (n : NodeId) (parent : Option BindingId)
    (agreeing : List BindingId) (total : Nat) : Condition × Graph :=
  if agreeing.isEmpty then (.unsatisfiable, g)
  else if agreeing.length == total then (.unrestricted, g)
  else
    let (marker, g) := g.newVariable "condition"
    agreeing.foldl (fun (_, g) b =>
      let (m, g) := g.addBinding marker .marker (b :: parent.toList) n
      (.holds m, g)) (.unrestricted, g)

/-- The conditions of the true and the false side of a branch on a variable. Both are possible if
nothing is known of it. -/
def Store.split (s : Store) (g : Graph) (n : NodeId) (parent : Option BindingId) (v : VarId) :
    Condition × Condition × Graph :=
  let bs := g.visible v n
  if bs.isEmpty then (.unrestricted, .unrestricted, g)
  else
    let (yes, g') := g.conditionOf n parent
      (bs.filter fun b => s.compatibleWith g (g.dataOf b) true) bs.length
    let (no, g') := g'.conditionOf n parent
      (bs.filter fun b => s.compatibleWith g (g.dataOf b) false) bs.length
    (yes, no, g')

end ValueTrace
