import ValueTrace.Machine.Shared

/-! Classes that the analysed program makes. -/

namespace ValueTrace

namespace Analysis

/-- The classes among the values in the variables of bases, each once, and the variables that can be
bases. One that holds only other values is reported. -/
def usableBases (n : NodeId) : List VarId → Analysis (List VarId × List DataId)
  | [] => return ([], [])
  | v :: vs => do
    let data ← dataAt v n
    let store := (← get).store
    let usable := data.isEmpty || data.any fun d =>
      (store.class? d).isSome || (store.get d).isOpaque
    unless usable do
      let types := " or ".intercalate (data.map store.typeName)
      report .baseClassError s!"Invalid base class: {types}" none [v]
    let classes := data.filter fun d => (store.class? d).isSome
    let (vars, more) ← usableBases n vs
    return (if usable then v :: vars else vars, classes ++ more)

/-- Make a class. A class whose bases contradict each other is reported, and the analysis gives up
on it. -/
def makeClass (n : NodeId) (name : String) (bases : List VarId) (members : Members) :
    Analysis VarId := do
  let (vars, classes) ← usableBases n bases
  let (vars, classes) ←
    if bases.isEmpty then do
      let object ← libraryClass "object"
      pure ([← libraryClassVar "object"], [object])
    else pure (vars, classes.eraseDups)
  let id ← addValue (.ofClass { name, bases := vars, members, origin := .program })
  let store := (← get).store
  match linearize id classes (classes.map store.mro) with
  | some mro =>
    setStore (·.modify id fun
      | .ofClass c => .ofClass { c with mro }
      | v => v)
    variableWith name id [] n
  | none =>
    report .mroError
      s!"Class {name}: cannot create a consistent method resolution order (bad inheritance)" none []
    newUnsolvable n

end Analysis

end ValueTrace
