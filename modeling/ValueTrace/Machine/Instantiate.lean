import ValueTrace.Machine.Shared
import ValueTrace.Signature.Matching

/-! Values of the types that signatures name. -/

namespace ValueTrace

namespace Analysis

def pasteSource (v : VarId) (n : NodeId) : TypeSource → Analysis Unit
  | .binding b => do bind v (← dataOf b) [b] n
  | .param p => paste v p n

mutual

/-- A new variable that holds what a type stands for. A type variable that matched nothing stands
for the type parameter of that name of the receiver. -/
def instantiate (n : NodeId) (s : Subst) (receiver : Option DataId) (t : TypeExpr) :
    Analysis VarId := do
  let v ← newVariable t.text
  match t with
  | .any => bind v Machine.unsolvable [] n
  | .name name =>
    if name == "NoneType" then bind v (← literal .none) [] n
    else bind v (← plainObject name) [] n
  | .generic name params =>
    let cls ← libraryClass name
    let d ← newObject cls none
    instantiateParams n s receiver d ((← get).store.template cls) params
    bind v d [] n
  | .var name =>
    match s[name]? with
    | some sources => sources.forM (pasteSource v n)
    | none =>
      match receiver with
      | some r =>
        match (← get).store.typeParam? r name with
        | some p => paste v p n
        | none => pure ()
      | none => pure ()
  | .union options => instantiateOptions n s receiver v options
  return v

/-- Fill the type parameters of an object. -/
def instantiateParams (n : NodeId) (s : Subst) (receiver : Option DataId) (d : DataId)
    (template : List String) (params : List TypeExpr) : Analysis Unit :=
  match template, params with
  | name :: template, t :: params => do
    let v ← instantiate n s receiver t
    fillTypeParam d name [v] n
    instantiateParams n s receiver d template params
  | _, _ => return

/-- Copy what each of the types stands for to a variable. -/
def instantiateOptions (n : NodeId) (s : Subst) (receiver : Option DataId) (v : VarId)
    (options : List TypeExpr) : Analysis Unit :=
  match options with
  | [] => return
  | t :: options => do
    let part ← instantiate n s receiver t
    paste v part n
    instantiateOptions n s receiver v options

end

end Analysis

end ValueTrace
