import ValueTrace.Step.Argument
import ValueTrace.Step.Operators

/-!
# Containers

A container is an object of a library class whose type parameters take up what is put in. A tuple
also knows its items one by one, so that unpacking it tells them apart.
-/

namespace ValueTrace

def Store.tupleItems? (s : Store) (d : DataId) : Option (List VarId) :=
  match (s.object? d).bind (·.payload) with
  | some (.tuple items) => some items
  | _ => none

namespace Analysis

def buildTuple (count : Nat) (p : Path) : Analysis Path := do
  let (items, p) ← p.popN count
  let d ← tupleObject items p.node
  return p.push (← variableWith "tuple" d [] p.node)

def buildContainer (cls : String) (count : Nat) (p : Path) : Analysis Path := do
  let (items, p) ← p.popN count
  let d ← newObject (← libraryClass cls) none
  fillTypeParam d "T" items p.node
  return p.push (← variableWith cls d [] p.node)

def buildMap (p : Path) : Analysis Path := do
  let d ← newObject (← libraryClass "dict") none
  return p.push (← variableWith "dict" d [] p.node)

def newSlice (n : NodeId) : Analysis VarId := do variableWith "slice" (← plainObject "slice") [] n

def buildSlice (count : Nat) (p : Path) : Analysis Path := do
  let p ← p.discardN count
  return p.push (← newSlice p.node)

def storeItem (call : Caller) (obj key v : VarId) (p : Path) : Analysis Path := do
  let (n, _) ← callMethod call p.node obj "__setitem__" [key, v]
  return { p with node := n }

def addEntry (call : Caller) (depth : Analysis Nat) (p : Path) : Analysis Path := do
  let (v, key, p) ← p.popTwo
  let dict ← p.peek (← depth)
  storeItem call dict key v p

def storeSubscript (call : Caller) (p : Path) : Analysis Path := do
  let (v, obj, key, p) ← p.popThree
  grow (← storeItem call obj key v p).forward

def deleteSubscript (call : Caller) (p : Path) : Analysis Path := do
  let (obj, key, p) ← p.popTwo
  let (n, _) ← callMethod call p.node obj "__delitem__" [key]
  return { p with node := n }

def addItem (call : Caller) (method : String) (depth : Analysis Nat) (p : Path) :
    Analysis Path := do
  let (v, p) ← p.pop
  let obj ← p.peek (← depth)
  let (n, _) ← callMethod call p.node obj method [v]
  return { p with node := n }

def loadSlice (call : Caller) (bounds : Nat) (p : Path) : Analysis Path := do
  let p ← p.discardN bounds
  let (obj, p) ← p.pop
  let slice ← newSlice p.node
  let (n, result) ← applyOperator call p.node "__getitem__" obj slice
  return { p with node := n }.push result

def storeSlice (call : Caller) (bounds : Nat) (p : Path) : Analysis Path := do
  let p ← p.discardN bounds
  let (obj, p) ← p.pop
  let (v, p) ← p.pop
  let slice ← newSlice p.node
  storeItem call obj slice v p

def deleteSlice (call : Caller) (bounds : Nat) (p : Path) : Analysis Path := do
  let p ← p.discardN bounds
  let (obj, p) ← p.pop
  let slice ← newSlice p.node
  let (n, _) ← callMethod call p.node obj "__delitem__" [slice]
  return { p with node := n }

def pasteVia (dst src : VarId) (via : BindingId) (n : NodeId) : Analysis Unit := do
  (← allBindings src).forM fun b => do bind dst (← dataOf b) [b, via] n

/-- Copy the items of one value to variables. -/
def unpackValue (n : NodeId) (outputs : List VarId) (b : BindingId) : Analysis Unit := do
  let store := (← get).store
  let d ← dataOf b
  let exact := (store.tupleItems? d).filter fun items => items.length == outputs.length
  match exact, store.typeParam? d "T" with
  | some items, _ => (outputs.zip items).forM fun (out, item) => pasteVia out item b n
  | none, some items => outputs.forM fun out => pasteVia out items b n
  | none, none => outputs.forM fun out => bind out Machine.unsolvable [b] n

def unpack (count : Nat) (p : Path) : Analysis Path := do
  let (seq, p) ← p.pop
  let outputs ← (List.range count).mapM fun _ => newVariable "item"
  (← visible seq p.node).forM (unpackValue p.node outputs)
  return p.pushAll outputs.reverse

end Analysis

end ValueTrace
