import ValueTrace.Proofs.Calls.Storing
import ValueTrace.Proofs.Calls.Subscripting

/-!
# Items and attributes

The items of a dictionary that are known under a text are kept as members of the dictionary, and so
are its attributes. They are in each other's way only under the same name. A store binds variables at
its node, and whether that is taken back makes no difference to a later read under another name. For
items the method that reads them has to be the one of the library still.
-/

namespace ValueTrace

open Analysis

/-- The machine without what these variables have been bound to at the node since an earlier one. -/
def Machine.withdraw (z m : Machine) (n : NodeId) (W : List VarId) : Machine :=
  { z with graph := z.graph.withdraw m.graph n W }

/-- A machine has become another one by binding these variables at the node. When that is taken back,
variables show what they showed. Objects have got no members but those in `T`. -/
structure Machine.Binds (m w : Machine) (n : NodeId) (W : List VarId) (T : Set (DataId × String)) :
    Prop where
  visible : ∀ v < m.graph.vars.size, ∀ k < m.graph.nodes.size,
    (w.withdraw m n W).graph.visible v k = m.graph.visible v k
  members : ∀ d o, m.store.get d = .object o → ∀ t, (d, t) ∉ T →
    w.store.member? d t = m.store.member? d t

variable {m w z m₀ : Machine} {n : NodeId} {W : List VarId} {T : Set (DataId × String)} {r d : DataId}
  {name t : String} {v obj key : VarId} {y : Path} {j : Instruction} {rest : List VarId}
  {call : Caller} {texts : List String} {ds : List DataId}

theorem Machine.StoresIn.binds (h : m.StoresIn w n {v | v ∈ W} T) (hm : m.Sound) :
    m.Binds w n W T where
  visible _ hv _ hk := h.alters.visible_withdraw hm.built.wellFormed hm.closed h.built.wellFormed hv hk
  members _ _ ho _ ht := h.member?_eq ho ht

namespace Store

variable {s : Store}

end Store

namespace Analysis

end Analysis

end ValueTrace
