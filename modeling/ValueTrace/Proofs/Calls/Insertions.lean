import ValueTrace.Proofs.Calls.Methods
import ValueTrace.Proofs.Calls.Tries
import ValueTrace.Proofs.Flow.Calls
import ValueTrace.Proofs.Safety.Layout

/-!
# What is put into containers

Lists, sets and dictionaries have type parameters that take up what is put in. An instruction that
puts something in calls a method of the library, and the method copies what its arguments hold to the
type parameters. Nothing is lost on the way, as long as the call looks at all combinations of what the
arguments hold. If there is none, because an argument holds nothing, then nothing is put in.
-/

namespace ValueTrace

open Analysis

/-- The classes of the library whose objects take up what is put in one by one. -/
inductive Container where
  | list
  | set
  | dict
  deriving DecidableEq, Repr

namespace Container

def className : Container → String
  | .list => "list"
  | .set => "set"
  | .dict => "dict"

def method : Container → String
  | .list => "append"
  | .set => "add"
  | .dict => "__setitem__"

def params : Container → List (String × String)
  | .list | .set => [("x", "T")]
  | .dict => [("k", "K"), ("v", "V")]

def typeParams (c : Container) : List String := c.params.map (·.2)

/-- What the library declares the method to be. -/
def inserter (c : Container) : NativeValue where
  name := c.className ++ "." ++ c.method
  signatures := [{
    params := { name := "self" } :: c.params.map fun p => { name := p.1, type := some (.var p.2) }
    result := .name "NoneType" }]
  mutates := c.typeParams

/-- The arguments that pass some variables to the method, in the order of its parameters. What is
passed to a list or a set can be named. -/
inductive Passes : Container → CallArgs → List VarId → Prop
  | positional {c : Container} {vs : List VarId} : vs.length = c.typeParams.length →
    Passes c { positional := vs } vs
  | named {c : Container} (v : VarId) : c ∈ [.list, .set] → Passes c { named := [("x", v)] } [v]

end Container

/-- The instruction puts what is in some variables into what is in another one. All of them are
operands. -/
inductive Path.Puts (p : Path) (i : Instruction) : Container → VarId → List VarId → Prop
  | listAppend {depth : Nat} {v obj : VarId} {rest : List VarId} : i.op = .listAppend →
    i.arg = some (depth + 1) → p.stack = v :: rest → rest[depth]? = some obj → Puts p i .list obj [v]
  | setAdd {depth : Nat} {v obj : VarId} {rest : List VarId} : i.op = .setAdd →
    i.arg = some (depth + 1) → p.stack = v :: rest → rest[depth]? = some obj → Puts p i .set obj [v]
  | mapAdd {depth : Nat} {k v obj : VarId} {rest : List VarId} : i.op = .mapAdd →
    i.arg = some (depth + 1) → p.stack = k :: v :: rest → rest[depth]? = some obj →
    Puts p i .dict obj [k, v]
  | storeMap {k v obj : VarId} {rest : List VarId} : i.op = .storeMap →
    p.stack = k :: v :: obj :: rest → Puts p i .dict obj [k, v]
  | storeSubscr {k v obj : VarId} {rest : List VarId} : i.op = .storeSubscr →
    p.stack = k :: obj :: v :: rest → Puts p i .dict obj [k, v]

/-- The instruction calls what is in a variable with these arguments: those that are operands, by
position and by name, and behind the former the items of the tuple that is passed after a star, if
there is one. -/
inductive Machine.Calls (m : Machine) (p : Path) (i : Instruction) (func : VarId) : CallArgs → Prop
  | plain {counts : Nat} {vs pairs rest : List VarId} {named : List (String × VarId)} :
    i.op = .callFunction → i.arg = some counts → 2 * (counts / 256 % 256) = pairs.length →
    counts % 256 = vs.length → p.stack = pairs.reverse ++ (vs.reverse ++ func :: rest) →
    namedPairs p.node pairs m = .ok named m → Calls m p i func { positional := vs, named }
  | starred {counts : Nat} {vs pairs items rest : List VarId} {named : List (String × VarId)}
    {t : VarId} {d : DataId} : i.op = .callFunctionVar → i.arg = some counts →
    2 * (counts / 256 % 256) = pairs.length → counts % 256 = vs.length →
    p.stack = t :: (pairs.reverse ++ (vs.reverse ++ func :: rest)) →
    namedPairs p.node pairs m = .ok named m → m.graph.visibleData t p.node = [d] →
    m.store.tupleItems? d = some items → Calls m p i func { positional := vs ++ items, named }

/-- The instruction puts what is in some variables into an object, through the library function that
does so for containers of this kind. Either the lookup of the method reaches the function, and the
instruction does the rest, or the method has been looked up and is called. -/
inductive Machine.Inserts (m : Machine) (p : Path) (i : Instruction) (c : Container) (r : DataId)
    (f : NativeValue) : List VarId → Prop
  | instruction {obj : VarId} {vs : List VarId} : p.Puts i c obj vs →
    m.Reaches p.node obj c.method r f → Inserts m p i c r f vs
  | call {func : VarId} {args : CallArgs} {vs : List VarId} : m.Calls p i func args →
    c.Passes args vs → m.ShowsMethods p.node func r f → Inserts m p i c r f vs

def Machine.combinations (m : Machine) (n : NodeId) (vs : List VarId) : Nat :=
  (vs.map fun v => (m.graph.visible v n).length).prod

/-- What is to be put where: all that is visible in an argument into the type parameter of the
object that takes it up. -/
def Machine.toPut (m : Machine) (n : NodeId) (c : Container) (r : DataId) (vs : List VarId) :
    Set (VarId × DataId) :=
  {x | ∃ V v, (V, v) ∈ c.typeParams.zip vs ∧ m.store.typeParam? r V = some x.1 ∧
    x.2 ∈ m.graph.visibleData v n}

variable {c : Container} {m m' m₁ : Machine} {n : NodeId} {r : DataId} {f : NativeValue}
  {self obj func k v w : VarId} {vs rest items pairs : List VarId} {V : String}
  {bs : List BindingId} {args : CallArgs} {named : List (String × VarId)}
  {p q : Path} {i : Instruction} {call : Caller} {fuel depth counts : Nat} {star : Option VarId}
  {done : NodeId × VarId} {res : Except CallFailure (NodeId × VarId)}

namespace Container

/-- The function is the method that the builtins declare. -/
theorem isBuiltinMethod_iff (c : Container) (f : NativeValue) :
    Library.IsBuiltinMethod c.className c.method f ↔ f = c.inserter := by
  cases c with
  | list =>
    rw [className, method, Library.isBuiltinMethod_iff "list" "append" ["(self, x: T) -> None"] ["T"]
      (by decide +kernel), List.map_singleton, Library.signatureOf_eq
        [.parenOpen, .name "self", .comma, .name "x", .colon, .name "T", .parenClose, .arrow,
          .name "None"] (by decide +kernel) (by decide +kernel) rfl]
    rfl
  | set =>
    rw [className, method, Library.isBuiltinMethod_iff "set" "add" ["(self, x: T) -> None"] ["T"]
      (by decide +kernel), List.map_singleton, Library.signatureOf_eq
        [.parenOpen, .name "self", .comma, .name "x", .colon, .name "T", .parenClose, .arrow,
          .name "None"] (by decide +kernel) (by decide +kernel) rfl]
    rfl
  | dict =>
    rw [className, method, Library.isBuiltinMethod_iff "dict" "__setitem__"
      ["(self, k: K, v: V) -> None"] ["K", "V"] (by decide +kernel), List.map_singleton,
      Library.signatureOf_eq
        [.parenOpen, .name "self", .comma, .name "k", .colon, .name "K", .comma, .name "v", .colon,
          .name "V", .parenClose, .arrow, .name "None"] (by decide +kernel) (by decide +kernel) rfl]
    rfl

theorem inserter_name (c : Container) : c.inserter.name ≠ "dict.__getitem__" := by
  cases c <;> decide

namespace Passes

theorem length_eq (h : c.Passes args vs) : vs.length = c.typeParams.length := by
  cases h with
  | positional h => exact h
  | named v hc => rcases List.mem_pair.mp hc with rfl | rfl <;> rfl

theorem isOpen (h : c.Passes args vs) (self : VarId) : (args.withReceiver self).isOpen = false := by
  cases h <;> rfl

theorem vars (h : c.Passes args vs) (self : VarId) :
    (args.withReceiver self).positional ++ (args.withReceiver self).named.map (·.2) = self :: vs := by
  cases h with
  | positional => exact List.append_nil _
  | named => rfl

theorem accepts (h : c.Passes args vs) (self : VarId) :
    c.inserter.signatures.any (·.accepts (args.withReceiver self)) = true := by
  cases h with
  | positional hvs =>
    cases c with
    | list | set =>
      obtain ⟨v, rfl⟩ := List.length_eq_one_iff.mp hvs
      rfl
    | dict =>
      obtain ⟨k, v, rfl⟩ := List.length_eq_two.mp hvs
      rfl
  | named v hc => rcases List.mem_pair.mp hc with rfl | rfl <;> rfl

theorem hasArgs {e : Extent} (h : c.Passes args vs) (hvs : e.HasVars vs) : e.HasArgs args := by
  cases h with
  | positional => exact hvs
  | named => exact Extent.hasVars_nil e

/-- A view of the arguments fits, and each type variable matches the binding of its argument. -/
theorem fitting? (h : c.Passes args vs) (m : Machine) (self : VarId) (b : BindingId)
    (hbs : bs.length = c.typeParams.length) :
    ∃ sig σ, m.fitting? c.inserter (args.withReceiver self) (b :: bs) = some (sig, σ) ∧
      m.receiver? sig (b :: bs) = some (m.graph.dataOf b) ∧
      ∀ V a, (V, a) ∈ c.typeParams.zip bs → .binding a ∈ σ.getD V [] := by
  have hone {x a : BindingId} {V : String} (h : (V, a) ∈ ["T"].zip [x]) :
      .binding a ∈ (Subst.add ∅ "T" (.binding x)).getD V [] := by
    obtain ⟨rfl, rfl⟩ : V = "T" ∧ a = x := by simpa using h
    simp [Subst.getD_add]
  cases h with
  | positional hvs =>
    cases c with
    | list | set =>
      obtain ⟨v, rfl⟩ := List.length_eq_one_iff.mp hvs
      obtain ⟨x, rfl⟩ := List.length_eq_one_iff.mp hbs
      exact ⟨_, _, rfl, rfl, fun V a => hone⟩
    | dict =>
      obtain ⟨k, v, rfl⟩ := List.length_eq_two.mp hvs
      obtain ⟨x, y, rfl⟩ := List.length_eq_two.mp hbs
      refine ⟨_, Subst.add (Subst.add ∅ "K" (.binding x)) "V" (.binding y), rfl, rfl, ?_⟩
      intro V a h
      obtain ⟨rfl, rfl⟩ | ⟨rfl, rfl⟩ : V = "K" ∧ a = x ∨ V = "V" ∧ a = y := by
        simpa [typeParams, params] using h
      · simp [Subst.getD_add]
      · simp [Subst.getD_add]
  | named v hc =>
    rcases List.mem_pair.mp hc with rfl | rfl <;>
    · obtain ⟨x, rfl⟩ := List.length_eq_one_iff.mp hbs
      exact ⟨_, _, rfl, rfl, fun V a => hone⟩

end Passes

end Container

namespace Machine

theorem combinations_pos :
    0 < m.combinations n vs ↔ ∀ options ∈ vs.map (m.graph.visible · n), options ≠ [] := by
  unfold combinations
  rw [Nat.pos_iff_ne_zero, Ne, List.prod_eq_zero_iff]
  simp [List.length_eq_zero_iff]

/-- Variables that form combinations are there. -/
theorem hasVars_of_combinations (hm : m.Sound) (h : 0 < m.combinations n vs) :
    m.extent.HasVars vs := by
  intro v hv
  obtain ⟨b, hb⟩ := List.exists_mem_of_ne_nil _ (combinations_pos.mp h _ (List.mem_map_of_mem hv))
  exact (Graph.lt_of_mem_visible hm.built.wellFormed hb).2

namespace Enlarges

theorem combinations_eq (hle : m.Enlarges m₁) (hm : m.Sound) (hn : n < m.graph.nodes.size)
    (h : 0 < m.combinations n vs) : m₁.combinations n vs = m.combinations n vs :=
  congrArg List.prod (List.map_congr_left fun v hv => congrArg List.length
    (hle.graph.visible_eq hm.built.wellFormed hm.closed (hasVars_of_combinations hm h v hv) hn))

theorem toPut_subset (hle : m.Enlarges m₁) (hm : m.Sound) (hn : n < m.graph.nodes.size) :
    m.toPut n c r vs ⊆ m₁.toPut n c r vs := by
  rintro ⟨p, d⟩ ⟨V, v, hslot, hp, hd⟩
  refine ⟨V, v, hslot, ?_, ?_⟩
  · obtain ⟨o, ho, hparam⟩ := Option.bind_eq_some_iff.mp hp
    exact Option.bind_eq_some_iff.mpr
      ⟨o, Store.object?_of_get (hle.objects r o (Store.get_of_object? ho)), hparam⟩
  · obtain ⟨b, hb, -⟩ := List.mem_map.mp hd
    rwa [hle.graph.visibleData_eq hm.built.wellFormed hm.closed
      (Graph.lt_of_mem_visible hm.built.wellFormed hb).2 hn]

end Enlarges

end Machine

namespace Analysis

/-- The call comes to each view of the arguments, and the view fits. -/
theorem callViews_fit {view : List BindingId} {b : BindingId} {result : VarId} {fits : List Bool}
    {m₂ m₃ : Machine} (hargs : c.Passes args vs) (hself : m.graph.visible self n = [b])
    (hshown : ∀ v ∈ self :: vs, m.graph.visible v n ≠ [])
    (hcap : m.combinations n vs ≤ m.options.maxNativeViews)
    (hview : List.Forall₂ (· ∈ ·) view (vs.map (m.graph.visible · n)))
    (hitem : dictItem n c.inserter (self :: vs) m = .ok none m₁)
    (hnew : newVariable "return" m₁ = .ok result m₂)
    (hviews : (views m₂.options.maxNativeViews ((self :: vs).map (m.graph.visible · n))).mapM
      (callView n c.inserter (args.withReceiver self) result) m₂ = .ok fits m₃) :
    true ∈ fits ∧ ∃ before after mv sig σ,
      ComesTo n c.inserter (args.withReceiver self) m before (b :: view) after result mv ∧
      mv.fitting? c.inserter (args.withReceiver self) (b :: view) = some (sig, σ) ∧
      mv.receiver? sig (b :: view) = some (mv.graph.dataOf b) ∧
      ∀ V a, (V, a) ∈ c.typeParams.zip view → .binding a ∈ σ.getD V [] := by
  have hsame : m₂.options = m.options :=
    ((Spares.newVariable "return").of_ok hnew).trans ((Spares.dictItem ..).of_ok hitem)
  have hmem : b :: view ∈ views m₂.options.maxNativeViews
      ((self :: vs).map (m.graph.visible · n)) := by
    refine mem_views (.cons (by simp [hself]) hview) ?_
    rw [hsame]
    refine le_trans (le_of_eq ?_) hcap
    simp [hself, Machine.combinations, Function.comp_def]
  obtain ⟨before, after, cs, mv, fit, _, hsplit, hbefore, hlook, hfit⟩ := mapM_comesTo hmem hviews
  have hcomes : ComesTo n c.inserter (args.withReceiver self) m before (b :: view) after result mv :=
    ⟨hargs.isOpen self, (hargs.vars self).symm ▸ hshown, m₁, m₂, cs,
      (hargs.vars self).symm ▸ hitem, hnew, (hargs.vars self).symm ▸ hsplit, hbefore⟩
  have hlength : view.length = c.typeParams.length := by
    rw [hview.length_eq, List.length_map, hargs.length_eq]
  obtain ⟨sig, σ, hfitting, hr, hmatch⟩ := hargs.fitting? mv self b hlength
  obtain rfl := callView_fits hfitting hlook
  exact ⟨hfit, before, after, mv, sig, σ, hcomes, hfitting, hr, hmatch⟩

/-- The library function succeeds, and all is put in. -/
theorem callLibrary_inserts (hm : m.Sound) (hn : n < m.graph.nodes.size)
    (hself : m.graph.visibleData self n = [r]) (hargs : c.Passes args vs)
    (hsome : 0 < m.combinations n vs) (hcap : m.combinations n vs ≤ m.options.maxNativeViews)
    (hcall : (callLibrary n c.inserter (args.withReceiver self)).run m = .ok res m') :
    (∃ done, res = .ok done) ∧ m.toPut n c r vs ⊆ m'.extent.data := by
  obtain ⟨b, hvisible, rfl⟩ : ∃ b, m.graph.visible self n = [b] ∧ m.graph.dataOf b = r :=
    List.map_eq_singleton_iff.mp hself
  have hoptions := Machine.combinations_pos.mp hsome
  have hshown : ∀ v ∈ self :: vs, m.graph.visible v n ≠ [] := List.forall_mem_cons.mpr
    ⟨hvisible ▸ List.cons_ne_nil _ _, fun v hv => hoptions _ (List.mem_map_of_mem hv)⟩
  obtain ⟨m₁, m₂, m₃, result, fits, hitem, hnew, hviews, hres⟩ := callLibrary_looks
    (hargs.isOpen self) (hargs.accepts self) (hargs.vars self) hshown c.inserter_name hcall
  obtain ⟨view, hview⟩ := exists_view hoptions
  obtain ⟨hfits, -⟩ := callViews_fit hargs hvisible hshown hcap hview hitem hnew hviews
  obtain rfl := hres hfits
  refine ⟨⟨_, rfl⟩, ?_⟩
  -- A value that is visible in an argument is matched in a view that has its binding.
  rintro ⟨p, d⟩ ⟨V, v, hslot, hp, hd⟩
  obtain ⟨a, ha, rfl⟩ := List.mem_map.mp hd
  have hplace : (V, m.graph.visible v n) ∈ c.typeParams.zip (vs.map (m.graph.visible · n)) := by
    rw [List.zip_map_right]
    exact List.mem_map.mpr ⟨(V, v), hslot, rfl⟩
  obtain ⟨view, hview, hslot'⟩ := exists_view_of_mem hoptions hplace ha
  obtain ⟨-, before, after, mv, sig, σ, hcomes, hfitting, hr, hmatch⟩ :=
    callViews_fit hargs hvisible hshown hcap hview hitem hnew hviews
  have hready := hcomes.ready hm (.inr hn)
  have hdata {v : VarId} {a : BindingId} (ha : a ∈ m.graph.visible v n) :
      mv.graph.dataOf a = m.graph.dataOf a :=
    (hready.le.bound (show (a, m.graph.dataOf a) ∈ m.extent.bound from
      ⟨Graph.hasBindings_visible hm.built v n a ha, rfl⟩)).2
  obtain ⟨o, ho, hparam⟩ := Option.bind_eq_some_iff.mp hp
  have hp' : mv.store.typeParam? (m.graph.dataOf b) V = some p :=
    (Store.typeParam?_of_typeParams (hready.le.typeParams _ _
      (Option.map_eq_some_iff.mpr ⟨o, ho, rfl⟩)) V).trans hparam
  refine callLibrary_fills hm hn hcomes
    ⟨sig, σ, V, hfitting, hr, (List.of_mem_zip hslot).1, ?_, ?_⟩ hcall
  · rw [hdata (hvisible ▸ List.mem_singleton_self b)]
    exact hp'
  · exact List.mem_flatMap.mpr ⟨_, hmatch V a hslot', List.mem_singleton.mpr (hdata ha).symm⟩

/-- So does a call of the method. -/
theorem callEach_inserts (hm : m.Sound) (hn : n < m.graph.nodes.size)
    (hfunc : m.ShowsMethods n func r c.inserter) (hargs : c.Passes args vs)
    (hsome : 0 < m.combinations n vs) (hcap : m.combinations n vs ≤ m.options.maxNativeViews)
    (hcall : (callEach (callValue step fuel) n func args).run m = .ok res m') :
    (∃ done, res = .ok done) ∧ m.toPut n c r vs ⊆ m'.extent.data := by
  let m₁ : Machine := { m with graph := (m.graph.newVariable "return").2 }
  have hnew : newVariable "return" m = .ok m.graph.vars.size m₁ := rfl
  have hle : m.Enlarges m₁ :=
    Enlarging.newVariable _ m _ m₁ hm.built ((Nat.zero_le n).trans_lt hn) hnew
  obtain ⟨hm₁, -, -⟩ := (Follows.newVariable "return").left hm le_rfl hnew
  have hvisible (v : VarId) : m₁.graph.visible v n = m.graph.visible v n :=
    Graph.visible_newVariable m.graph "return" v n
  obtain ⟨b, bs, hbs⟩ := List.exists_cons_of_ne_nil hfunc.shown
  obtain ⟨self, fd, hmethod, hfun, hself⟩ := hfunc.methods (m.graph.dataOf b)
    (List.mem_map_of_mem (hbs ▸ List.mem_cons_self))
  have hself₁ : m₁.graph.visibleData self n = [r] :=
    (congrArg (List.map m.graph.dataOf) (hvisible self)).trans hself
  obtain ⟨r', m₂, hfirst, hle₂, hsucceeds⟩ := callEach_first (callValue_follows fuel) hm (.inr hn)
    (hargs.hasArgs (Machine.hasVars_of_combinations hm hsome)) hnew ((hvisible func).trans hbs) hcall
  have hmethod₁ : m₁.store.get (m₁.graph.dataOf b) = .method self fd := hmethod
  have hfun₁ : m₁.store.get fd = .native c.inserter := hfun
  have hcombinations := hle.combinations_eq hm hn hsome
  obtain ⟨⟨done, hdone⟩, hput⟩ := callLibrary_inserts hm₁ (hn.trans_le hle.graph.nodes_le) hself₁
    hargs (hcombinations ▸ hsome) (hcombinations ▸ hcap) (callValue_method hmethod₁ hfun₁ hfirst)
  exact ⟨hsucceeds done hdone, (hle.toPut_subset hm hn).trans (hput.trans hle₂.data)⟩

theorem callOrReport_inserts (hm : m.Sound) (hn : n < m.graph.nodes.size)
    (hfunc : m.ShowsMethods n func r c.inserter) (hargs : c.Passes args vs)
    (hsome : 0 < m.combinations n vs) (hcap : m.combinations n vs ≤ m.options.maxNativeViews)
    (hcall : callOrReport (callEach (callValue step fuel)) n func args m = .ok done m') :
    m.toPut n c r vs ⊆ m'.extent.data := by
  obtain ⟨res, m₁, hrun, hrest⟩ := bind_ok.mp hcall
  obtain ⟨⟨_, rfl⟩, hput⟩ := callEach_inserts hm hn hfunc hargs hsome hcap hrun
  obtain ⟨-, rfl⟩ := pure_ok.mp hrest
  exact hput

/-- And one that looks the method up first. -/
theorem callMethod_inserts (hm : m.Sound) (hn : n < m.graph.nodes.size)
    (hobj : m.Reaches n obj c.method r c.inserter) (hvs : vs.length = c.typeParams.length)
    (hsome : 0 < m.combinations n vs) (hcap : m.combinations n vs ≤ m.options.maxNativeViews)
    (hcall : callMethod (callEach (callValue step fuel)) n obj c.method vs m = .ok done m') :
    m.toPut n c r vs ⊆ m'.extent.data := by
  obtain ⟨func, m₁, hload, hle, hoptions, hfunc⟩ := loadAttribute_showsMethods hm hn hobj
  obtain ⟨hm₁, -, -⟩ := (Follows.loadAttribute (.inr hn) obj c.method).left hm le_rfl hload
  have hcombinations := hle.combinations_eq hm hn hsome
  unfold callMethod at hcall
  rw [bind_eq_of_ok hload] at hcall
  exact (hle.toPut_subset hm hn).trans (callOrReport_inserts hm₁ (hn.trans_le hle.graph.nodes_le)
    hfunc (.positional hvs) (hcombinations ▸ hsome) (hcombinations ▸ hoptions ▸ hcap) hcall)

theorem addItem_ok {method : String} (hstack : p.stack = v :: rest) (hobj : rest[depth]? = some obj)
    (harg : i.arg = some (depth + 1)) (h : addItem call method (argument i) p m = .ok q m') :
    ∃ done, callMethod call p.node obj method [v] m = .ok done m' := by
  unfold addItem at h
  rw [bind_eq_of_ok (liftM_eq_of_ok (Path.pop_eq hstack))] at h
  dsimp only at h
  rw [bind_eq_of_ok (argument_ok.mpr ⟨harg, rfl⟩),
    bind_eq_of_ok (liftM_eq_of_ok (Path.peek_eq hobj))] at h
  obtain ⟨done, _, hcall, h⟩ := bind_ok.mp h
  obtain ⟨-, rfl⟩ := pure_ok.mp h
  exact ⟨done, hcall⟩

theorem addEntry_ok {at' : Analysis Nat} (hstack : p.stack = k :: v :: rest)
    (hobj : rest[depth]? = some obj) (hdepth : at' m = .ok (depth + 1) m)
    (h : addEntry call at' p m = .ok q m') :
    ∃ done, callMethod call p.node obj "__setitem__" [k, v] m = .ok done m' ∧
      q = { p with node := done.1, stack := rest } := by
  unfold addEntry at h
  rw [bind_eq_of_ok (liftM_eq_of_ok (Path.popTwo_eq hstack))] at h
  dsimp only at h
  rw [bind_eq_of_ok hdepth, bind_eq_of_ok (liftM_eq_of_ok (Path.peek_eq hobj))] at h
  obtain ⟨done, _, hcall, h⟩ := bind_ok.mp h
  obtain ⟨rfl, rfl⟩ := pure_ok.mp h
  exact ⟨done, hcall, rfl⟩

/-- After the call the path goes on to a new node. -/
theorem storeSubscript_ok (hcall : Caller.Follows call call) (hm : m.Sound)
    (hp : m.extent.HasPath p) (hstack : p.stack = k :: obj :: v :: rest)
    (h : storeSubscript call p m = .ok q m') :
    ∃ done m₁, callMethod call p.node obj "__setitem__" [k, v] m = .ok done m₁ ∧
      grow (Path.forward { p with node := done.1, stack := rest }) m₁ = .ok q m' ∧
      m₁.extent ≤ m'.extent := by
  have hpop : (liftM p.popThree : Analysis _) m = .ok (v, obj, k, { p with stack := rest }) m :=
    liftM_eq_of_ok (Path.popThree_eq hstack)
  obtain ⟨-, -, hv, -, hk, hp'⟩ := (Follows.popThree hp).left hm le_rfl hpop
  unfold storeSubscript at h
  rw [bind_eq_of_ok hpop] at h
  obtain ⟨p₁, m₁, hstore, hgrow⟩ := bind_ok.mp h
  obtain ⟨hm₁, -, hp₁⟩ := (Follows.storeItem hcall obj hk hv hp').left hm le_rfl hstore
  obtain ⟨-, hle, -⟩ := (Follows.forward hp₁).left hm₁ le_rfl hgrow
  obtain ⟨done, _, hrun, hpure⟩ := bind_ok.mp hstore
  obtain ⟨rfl, rfl⟩ := pure_ok.mp hpure
  exact ⟨done, _, hrun, hgrow, hle⟩

theorem callOperands_ok (hpairs : 2 * (counts / 256 % 256) = pairs.length)
    (hcount : counts % 256 = vs.length)
    (hstack : p.stack = pairs.reverse ++ (vs.reverse ++ func :: rest))
    (hnamed : namedPairs p.node pairs m = .ok named m)
    (hstar : star = none ∧ items = [] ∨
      ∃ t, star = some t ∧ tupleItems t p.node m = .ok (some items) m)
    (h : callOperands call counts star none p m = .ok q m') : ∃ done,
      callOrReport call p.node func { positional := vs ++ items, named } m = .ok done m' := by
  let p₁ : Path := { p with stack := vs.reverse ++ func :: rest }
  have hpositional : p₁.popN (counts % 256) = .ok (vs, { p with stack := func :: rest }) :=
    Path.popN_eq rfl hcount
  have hfunc : Path.pop { p with stack := func :: rest } = .ok (func, { p with stack := rest }) := rfl
  unfold callOperands at h
  rw [bind_eq_of_ok (liftM_eq_of_ok (Path.popN_eq hstack hpairs))] at h
  dsimp only at h
  rw [bind_eq_of_ok hnamed, bind_eq_of_ok (liftM_eq_of_ok hpositional)] at h
  dsimp only at h
  rw [bind_eq_of_ok (liftM_eq_of_ok hfunc)] at h
  dsimp only at h
  rcases hstar with ⟨rfl, rfl⟩ | ⟨t, rfl, hitems⟩
  · rw [List.append_nil]
    obtain ⟨_, _, hsurplus, h⟩ := bind_ok.mp h
    cases hsurplus
    obtain ⟨done, _, hcall, h⟩ := bind_ok.mp h
    obtain ⟨-, rfl⟩ := pure_ok.mp h
    exact ⟨done, hcall⟩
  · dsimp only at h
    rw [bind_eq_of_ok hitems] at h
    obtain ⟨done, _, hcall, h⟩ := bind_ok.mp h
    obtain ⟨-, rfl⟩ := pure_ok.mp h
    exact ⟨done, hcall⟩

end Analysis

theorem Path.Puts.length_eq (h : p.Puts i c obj vs) : vs.length = c.typeParams.length := by
  cases h <;> rfl

theorem Path.Puts.run (h : p.Puts i c obj vs) (hcall : Caller.Follows call call) (hm : m.Sound)
    (hp : m.extent.HasPath p) (hstep : step call i p m = .ok q m') :
    ∃ done m₁, callMethod call p.node obj c.method vs m = .ok done m₁ ∧ m₁.extent ≤ m'.extent := by
  unfold step at hstep
  cases h with
  | listAppend hop harg hstack hobj =>
    rw [hop] at hstep
    obtain ⟨done, hrun⟩ := addItem_ok hstack hobj harg hstep
    exact ⟨done, m', hrun, le_rfl⟩
  | setAdd hop harg hstack hobj =>
    rw [hop] at hstep
    obtain ⟨done, hrun⟩ := addItem_ok hstack hobj harg hstep
    exact ⟨done, m', hrun, le_rfl⟩
  | mapAdd hop harg hstack hobj =>
    rw [hop] at hstep
    obtain ⟨done, hrun, -⟩ := addEntry_ok hstack hobj (argument_ok.mpr ⟨harg, rfl⟩) hstep
    exact ⟨done, m', hrun, le_rfl⟩
  | @storeMap k v obj rest hop hstack =>
    rw [hop] at hstep
    have hobj : (obj :: rest)[0]? = some obj := rfl
    obtain ⟨done, hrun, -⟩ := addEntry_ok hstack hobj rfl hstep
    exact ⟨done, m', hrun, le_rfl⟩
  | storeSubscr hop hstack =>
    rw [hop] at hstep
    obtain ⟨done, m₁, hrun, -, hle⟩ := storeSubscript_ok hcall hm hp hstack hstep
    exact ⟨done, m₁, hrun, hle⟩

theorem Machine.Calls.run (h : m.Calls p i func args) (hstep : step call i p m = .ok q m') :
    ∃ done, callOrReport call p.node func args m = .ok done m' := by
  have hpopNone (p : Path) : callWith.popIf false p m = .ok (none, p) m := rfl
  unfold step at hstep
  cases h with
  | @plain counts vs pairs rest named hop harg hpairs hcount hstack hnamed =>
    rw [hop] at hstep
    dsimp only at hstep
    unfold callWith at hstep
    rw [bind_eq_of_ok (argument_ok.mpr ⟨harg, rfl⟩), bind_eq_of_ok (hpopNone p)] at hstep
    dsimp only at hstep
    rw [bind_eq_of_ok (hpopNone p)] at hstep
    exact List.append_nil vs ▸
      callOperands_ok hpairs hcount hstack hnamed (.inl ⟨rfl, rfl⟩) hstep
  | @starred counts vs pairs items rest named t d hop harg hpairs hcount hstack hnamed hdata hitems =>
    let p₁ : Path := { p with stack := pairs.reverse ++ (vs.reverse ++ func :: rest) }
    have hpop : callWith.popIf true p m = .ok (some t, p₁) m := by
      unfold callWith.popIf
      rw [if_pos rfl, bind_eq_of_ok (liftM_eq_of_ok (Path.pop_eq hstack))]
      rfl
    have htuple : tupleItems t p₁.node m = .ok (some items) m := by
      have hread : dataAt t p.node m = .ok [d] m := congrArg (EStateM.Result.ok · m) hdata
      unfold tupleItems
      rw [bind_eq_of_ok hread]
      exact congrArg (EStateM.Result.ok · m) hitems
    rw [hop] at hstep
    dsimp only at hstep
    unfold callWith at hstep
    rw [bind_eq_of_ok (argument_ok.mpr ⟨harg, rfl⟩), bind_eq_of_ok (hpopNone p)] at hstep
    dsimp only at hstep
    rw [bind_eq_of_ok hpop] at hstep
    exact callOperands_ok (p := p₁) hpairs hcount rfl hnamed (.inr ⟨t, rfl, htuple⟩) hstep

/-- An insertion widens. If what is visible in the arguments forms combinations, and no more of them
than a call looks at, then afterwards each type parameter of the object holds what it held before and
all that was visible in its argument. -/
theorem insertion_widens (hm : m.Sound) (hp : m.extent.HasPath p)
    (hf : Library.IsBuiltinMethod c.className c.method f) (hinserts : m.Inserts p i c r f vs)
    (hsome : 0 < m.combinations p.node vs)
    (hcap : m.combinations p.node vs ≤ m.options.maxNativeViews)
    (hstep : step (callEach (callValue step fuel)) i p m = .ok q m')
    (hv : (V, v) ∈ c.typeParams.zip vs) (hw : m.store.typeParam? r V = some w) :
    m'.store.typeParam? r V = some w ∧ (∀ d ∈ m.graph.allData w, d ∈ m'.graph.allData w) ∧
      ∀ d ∈ m.graph.visibleData v p.node, d ∈ m'.graph.allData w := by
  obtain rfl := (c.isBuiltinMethod_iff f).mp hf
  have hn := hm.lt_of_hasNode le_rfl hp.node
  obtain ⟨-, hle, -⟩ := (Follows.step (callEach_follows fuel) i hp).left hm le_rfl hstep
  have hput : m.toPut p.node c r vs ⊆ m'.extent.data := by
    cases hinserts with
    | instruction hputs hreaches =>
      obtain ⟨done, m₁, hcall, hle₁⟩ := hputs.run (callEach_follows fuel) hm hp hstep
      exact (callMethod_inserts hm hn hreaches hputs.length_eq hsome hcap hcall).trans hle₁.data
    | call hcalls hargs hfunc =>
      obtain ⟨done, hcall⟩ := hcalls.run hstep
      exact callOrReport_inserts hm hn hfunc hargs hsome hcap hcall
  obtain ⟨o, ho, hparam⟩ := Option.bind_eq_some_iff.mp hw
  have hms := hle.typeParams r _ (Option.map_eq_some_iff.mpr ⟨o, ho, rfl⟩)
  exact ⟨(Store.typeParam?_of_typeParams hms V).trans hparam,
    fun d hd => hle.data (show (w, d) ∈ m.extent.data from hd),
    fun d hd => hput (show (w, d) ∈ m.toPut p.node c r vs from ⟨V, v, hv, hw, hd⟩)⟩

/-- An empty dictionary on the stack, with a value and a key that can be put into it. There also is a
variable for a key that holds nothing. -/
def bareDict : Machine where
  library :=
    let declared (name : String) (template : List String) methods : LibraryClass :=
      { name, bases := [], template, methods, attributes := ∅ }
    { classes := ((∅ : Std.TreeMap String LibraryClass).insert "NoneType"
        (declared "NoneType" [] ∅)).insert "dict" (declared "dict" ["K", "V"]
          ((∅ : Std.TreeMap String LibraryFunction).insert "__setitem__"
            { name := Container.dict.inserter.name
              signatures := Container.dict.inserter.signatures
              mutates := Container.dict.inserter.mutates })) }
  graph :=
    let g := (((Graph.newNode "start").after {}).newVariable "K").2
    let g := (((g.newVariable "V").2.newVariable "d").2.newVariable "key").2
    let g := ((g.newVariable "value").2.newVariable "missing").2
    let g := (g.addBinding 2 (.value 2) [] 0).2
    ((g.addBinding 3 (.value 3) [] 0).2.addBinding 4 (.value 4) [] 0).2
  store := {
    values := #[.unsolvable,
      .ofClass { name := "dict", mro := [.value 1], template := ["K", "V"], origin := .library },
      .object { cls := .value 1
                typeParams := ((∅ : Members).insert "K" 0).insert "V" 1 },
      .object { cls := .value 0 }, .object { cls := .value 0 }] }

def putInto : Instruction := { index := 0, op := .storeMap }

private theorem bareDict_sound : bareDict.Sound := by
  have hnames := ((((((Graph.Built.empty none).node "start").var "K").var "V").var "d").var
    "key").var "value"
  have hdict := (hnames.var "missing").binding (.value 2) [] (v := 2) (n := 0) (by decide) (by decide)
  have hkey := hdict.binding (.value 3) [] (v := 3) (n := 0) (by decide) (by decide)
  have hbuilt := hkey.binding (.value 4) [] (v := 4) (n := 0) (by decide) (by decide)
  apply Machine.Sound.of_values hbuilt ⟨by decide, by decide⟩ (by decide) rfl
  · have hvar (w : VarId) (hw : w < 6) : bareDict.graph.extent.HasVar w :=
      show w < bareDict.graph.vars.size from hw
    have hthing : bareDict.graph.extent.HasValue (.object { cls := .value 0 }) :=
      ⟨Extent.hasMembers_empty _, Extent.hasMembers_empty _, nofun⟩
    simp only [List.forall_mem_cons]
    exact ⟨trivial, Extent.hasMembers_empty _,
      ⟨((Extent.hasMembers_empty _).insert "K" (hvar 0 (by decide))).insert "V"
        (hvar 1 (by decide)), Extent.hasMembers_empty _, nofun⟩, hthing, hthing, nofun⟩
  · simp [Value.members?, eq_comm]

private theorem bareDict_hasPath (vs : List VarId) (h : ∀ v ∈ vs, v < 6) :
    bareDict.extent.HasPath { node := 0, stack := vs } where
  node := .inl rfl
  stack := h
  condition := nofun
  exception := nofun

private theorem bareDict_reaches :
    bareDict.Reaches 0 2 "__setitem__" (.value 2) Container.dict.inserter :=
  .of_single (a := 3) (b := 0) rfl rfl rfl rfl (by decide +kernel)

private theorem bareDict_inserts (key : VarId) : bareDict.Inserts { node := 0, stack := [key, 4, 2] }
    putInto .dict (.value 2) Container.dict.inserter [key, 4] :=
  .instruction (.storeMap rfl rfl) bareDict_reaches

private theorem bareDict_ends (key : VarId) (h : key = 3 ∨ key = 5) : ∃ q m',
    step (callEach (callValue step 2)) putInto { node := 0, stack := [key, 4, 2] } bareDict =
      .ok q m' ∧ m'.graph.allData 1 = if key = 3 then [.value 4] else [] := by
  have hends : ∀ key ∈ [3, 5], (do
      let _ ← step (callEach (callValue step 2)) putInto { node := 0, stack := [key, 4, 2] }
      return (← get).graph.allData 1 : Analysis (List DataId)).run' bareDict =
        some (if key = 3 then [.value 4] else []) := by decide +kernel
  obtain ⟨m', hrun⟩ := run'_eq_some.mp (hends key (by simpa using h))
  obtain ⟨q, m₁, hstep, hrun⟩ := bind_ok.mp hrun
  rw [bind_eq_of_ok (get_ok.mpr ⟨rfl, rfl⟩)] at hrun
  exact ⟨q, m₁, hstep, (pure_ok.mp hrun).1⟩

/-- The value is put in. -/
theorem bareDict_widens : bareDict.Sound ∧
    bareDict.extent.HasPath { node := 0, stack := [3, 4, 2] } ∧
    Library.IsBuiltinMethod Container.dict.className Container.dict.method
      Container.dict.inserter ∧
    bareDict.Inserts { node := 0, stack := [3, 4, 2] } putInto .dict (.value 2)
      Container.dict.inserter [3, 4] ∧
    0 < bareDict.combinations 0 [3, 4] ∧
    bareDict.combinations 0 [3, 4] ≤ bareDict.options.maxNativeViews ∧
    ("V", 4) ∈ Container.dict.typeParams.zip [3, 4] ∧
    bareDict.store.typeParam? (.value 2) "V" = some 1 ∧
    ∃ q m', step (callEach (callValue step 2)) putInto { node := 0, stack := [3, 4, 2] } bareDict =
        .ok q m' ∧
      m'.store.typeParam? (.value 2) "V" = some 1 ∧
      (∀ d ∈ bareDict.graph.allData 1, d ∈ m'.graph.allData 1) ∧
      ∀ d ∈ bareDict.graph.visibleData 4 0, d ∈ m'.graph.allData 1 := by
  have hp := bareDict_hasPath [3, 4, 2] (by decide)
  have hf := (Container.dict.isBuiltinMethod_iff Container.dict.inserter).mpr rfl
  have hsome : 0 < bareDict.combinations 0 [3, 4] := by decide +kernel
  have hcap : bareDict.combinations 0 [3, 4] ≤ bareDict.options.maxNativeViews := by
    decide +kernel
  have hV : ("V", 4) ∈ Container.dict.typeParams.zip [3, 4] := by decide
  have hw : bareDict.store.typeParam? (.value 2) "V" = some 1 := rfl
  obtain ⟨q, m', hstep, -⟩ := bareDict_ends 3 (.inl rfl)
  exact ⟨bareDict_sound, hp, hf, bareDict_inserts 3, hsome, hcap, hV, hw, q, m', hstep,
    insertion_widens bareDict_sound hp hf (bareDict_inserts 3) hsome hcap hstep hV hw⟩

/-- The value is not put in under a key that holds nothing. So an insertion does not widen whenever
there are few combinations. -/
theorem missingKey_inserts_nothing : ¬ ∀ {c : Container} {m m' : Machine} {r : DataId}
    {f : NativeValue} {v w : VarId} {vs : List VarId} {V : String} {p q : Path} {i : Instruction}
    {fuel : Nat}, m.Sound → m.extent.HasPath p →
    Library.IsBuiltinMethod c.className c.method f → m.Inserts p i c r f vs →
    m.combinations p.node vs ≤ m.options.maxNativeViews →
    step (callEach (callValue step fuel)) i p m = .ok q m' →
    (V, v) ∈ c.typeParams.zip vs → m.store.typeParam? r V = some w →
    m'.store.typeParam? r V = some w ∧ (∀ d ∈ m.graph.allData w, d ∈ m'.graph.allData w) ∧
      ∀ d ∈ m.graph.visibleData v p.node, d ∈ m'.graph.allData w := by
  intro h
  obtain ⟨q, m', hstep, hdata⟩ := bareDict_ends 5 (.inr rfl)
  have hf := (Container.dict.isBuiltinMethod_iff Container.dict.inserter).mpr rfl
  have hcap : bareDict.combinations 0 [5, 4] ≤ bareDict.options.maxNativeViews := by
    decide +kernel
  have hV : ("V", 4) ∈ Container.dict.typeParams.zip [5, 4] := by decide
  have hw : bareDict.store.typeParam? (.value 2) "V" = some 1 := rfl
  have hshown : .value 4 ∈ bareDict.graph.visibleData 4 0 := by decide +kernel
  obtain ⟨-, -, hput⟩ := h bareDict_sound (bareDict_hasPath [5, 4, 2] (by decide)) hf
    (bareDict_inserts 5) hcap hstep hV hw
  have hin := hput _ hshown
  rw [hdata] at hin
  cases hin

end ValueTrace
