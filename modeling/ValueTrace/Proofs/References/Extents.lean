import ValueTrace.Call.Basic
import ValueTrace.Proofs.Findings.Growth
import ValueTrace.Proofs.Graph.Data
import ValueTrace.Proofs.Paths.Conditions
import ValueTrace.Proofs.Paths.Joins
import ValueTrace.Proofs.References.Slots
import ValueTrace.Proofs.Safety.Runs

/-!
# What a machine refers to

A machine holds numbers of nodes, variables and bindings of its graph. The extent of a machine is
how many of each there are, what variables are bound to, which of them are those of literals, what
is known of objects, which are slots, and what has been reported. It only ever grows. A machine is
sound if its graph has been built by the operations on graphs, all that may yet be bound, or lead
further, is there, literals are what they say, and slots of different names are different variables.
-/

namespace ValueTrace

/-- How many nodes, variables and bindings there are, and what else is not lost again. -/
structure Extent where
  nodes : Nat
  vars : Nat
  bindings : Nat
  /-- What bindings bind, or less. -/
  bound : Set (BindingId × DataId)
  /-- What variables are bound to, wherever that holds, or less. -/
  data : Set (VarId × DataId)
  /-- The variables of literals, or more. -/
  literals : Set VarId
  /-- What is known of objects, or less. -/
  payloads : DataId → Option Payload
  /-- The type parameters of objects, or less. -/
  typeParams : DataId → Option Members
  /-- The slots of values and namespaces, or more. -/
  slots : Set (VarId × String)
  /-- The variables of type parameters, or more. -/
  params : Set VarId
  /-- What has been reported, or less. -/
  log : FindingLog

/-- How far a graph extends. The rest is not looked at. -/
def Graph.extent (g : Graph) : Extent where
  nodes := g.nodes.size
  vars := g.vars.size
  bindings := g.bindings.size
  bound := ∅
  data := ∅
  literals := Set.univ
  payloads _ := none
  typeParams _ := none
  slots := Set.univ
  params := Set.univ
  log := {}

/-- How far a machine extends. -/
def Machine.extent (m : Machine) : Extent where
  nodes := m.graph.nodes.size
  vars := m.graph.vars.size
  bindings := m.graph.bindings.size
  bound := {entry | entry.1 < m.graph.bindings.size ∧ m.graph.dataOf entry.1 = entry.2}
  data := {entry | entry.2 ∈ m.graph.allData entry.1}
  literals := {v | ∃ (key : List Nat) (d : DataId), m.shared.constants[key]? = some (d, v)}
  payloads := m.store.payload?
  typeParams := m.store.typeParams?
  slots := m.store.slots
  params := m.store.params
  log := m.log

namespace Extent

variable {e e' : Extent}

/-- There is no less of anything, and none but new variables have become those of literals, slots or
those of type parameters. -/
protected structure Le (e e' : Extent) : Prop where
  nodes : e.nodes ≤ e'.nodes
  vars : e.vars ≤ e'.vars
  bindings : e.bindings ≤ e'.bindings
  bound : e.bound ⊆ e'.bound
  data : e.data ⊆ e'.data
  literals : ∀ v ∈ e'.literals, v ∈ e.literals ∨ e.vars ≤ v
  payloads : ∀ d p, e.payloads d = some p → e'.payloads d = some p
  typeParams : ∀ d ms, e.typeParams d = some ms → e'.typeParams d = some ms
  slots : ∀ v x, (v, x) ∈ e'.slots → (v, x) ∈ e.slots ∨ e.vars ≤ v
  params : ∀ v ∈ e'.params, v ∈ e.params ∨ e.vars ≤ v
  log : e.log.Extends e'.log

instance : Preorder Extent where
  le := Extent.Le
  le_refl e := ⟨le_rfl, le_rfl, le_rfl, .rfl, .rfl, fun _ => .inl, fun _ _ h => h, fun _ _ h => h,
    fun _ _ => .inl, fun _ => .inl, .refl _⟩
  le_trans _ _ _ h h' := ⟨h.nodes.trans h'.nodes, h.vars.trans h'.vars,
    h.bindings.trans h'.bindings, h.bound.trans h'.bound, h.data.trans h'.data,
    fun v hv => (h'.literals v hv).elim (h.literals v) fun hv => .inr (h.vars.trans hv),
    fun d p hp => h'.payloads d p (h.payloads d p hp),
    fun d ms hms => h'.typeParams d ms (h.typeParams d ms hms),
    fun v x hx => (h'.slots v x hx).elim (h.slots v x) fun hv => .inr (h.vars.trans hv),
    fun v hv => (h'.params v hv).elim (h.params v) fun hv => .inr (h.vars.trans hv),
    h.log.trans h'.log⟩

def HasNode (e : Extent) (n : NodeId) : Prop := n = Machine.root ∨ n < e.nodes

def HasVar (e : Extent) (v : VarId) : Prop := v < e.vars

/-- A variable is there that is not that of a literal, no slot, and not that of a type parameter. -/
structure HasOwn (e : Extent) (v : VarId) : Prop where
  hasVar : e.HasVar v
  literal : v ∉ e.literals
  slot : ∀ x, (v, x) ∉ e.slots
  param : v ∉ e.params

/-- Such a variable that has not been there before. -/
structure HasNew (e₀ e : Extent) (v : VarId) : Prop where
  own : e.HasOwn v
  new : e₀.vars ≤ v

def HasVar? (e : Extent) (o : Option VarId) : Prop := ∀ v, o = some v → e.HasVar v

def HasVars (e : Extent) (vs : List VarId) : Prop := ∀ v ∈ vs, e.HasVar v

def HasBinding (e : Extent) (b : BindingId) : Prop := b < e.bindings

def HasBindings (e : Extent) (bs : List BindingId) : Prop := ∀ b ∈ bs, e.HasBinding b

theorem hasNode_root (e : Extent) : e.HasNode Machine.root := .inl rfl

@[grind →] theorem HasNode.mono {n : NodeId} (hn : e.HasNode n) (h : e ≤ e') : e'.HasNode n :=
  hn.imp_right (·.trans_le h.nodes)

@[grind →] theorem HasVar.mono {v : VarId} (hv : e.HasVar v) (h : e ≤ e') : e'.HasVar v :=
  hv.trans_le h.vars

theorem HasOwn.mono {v : VarId} (hv : e.HasOwn v) (h : e ≤ e') : e'.HasOwn v :=
  have hlt : ¬ e.vars ≤ v := Nat.not_le.mpr hv.hasVar
  ⟨hv.hasVar.mono h, fun hmem => (h.literals v hmem).elim hv.literal hlt,
    fun x hmem => (h.slots v x hmem).elim (hv.slot x) hlt,
    fun hmem => (h.params v hmem).elim hv.param hlt⟩

theorem HasNew.mono {e₀ : Extent} {v : VarId} (hv : HasNew e₀ e v) (h : e ≤ e') :
    HasNew e₀ e' v := ⟨hv.own.mono h, hv.new⟩

@[grind →] theorem HasVar?.mono {o : Option VarId} (ho : e.HasVar? o) (h : e ≤ e') :
    e'.HasVar? o := fun v hv => (ho v hv).mono h

@[grind →] theorem HasVars.mono {vs : List VarId} (hvs : e.HasVars vs) (h : e ≤ e') :
    e'.HasVars vs := fun v hv => (hvs v hv).mono h

@[grind →] theorem HasBinding.mono {b : BindingId} (hb : e.HasBinding b) (h : e ≤ e') :
    e'.HasBinding b := hb.trans_le h.bindings

@[grind →] theorem HasBindings.mono {bs : List BindingId} (hbs : e.HasBindings bs) (h : e ≤ e') :
    e'.HasBindings bs := fun b hb => (hbs b hb).mono h

def HasMembers (e : Extent) (ms : Members) : Prop :=
  ∀ (name : String) (v : VarId), ms[name]? = some v → e.HasVar v

/-- The variables of a value that may get further bindings are there, or that may come to others
that do. -/
def HasValue (e : Extent) : Value → Prop
  | .object o => e.HasMembers o.typeParams ∧ e.HasMembers o.members ∧
    ∀ items, o.payload = some (.tuple items) → e.HasVars items
  | .ofClass c => e.HasMembers c.members
  | .function f => e.HasMembers f.members ∧ e.HasVars f.closure
  | .method receiver _ => e.HasVar receiver
  | .module _ members | .unknown members => e.HasMembers members
  | .native _ | .unsolvable | .special _ => True

/-- What a store holds is there. The first value is the one that stands for all that the analysis
has given up on. -/
structure HasStore (e : Extent) (s : Store) : Prop where
  first : s.values[0]? = some .unsolvable
  values : ∀ d, e.HasValue (s.get d)
  namespaces : ∀ (ns : NamespaceId) (ms : Members), s.namespace? ns = some ms → e.HasMembers ms

/-- The parts of an exception are there. -/
structure HasRaised (e : Extent) (r : Raised) : Prop where
  type : e.HasVar r.type
  value : e.HasVar r.value
  traceback : e.HasVar r.traceback

/-- What a path holds is there. -/
structure HasPath (e : Extent) (p : Path) : Prop where
  node : e.HasNode p.node
  stack : e.HasVars p.stack
  condition : ∀ b, p.condition = some b → e.HasBinding b
  exception : ∀ r, p.exception = some r → e.HasRaised r

/-- What a frame holds is there. -/
structure HasFrame (e : Extent) (f : Frame) : Prop where
  cells : e.HasVars f.cells
  result : e.HasVar f.result
  yielded : e.HasVar f.yielded
  entry : ∀ (i : Nat) (p : Path), f.entries[i]? = some p → e.HasPath p
  raised : ∀ (i : Nat) (p : Path), f.raisedEntries[i]? = some p → e.HasPath p

def HasArgs (e : Extent) (args : CallArgs) : Prop := e.HasVars args.positional

/-- The node after a call and the variable for its result are there. -/
structure HasResult (e : Extent) (r : NodeId × VarId) : Prop where
  node : e.HasNode r.1
  var : e.HasVar r.2

/-- The bindings that type variables matched are there. -/
def HasSubst (e : Extent) (s : Subst) : Prop :=
  ∀ (name : String) (sources : List TypeSource), s[name]? = some sources →
    ∀ b, .binding b ∈ sources → e.HasBinding b

section

variable {ms : Members} {v : VarId} {vs : List VarId} {x : Value} {s : Store} {r : Raised}
  {p : Path} {f : Frame}

@[grind →] theorem HasMembers.mono (hms : e.HasMembers ms) (h : e ≤ e') : e'.HasMembers ms :=
  fun name v hv => (hms name v hv).mono h

@[grind →] theorem HasValue.mono (hx : e.HasValue x) (h : e ≤ e') : e'.HasValue x := by
  cases x with
  | object o => exact ⟨hx.1.mono h, hx.2.1.mono h, fun items hi => (hx.2.2 items hi).mono h⟩
  | ofClass c => exact HasMembers.mono hx h
  | function f => exact ⟨hx.1.mono h, hx.2.mono h⟩
  | method receiver f => exact HasVar.mono hx h
  | module name members => exact HasMembers.mono hx h
  | unknown members => exact HasMembers.mono hx h
  | native f | unsolvable | special form => trivial

theorem HasStore.mono (hs : e.HasStore s) (h : e ≤ e') : e'.HasStore s :=
  ⟨hs.first, fun d => (hs.values d).mono h, fun ns ms hms => (hs.namespaces ns ms hms).mono h⟩

@[grind →] theorem HasRaised.mono (hr : e.HasRaised r) (h : e ≤ e') : e'.HasRaised r :=
  ⟨hr.type.mono h, hr.value.mono h, hr.traceback.mono h⟩

@[grind →] theorem HasPath.mono (hp : e.HasPath p) (h : e ≤ e') : e'.HasPath p :=
  ⟨hp.node.mono h, hp.stack.mono h, fun b hb => (hp.condition b hb).mono h,
    fun r hr => (hp.exception r hr).mono h⟩

@[grind →] theorem HasFrame.mono (hf : e.HasFrame f) (h : e ≤ e') : e'.HasFrame f :=
  ⟨hf.cells.mono h, hf.result.mono h, hf.yielded.mono h, fun i p hp => (hf.entry i p hp).mono h,
    fun i p hp => (hf.raised i p hp).mono h⟩

@[grind →] theorem HasArgs.mono {args : CallArgs} (ha : e.HasArgs args) (h : e ≤ e') :
    e'.HasArgs args := HasVars.mono ha h

@[grind →] theorem HasResult.mono {r : NodeId × VarId} (hr : e.HasResult r) (h : e ≤ e') :
    e'.HasResult r := ⟨hr.node.mono h, hr.var.mono h⟩

@[grind →] theorem HasSubst.mono {σ : Subst} (hσ : e.HasSubst σ) (h : e ≤ e') : e'.HasSubst σ :=
  fun name sources hs b hb => (hσ name sources hs b hb).mono h

theorem hasMembers_empty (e : Extent) : e.HasMembers ∅ := fun name v h => by simp at h

theorem HasMembers.insert (hms : e.HasMembers ms) (name : String) (hv : e.HasVar v) :
    e.HasMembers (ms.insert name v) := by
  intro name' v' h
  rw [Std.TreeMap.getElem?_insert] at h
  split at h
  · cases h
    exact hv
  · exact hms name' v' h

theorem HasMembers.insertMany (hms : e.HasMembers ms) {l : List (String × VarId)}
    (hl : ∀ entry ∈ l, e.HasVar entry.2) : e.HasMembers (ms.insertMany l) := by
  induction l generalizing ms with
  | nil => simpa using hms
  | cons entry l ih =>
    rw [Std.TreeMap.insertMany_cons]
    exact ih (hms.insert _ (hl entry List.mem_cons_self))
      fun a ha => hl a (List.mem_cons_of_mem _ ha)

theorem hasMembers_ofList {l : List (String × VarId)} (hl : ∀ entry ∈ l, e.HasVar entry.2) :
    e.HasMembers (.ofList l) := by
  rw [Std.TreeMap.ofList_eq_insertMany_empty]
  exact (hasMembers_empty e).insertMany hl

theorem hasSubst_empty (e : Extent) : e.HasSubst ∅ := fun name sources h => by simp at h

theorem hasVar?_none (e : Extent) : e.HasVar? none := fun _ h => by cases h

theorem HasVar.some (hv : e.HasVar v) : e.HasVar? (some v) := fun _ h => Option.some.inj h ▸ hv

theorem HasVar?.getD {o : Option VarId} (ho : e.HasVar? o) (hv : e.HasVar v) :
    e.HasVar (o.getD v) := by
  cases o with
  | none => exact hv
  | some w => exact ho w rfl

theorem hasVars_nil (e : Extent) : e.HasVars [] := fun _ h => by simp at h

theorem hasBindings_nil (e : Extent) : e.HasBindings [] := fun _ h => by simp at h

theorem HasBindings.cons {b : BindingId} {bs : List BindingId} (hb : e.HasBinding b)
    (hbs : e.HasBindings bs) : e.HasBindings (b :: bs) := List.forall_mem_cons.mpr ⟨hb, hbs⟩

theorem HasBinding.single {b : BindingId} (hb : e.HasBinding b) : e.HasBindings [b] :=
  .cons hb (hasBindings_nil e)

theorem HasVars.cons (hv : e.HasVar v) (hvs : e.HasVars vs) : e.HasVars (v :: vs) :=
  List.forall_mem_cons.mpr ⟨hv, hvs⟩

theorem HasVar.single (hv : e.HasVar v) : e.HasVars [v] := .cons hv (hasVars_nil e)

theorem HasVars.subset {vs' : List VarId} (hvs : e.HasVars vs) (h : vs' ⊆ vs) : e.HasVars vs' :=
  fun v hv => hvs v (h hv)

theorem HasVars.append {vs' : List VarId} (hvs : e.HasVars vs) (hvs' : e.HasVars vs') :
    e.HasVars (vs ++ vs') := fun v hv => (List.mem_append.mp hv).elim (hvs v) (hvs' v)

theorem HasValue.addMember (hx : e.HasValue x) (name : String) (hv : e.HasVar v) :
    e.HasValue (x.addMember name v) := by
  cases x with
  | object o => exact ⟨hx.1, hx.2.1.insert name hv, hx.2.2⟩
  | ofClass c => exact HasMembers.insert hx name hv
  | function f => exact ⟨hx.1.insert name hv, hx.2⟩
  | module n members => exact HasMembers.insert hx name hv
  | unknown members => exact HasMembers.insert hx name hv
  | method receiver f => exact hx
  | native f | unsolvable | special form => trivial

theorem HasValue.members? (hx : e.HasValue x) (h : x.members? = some ms) : e.HasMembers ms := by
  cases x with
  | object o =>
    cases h
    exact hx.2.1
  | ofClass c | module n members | unknown members =>
    cases h
    exact hx
  | function f =>
    cases h
    exact hx.1
  | method receiver f | native f | unsolvable | special form => cases h

theorem HasPath.withStack (hp : e.HasPath p) (hvs : e.HasVars vs) :
    e.HasPath { p with stack := vs } := ⟨hp.node, hvs, hp.condition, hp.exception⟩

/-- Neither its regions nor why it stops matter for what a path holds. -/
theorem HasPath.reshape (hp : e.HasPath p) (regions : List Region) (stop : Option Stop) :
    e.HasPath { p with regions, stop } := ⟨hp.node, hp.stack, hp.condition, hp.exception⟩

theorem HasPath.push (hp : e.HasPath p) (hv : e.HasVar v) : e.HasPath (p.push v) :=
  hp.withStack (.cons hv hp.stack)

theorem HasPath.pushAll (hp : e.HasPath p) (hvs : e.HasVars vs) : e.HasPath (p.pushAll vs) := by
  unfold Path.pushAll
  induction vs generalizing p with
  | nil => exact hp
  | cons v vs ih =>
    obtain ⟨hv, hvs⟩ := List.forall_mem_cons.mp hvs
    exact ih (hp.push hv) hvs

theorem HasPath.withNode (hp : e.HasPath p) {n : NodeId} (hn : e.HasNode n) :
    e.HasPath { p with node := n } := ⟨hn, hp.stack, hp.condition, hp.exception⟩

theorem HasPath.withResult (hp : e.HasPath p) {r : NodeId × VarId} (hr : e.HasResult r) :
    e.HasPath (Path.push { p with node := r.1 } r.2) := (hp.withNode hr.node).push hr.var

theorem HasPath.restrict (hp : e.HasPath p) {c : Condition}
    (hc : ∀ b, c = .holds b → e.HasBinding b) : e.HasPath (p.restrict c) := by
  cases c with
  | holds b =>
    refine ⟨hp.node, hp.stack, fun k hk => ?_, hp.exception⟩
    cases hk
    exact hc b rfl
  | unrestricted => exact hp
  | unsatisfiable => exact hp.reshape _ _

theorem HasFrame.insert (hf : e.HasFrame f) (hp : e.HasPath p) (k : Nat) :
    e.HasFrame { f with entries := f.entries.insert k p } := by
  refine ⟨hf.cells, hf.result, hf.yielded, fun i q hq => ?_, hf.raised⟩
  dsimp only at hq
  rw [Std.TreeMap.getElem?_insert] at hq
  split at hq
  · cases hq
    exact hp
  · exact hf.entry i q hq

theorem HasFrame.insertRaised (hf : e.HasFrame f) (hp : e.HasPath p) (k : Nat) :
    e.HasFrame { f with raisedEntries := f.raisedEntries.insert k p } := by
  refine ⟨hf.cells, hf.result, hf.yielded, hf.entry, fun i q hq => ?_⟩
  dsimp only at hq
  rw [Std.TreeMap.getElem?_insert] at hq
  split at hq
  · cases hq
    exact hp
  · exact hf.raised i q hq

end

end Extent

namespace Graph

/-- A graph takes the place of another one: it has been built, it is closed, nothing has been taken
away, and the variables that were there have got nothing but copies. -/
structure Succeeds (g g' : Graph) : Prop where
  built : g'.Built
  closed : g'.Closed
  grows : g.Grows g'
  copies : ∀ v < g.vars.size, g.OnlyCopies g' v

variable {g g' g'' : Graph} {n src dst : NodeId} {v : VarId} {d : DataId} {name : String}
  {sources : List BindingId} {condition : Option BindingId}

theorem hasBindings_allBindings (hb : g.Built) (v : VarId) :
    g.extent.HasBindings (g.allBindings v) := fun b h => (hb.wellFormed.listed v b h).1

theorem hasBindings_visible (hb : g.Built) (v : VarId) (n : NodeId) :
    g.extent.HasBindings (g.visible v n) := by
  rw [visible_eq_filter]
  exact fun b h => hasBindings_allBindings hb v b (List.mem_of_mem_filter h)

theorem addBinding_lt (hb : g.Built) (v : VarId) (d : DataId) (sources : List BindingId)
    (n : NodeId) :
      (g.addBinding v d sources n).1 < (g.addBinding v d sources n).2.bindings.size := by
  cases hold : g.bindingTo? v d with
  | some b =>
    rw [addBinding_old sources n hold]
    simpa [addOrigin] using (hb.wellFormed.listed v b (hb.wellFormed.mem_of_bindingTo? hold)).1
  | none =>
    obtain ⟨g', he, hsize, -⟩ := addBinding_new d sources n hold
    rw [he, hsize]
    exact Nat.lt_succ_self _

namespace Succeeds

theorem extent_le (h : g.Succeeds g') : g.extent ≤ g'.extent :=
  ⟨h.grows.nodes_le, h.grows.vars_le, h.grows.bindings_le, .rfl, .rfl, fun _ => .inl, fun _ _ h => h,
    fun _ _ h => h, fun _ _ => .inl, fun _ => .inl, .refl _⟩

theorem refl (hb : g.Built) (hc : g.Closed) : g.Succeeds g :=
  ⟨hb, hc, .refl g, fun v _ => .refl g v⟩

theorem trans (h : g.Succeeds g') (h' : g'.Succeeds g'') : g.Succeeds g'' :=
  ⟨h'.built, h'.closed, h.grows.trans h'.grows, fun v hv =>
    (h.copies v hv).trans (h'.copies v (hv.trans_le h.grows.vars_le)) h'.grows⟩

/-- Nothing has been bound. -/
theorem of_bindings (h : g.Succeeds g') (hb : g''.Built) (hc : g''.Closed) (hg : g'.Grows g'')
    (heq : g''.bindings = g'.bindings) : g.Succeeds g'' :=
  h.trans ⟨hb, hc, hg, fun v _ => .of_bindings heq v⟩

theorem newVariable (h : g.Succeeds g') (name : String) :
    g.Succeeds (g'.newVariable name).2 :=
  h.of_bindings (h.built.var name) (h.closed.newVariable name) (.newVariable g' name) rfl

/-- What is bound without sources is a new variable. -/
theorem addBinding (h : g.Succeeds g') (hv : v < g'.vars.size) (hn : n < g'.nodes.size)
    (hs : g'.extent.HasBindings sources) (hnew : sources = [] → g.vars.size ≤ v) (d : DataId) :
    g.Succeeds (g'.addBinding v d sources n).2 := by
  have hgrows := Grows.addBinding g' v d sources n
  refine ⟨h.built.binding d sources hv hn, h.closed.addBinding hs v d n, h.grows.trans hgrows,
    fun w hw => (h.copies w hw).trans ?_ hgrows⟩
  refine .addBinding h.built.wellFormed (fun hnil => ?_) d n
  rintro rfl
  exact absurd hw (Nat.not_lt.mpr (hnew hnil))

theorem pasteBindings (h : g.Succeeds g') {bs : List BindingId} (hv : v < g'.vars.size)
    (hn : n < g'.nodes.size) (hbs : g'.extent.HasBindings bs) :
    g.Succeeds (g'.pasteBindings v bs n) := by
  induction bs generalizing g' with
  | nil => exact h
  | cons b bs ih =>
    have hb : g'.extent.HasBindings [b] := fun a ha =>
      hbs a (List.mem_cons.mpr (.inl (List.mem_singleton.mp ha)))
    have hstep := h.addBinding hv hn hb (fun hnil => by cases hnil) (g'.dataOf b)
    have hle := ((refl h.built h.closed).addBinding hv hn hb (fun hnil => by cases hnil)
      (g'.dataOf b)).extent_le
    exact ih hstep (hv.trans_le hle.vars) (hn.trans_le hle.nodes)
      fun a ha => (hbs a (List.mem_cons_of_mem b ha)).mono hle

theorem pasteVariable (h : g.Succeeds g') (hv : v < g'.vars.size) (hn : n < g'.nodes.size)
    (src : VarId) : g.Succeeds (g'.pasteVariable v src n) := by
  unfold Graph.pasteVariable
  split
  · exact h
  · exact h.pasteBindings hv hn (hasBindings_allBindings h.built src)

/-- What is merged is a new variable, or one of those that were there. -/
theorem mergeVariables (h : g.Succeeds g') (name : String) (hn : n < g'.nodes.size)
    {vs : List VarId} (hvs : g'.extent.HasVars vs) :
    g.Succeeds (g'.mergeVariables n name vs).2 ∧
      (g'.mergeVariables n name vs).2.extent.HasVar (g'.mergeVariables n name vs).1 := by
  have hfresh : (g'.newVariable name).2.extent.HasVar (g'.newVariable name).1 := by
    simp [Extent.HasVar, extent, Graph.newVariable]
  have hpaste {vs : List VarId} {v : VarId} {k : Graph} (hk : g.Succeeds k) (hv : k.extent.HasVar v)
      (hn : n < k.nodes.size) : g.Succeeds (vs.foldl (fun g a => g.pasteVariable v a n) k) ∧
        (vs.foldl (fun g a => g.pasteVariable v a n) k).extent.HasVar v := by
    induction vs generalizing k with
    | nil => exact ⟨hk, hv⟩
    | cons a vs ih =>
      have hle := ((refl hk.built hk.closed).pasteVariable hv hn a).extent_le
      exact ih (hk.pasteVariable hv hn a) (hv.mono hle) (hn.trans_le hle.nodes)
  unfold Graph.mergeVariables
  split
  · exact ⟨h.newVariable name, hfresh⟩
  · next v hv => exact ⟨h, hvs v (List.mem_eraseDups.mp (hv ▸ List.mem_singleton_self v))⟩
  · exact hpaste (h.newVariable name) hfresh
      (hn.trans_le ((refl h.built h.closed).newVariable name).extent_le.nodes)

theorem mergeStacks (h : g.Succeeds g') (hn : n < g'.nodes.size) {as bs : List VarId}
    (has : g'.extent.HasVars as) (hbs : g'.extent.HasVars bs) :
    g.Succeeds (Path.mergeStacks g' n as bs).2 ∧
      (Path.mergeStacks g' n as bs).2.extent.HasVars (Path.mergeStacks g' n as bs).1 := by
  induction as generalizing g g' bs with
  | nil => exact ⟨h, Extent.hasVars_nil _⟩
  | cons a as ih =>
    cases bs with
    | nil => exact ⟨h, Extent.hasVars_nil _⟩
    | cons b bs =>
      obtain ⟨ha, has⟩ := List.forall_mem_cons.mp has
      obtain ⟨hb, hbs⟩ := List.forall_mem_cons.mp hbs
      obtain ⟨hrest, hstack⟩ := ih (refl h.built h.closed) hn has hbs
      have hpair : (Path.mergeStacks g' n as bs).2.extent.HasVars [a, b] :=
        .cons (ha.mono hrest.extent_le) (.cons (hb.mono hrest.extent_le) (Extent.hasVars_nil _))
      obtain ⟨htop, hv⟩ := (refl hrest.built hrest.closed).mergeVariables "stack"
        (hn.trans_le hrest.extent_le.nodes) hpair
      exact ⟨h.trans (hrest.trans htop), .cons hv (hstack.mono htop.extent_le)⟩

theorem newNode (h : g.Succeeds g') (hn : Graph.newNode name g' = .ok n g'') :
    g.Succeeds g'' ∧ n < g''.nodes.size := by
  have hbuilt := h.built.node name
  rw [Growth.after_ok hn] at hbuilt
  have hgrows := Grows.newNode hn
  obtain ⟨rfl, hnodes, hl⟩ := newNode_ok hn
  exact ⟨h.of_bindings hbuilt (h.closed.newNode hn) hgrows hl.bindings, by simp [hnodes]⟩

theorem connect (h : g.Succeeds g') (hsrc : src < g'.nodes.size) (hdst : dst < g'.nodes.size)
    (hc : Graph.connect src dst g' = .ok () g'') : g.Succeeds g'' := by
  have hbuilt := h.built.edge hsrc hdst
  rw [Growth.after_ok hc] at hbuilt
  obtain ⟨hl, -⟩ := connect_ok hc
  exact h.of_bindings hbuilt (h.closed.connect hc) (.connect hc) hl.bindings

theorem connectNew (h : g.Succeeds g') (hsrc : src < g'.nodes.size)
    (hcondition : ∀ c, condition = some c → c < g'.bindings.size)
    (hn : Graph.connectNew src name condition g' = .ok n g'') :
    g.Succeeds g'' ∧ n < g''.nodes.size := by
  have hbuilt := h.built.connectNew hsrc name condition
  have hgrows := Grows.connectNew_after g' src name condition
  rw [Growth.after_ok hn] at hbuilt hgrows
  obtain ⟨hid, hl, hsize⟩ := connectNew_ok hn
  unfold Graph.connectNew at hn
  obtain ⟨_, g₁, hnode, hn⟩ := bind_ok.mp hn
  obtain ⟨_, g₂, hm, hn⟩ := bind_ok.mp hn
  obtain ⟨_, g₃, hc, hn⟩ := bind_ok.mp hn
  obtain ⟨-, rfl⟩ := pure_ok.mp hn
  obtain rfl := modify_ok.mp hm
  obtain ⟨-, -, hl₁⟩ := newNode_ok hnode
  have hclosed := ((h.closed.newNode hnode).setCondition (n := _) fun c hc => by
    rw [hl₁.bindings]
    exact hcondition c hc).connect hc
  refine ⟨h.of_bindings hbuilt hclosed hgrows hl.bindings, ?_⟩
  rw [hid, hsize]
  exact Nat.lt_succ_self _

/-- Where two paths meet there is all that the joined path holds. -/
theorem joinTo {p existing q : Path} (h : g.Succeeds g') (hroot : Machine.root < g'.nodes.size)
    (hp : g'.extent.HasPath p) (hexisting : g'.extent.HasPath existing)
    (hq : p.joinTo existing g' = .ok q g'') : g.Succeeds g'' ∧ g''.extent.HasPath q := by
  have hlt {k : Graph} (hk : g'.Succeeds k) {m : NodeId} (hm : g'.extent.HasNode m) :
      m < k.nodes.size := by
    rcases hm with rfl | hm
    · exact hroot.trans_le hk.extent_le.nodes
    · exact hm.trans_le hk.extent_le.nodes
  unfold Path.joinTo at hq
  obtain ⟨n, g₁, hnode, hq⟩ := bind_ok.mp hq
  obtain ⟨_, g₂, hleft, hq⟩ := bind_ok.mp hq
  obtain ⟨_, g₃, hright, hq⟩ := bind_ok.mp hq
  obtain ⟨stack, g₄, hstack, hq⟩ := bind_ok.mp hq
  obtain ⟨rfl, rfl⟩ := pure_ok.mp hq
  obtain ⟨h₁, hn⟩ := (refl h.built h.closed).newNode hnode
  have h₂ := h₁.connect (hlt h₁ hexisting.node) hn hleft
  have hn₂ := hn.trans_le ((refl h₁.built h₁.closed).connect (hlt h₁ hexisting.node) hn
    hleft).extent_le.nodes
  have h₃ := h₂.connect (hlt h₂ hp.node) hn₂ hright
  have hn₃ := hn₂.trans_le ((refl h₂.built h₂.closed).connect (hlt h₂ hp.node) hn₂
    hright).extent_le.nodes
  obtain ⟨hs, hvs⟩ := (refl h₃.built h₃.closed).mergeStacks hn₃
    (hexisting.stack.mono h₃.extent_le) (hp.stack.mono h₃.extent_le)
  obtain ⟨hstack, hgraph⟩ := Prod.ext_iff.mp (modifyGet_ok.mp hstack)
  dsimp only at hstack hgraph
  rw [hstack] at hvs
  rw [hgraph] at hs hvs
  have h₄ := h₃.trans hs
  refine ⟨h.trans h₄, .inr (hn₃.trans_le hs.extent_le.nodes), hvs, fun b hb => ?_, fun r hr => ?_⟩
  · dsimp only at hb
    split at hb
    · exact (hexisting.condition b hb).mono h₄.extent_le
    · cases hb
  · dsimp only at hr
    cases he : existing.exception with
    | some r' =>
      rw [he] at hr
      cases hr
      exact (hexisting.exception _ he).mono h₄.extent_le
    | none =>
      rw [he] at hr
      exact (hp.exception r hr).mono h₄.extent_le

private theorem foldl_mark (h : g.Succeeds g') (hv : v < g'.vars.size) (hn : n < g'.nodes.size)
    {bs : List BindingId} (hbs : g'.extent.HasBindings bs) {parent : Option BindingId}
    (hparent : ∀ b, parent = some b → g'.extent.HasBinding b) {cond : Condition}
    (hcond : ∀ b, cond = .holds b → b < g'.bindings.size) :
    g.Succeeds (bs.foldl (mark v n parent) (cond, g')).2 ∧
      ∀ b, (bs.foldl (mark v n parent) (cond, g')).1 = .holds b →
        b < (bs.foldl (mark v n parent) (cond, g')).2.bindings.size := by
  induction bs generalizing g' cond with
  | nil => exact ⟨h, hcond⟩
  | cons b bs ih =>
    have hs : g'.extent.HasBindings (b :: parent.toList) := by
      intro c hc
      rcases List.mem_cons.mp hc with rfl | hc
      · exact hbs c List.mem_cons_self
      · exact hparent c (Option.mem_toList.mp hc)
    have hle := ((refl h.built h.closed).addBinding hv hn hs (fun hnil => by cases hnil)
      .marker).extent_le
    refine ih (h.addBinding hv hn hs (fun hnil => by cases hnil) .marker)
      (hv.trans_le hle.vars) (hn.trans_le hle.nodes)
      (fun c hc => (hbs c (List.mem_cons_of_mem b hc)).mono hle)
      (fun c hc => (hparent c hc).mono hle) fun c hc => ?_
    cases hc
    exact addBinding_lt h.built ..

/-- A branch gives each of its sides a condition, if it has to have one. -/
theorem conditionOf (h : g.Succeeds g') (hn : n < g'.nodes.size) {agreeing : List BindingId}
    (hbs : g'.extent.HasBindings agreeing) {parent : Option BindingId}
    (hparent : ∀ b, parent = some b → g'.extent.HasBinding b) (total : Nat) :
    g.Succeeds (g'.conditionOf n parent agreeing total).2 ∧
      ∀ b, (g'.conditionOf n parent agreeing total).1 = .holds b →
        b < (g'.conditionOf n parent agreeing total).2.bindings.size := by
  rcases g'.conditionOf_cases n parent agreeing total with
    ⟨_, he⟩ | ⟨_, _, he⟩ | ⟨hne, hl, _⟩
  · rw [he]
    exact ⟨h, nofun⟩
  · rw [he]
    exact ⟨h, nofun⟩
  · have hle := ((refl h.built h.closed).newVariable "condition").extent_le
    rw [conditionOf_eq_foldl hne hl]
    exact (h.newVariable "condition").foldl_mark (by simp [Graph.newVariable]) hn (hbs.mono hle)
      (fun b hb => (hparent b hb).mono hle) nofun

/-- Both sides of a branch get their conditions. -/
theorem split (h : g.Succeeds g') (hn : n < g'.nodes.size) {parent : Option BindingId}
    (hparent : ∀ b, parent = some b → g'.extent.HasBinding b) (s : Store) (v : VarId) :
    g.Succeeds (s.split g' n parent v).2.2 ∧ ∀ b, ((s.split g' n parent v).1 = .holds b ∨
      (s.split g' n parent v).2.1 = .holds b) → b < (s.split g' n parent v).2.2.bindings.size := by
  unfold Store.split
  dsimp only
  split
  · exact ⟨h, fun b hb => by rcases hb with hb | hb <;> cases hb⟩
  · have hbs := hasBindings_visible h.built v n
    have hagreeing (side : Bool) : g'.extent.HasBindings ((g'.visible v n).filter fun b =>
        s.compatibleWith g' (g'.dataOf b) side) := fun b hb => hbs b (List.mem_of_mem_filter hb)
    obtain ⟨hyes, hyes'⟩ := (refl h.built h.closed).conditionOf hn (hagreeing true) hparent
      (g'.visible v n).length
    obtain ⟨hno, hno'⟩ :=
      (refl hyes.built hyes.closed).conditionOf (hn.trans_le hyes.extent_le.nodes)
      ((hagreeing false).mono hyes.extent_le) (fun b hb => (hparent b hb).mono hyes.extent_le)
      (g'.visible v n).length
    refine ⟨(h.trans hyes).trans hno, fun b hb => ?_⟩
    rcases hb with hb | hb
    · exact (hyes' b hb).trans_le hno.extent_le.bindings
    · exact hno' b hb

end Succeeds

end Graph

namespace Extent.HasStore

variable {e : Extent} {s : Store} {x : Value} {d : DataId} {ns : NamespaceId} {v : VarId}

theorem add (hs : e.HasStore s) (hx : e.HasValue x) : e.HasStore (s.add x).2 := by
  obtain ⟨hsize, hfirst⟩ := Array.getElem?_eq_some_iff.mp hs.first
  refine ⟨?_, fun d => ?_, hs.namespaces⟩
  · change (s.values.push x)[0]? = _
    rw [Array.getElem?_push_lt hsize, hfirst]
  · rw [Store.get_add]
    split
    · exact hx
    · exact hs.values d

theorem modify (hs : e.HasStore s) {f : Value → Value} (hf : f .unsolvable = .unsolvable)
    (h : ∀ x, e.HasValue x → e.HasValue (f x)) : e.HasStore (s.modify d f) := by
  refine ⟨?_, fun k => ?_, fun ns ms hms => hs.namespaces ns ms ?_⟩
  · cases d with
    | marker => exact hs.first
    | value i =>
      change (s.values.modify i f)[0]? = _
      rw [Array.getElem?_modify, hs.first]
      split
      · exact congrArg some hf
      · rfl
  · rw [Store.get_modify hf]
    split
    · exact h _ (hs.values k)
    · exact hs.values k
  · cases d with
    | marker => exact hms
    | value i => exact hms

theorem newNamespace (hs : e.HasStore s) : e.HasStore s.newNamespace.2 := by
  refine ⟨hs.first, hs.values, fun ns ms hms => ?_⟩
  change (s.namespaces.push ∅)[ns]? = some ms at hms
  rw [Array.getElem?_push] at hms
  split at hms
  · cases hms
    exact hasMembers_empty e
  · exact hs.namespaces ns ms hms

theorem modifyNamespace (hs : e.HasStore s) {f : Members → Members}
    (h : ∀ ms, e.HasMembers ms → e.HasMembers (f ms)) : e.HasStore (s.modifyNamespace ns f) := by
  refine ⟨hs.first, hs.values, fun k ms hms => ?_⟩
  change (s.namespaces.modify ns f)[k]? = some ms at hms
  rw [Array.getElem?_modify] at hms
  split at hms
  · obtain ⟨ms', hms', rfl⟩ := Option.map_eq_some_iff.mp hms
    exact h ms' (hs.namespaces k ms' hms')
  · exact hs.namespaces k ms hms

theorem define (hs : e.HasStore s) (name : String) (hv : e.HasVar v) :
    e.HasStore (s.define ns name v) := hs.modifyNamespace fun _ hms => hms.insert name hv

theorem lookup? (hs : e.HasStore s) {name : String} (h : s.lookup? ns name = some v) :
    e.HasVar v := by
  obtain ⟨ms, hms, hv⟩ := Option.bind_eq_some_iff.mp h
  exact hs.namespaces ns ms hms name v hv

theorem object? (hs : e.HasStore s) {o : Object} (h : s.object? d = some o) :
    e.HasValue (.object o) := by
  have hx := hs.values d
  unfold Store.object? at h
  cases hv : s.get d with
  | object o' =>
    rw [hv] at h hx
    cases h
    exact hx
  | _ =>
    rw [hv] at h
    cases h

theorem class? (hs : e.HasStore s) {c : ClassValue} (h : s.class? d = some c) :
    e.HasMembers c.members := by
  have hx := hs.values d
  unfold Store.class? at h
  cases hv : s.get d with
  | ofClass c' =>
    rw [hv] at h hx
    cases h
    exact hx
  | _ =>
    rw [hv] at h
    cases h

theorem typeParam? (hs : e.HasStore s) {name : String} (h : s.typeParam? d name = some v) :
    e.HasVar v := by
  obtain ⟨o, ho, hv⟩ := Option.bind_eq_some_iff.mp h
  exact (hs.object? ho).1 name v hv

theorem slots (hs : e.HasStore s) {x : String} (h : (v, x) ∈ s.slots) : e.HasVar v := by
  rcases h with ⟨d, ms, hms, hv⟩ | ⟨ns, ms, hms, hv⟩
  · exact (hs.values d).members? hms x v hv
  · exact hs.namespaces ns ms hms x v hv

theorem params (hs : e.HasStore s) (h : v ∈ s.params) : e.HasVar v := by
  obtain ⟨d, o, x, ho, hv⟩ := h
  have hx := hs.values d
  rw [ho] at hx
  exact hx.1 x v hv

end Extent.HasStore

/-- The graph of a machine has been built, it is closed, what the machine holds is there, literals
are what they say, and slots are told apart by their names. -/
structure Machine.Sound (m : Machine) : Prop where
  built : m.graph.Built
  closed : m.graph.Closed
  root : root < m.graph.nodes.size
  start : m.extent.HasNode m.start
  store : m.extent.HasStore m.store
  literals : ∀ (key : List Nat) (d : DataId) (v : VarId),
    m.shared.constants[key]? = some (d, v) → ∃ b, m.store.HasLiteral m.graph key d v b
  frames : ∀ f ∈ m.frames, m.extent.HasFrame f
  apart : m.store.Apart

namespace Machine

variable {m : Machine} {e : Extent} {g : Graph}

theorem graph_extent_le (m : Machine) : m.graph.extent ≤ m.extent :=
  ⟨le_rfl, le_rfl, le_rfl, Set.empty_subset _, Set.empty_subset _, fun _ _ => .inl trivial,
    fun _ _ => nofun, fun _ _ => nofun, fun _ _ _ => .inl trivial, fun _ _ => .inl trivial,
    List.nil_prefix, List.nil_suffix⟩

/-- A graph in which nothing is lost may take the place of the present one. -/
theorem extent_le_withGraph (hw : m.graph.WellFormed) (hg : m.graph.Grows g) :
    m.extent ≤ { m with graph := g }.extent :=
  ⟨hg.nodes_le, hg.vars_le, hg.bindings_le,
    fun entry h => ⟨h.1.trans_le hg.bindings_le, (hg.data entry.1 h.1).trans h.2⟩,
    fun _ h => hg.allData hw _ h, fun _ => .inl, fun _ _ h => h, fun _ _ h => h, fun _ _ => .inl,
    fun _ => .inl, .refl _⟩

theorem extent_le_withStore {s : Store} (hs : m.store.KeepsObjects s) (hg : m.store.Gains s ∅ ∅) :
    m.extent ≤ { m with store := s }.extent :=
  ⟨le_rfl, le_rfl, le_rfl, .rfl, .rfl, fun _ => .inl, hs.payload, hs.typeParams,
    fun _ _ h => .inl ((hg.slots h).resolve_right nofun),
    fun _ h => .inl ((hg.params h).resolve_right nofun), .refl _⟩

theorem extent_le_withLog {l : FindingLog} (hl : m.log.Extends l) :
    m.extent ≤ { m with log := l }.extent :=
  ⟨le_rfl, le_rfl, le_rfl, .rfl, .rfl, fun _ => .inl, fun _ _ h => h, fun _ _ h => h,
    fun _ _ => .inl, fun _ => .inl, hl⟩

/-- Only the graph tells what is on a path. -/
theorem hasPath_graph {p : Path} (hp : m.extent.HasPath p) : m.graph.extent.HasPath p :=
  ⟨hp.node, hp.stack, hp.condition, fun r hr =>
    ⟨(hp.exception r hr).type, (hp.exception r hr).value, (hp.exception r hr).traceback⟩⟩

theorem hasFrame_graph {f : Frame} (hf : m.extent.HasFrame f) : m.graph.extent.HasFrame f :=
  ⟨hf.cells, hf.result, hf.yielded, fun i p hp => hasPath_graph (hf.entry i p hp),
    fun i p hp => hasPath_graph (hf.raised i p hp)⟩

theorem hasStore_graph {s : Store} (hs : m.extent.HasStore s) : m.graph.extent.HasStore s :=
  ⟨hs.first, hs.values, hs.namespaces⟩

namespace Sound

/-- A node that is there has its place in the graph. -/
theorem lt_of_hasNode {n : NodeId} (hm : m.Sound) (he : e ≤ m.extent) (hn : e.HasNode n) :
    n < m.graph.nodes.size := by
  rcases hn with rfl | hn
  · exact hm.root
  · exact hn.trans_le he.nodes

/-- The variable of a literal is there. -/
theorem lt_of_literal {v : VarId} (hm : m.Sound) (hv : v ∈ m.extent.literals) :
    v < m.graph.vars.size := by
  obtain ⟨key, d, hv⟩ := hv
  obtain ⟨b, hb⟩ := hm.literals key d v hv
  exact hb.var_lt

/-- Another graph may take the place of the present one if nothing is lost and literals get nothing
but copies. -/
theorem withGraph (hm : m.Sound) (hb : g.Built) (hc : g.Closed) (hg : m.graph.Grows g)
    (hcopies : ∀ v ∈ m.extent.literals, m.graph.OnlyCopies g v) :
    Machine.Sound { m with graph := g } := by
  have hle := extent_le_withGraph hm.built.wellFormed hg
  refine ⟨hb, hc, hm.root.trans_le hle.nodes, hm.start.mono hle, hm.store.mono hle,
    fun key d v h => ?_, fun f hf => (hm.frames f hf).mono hle, hm.apart⟩
  obtain ⟨b, hb⟩ := hm.literals key d v h
  exact ⟨b, hb.grows hg (hcopies v ⟨key, d, h⟩)⟩

theorem grow (hm : m.Sound) (hg : m.graph.Succeeds g) : Machine.Sound { m with graph := g } :=
  hm.withGraph hg.built hg.closed hg.grows fun v hv => hg.copies v (hm.lt_of_literal hv)

/-- Another store may take the place of the present one if it keeps what is known of objects, and
what it has gained are variables of their own. -/
theorem withGains (hm : m.Sound) {s : Store} {S : Set (VarId × String)} {P : Set VarId}
    (hs : m.extent.HasStore s) (hp : m.store.KeepsObjects s) (hg : m.store.Gains s S P)
    (hS : ∀ {v x}, (v, x) ∈ S → m.extent.HasOwn v) (hP : ∀ {v}, v ∈ P → m.extent.HasOwn v)
    (hnamed : ∀ {v x y}, (v, x) ∈ S → (v, y) ∈ S → x = y)
    (hparams : ∀ {v x}, (v, x) ∈ S → v ∉ P) : Machine.Sound { m with store := s } := by
  have hle := graph_extent_le { m with store := s }
  refine ⟨hm.built, hm.closed, hm.root, hm.start, (hasStore_graph hs).mono hle, fun key d v h => ?_,
    fun f hf => (hasFrame_graph (hm.frames f hf)).mono hle, hm.apart.gains hg hnamed hparams
      (fun h => (hS h).slot _) (fun h => (hS h).param) fun h => (hP h).slot _⟩
  obtain ⟨b, hb⟩ := hm.literals key d v h
  exact ⟨b, hb.withStore hp⟩

theorem withStore (hm : m.Sound) {s : Store} (hs : m.extent.HasStore s)
    (hp : m.store.KeepsObjects s) (hg : m.store.Gains s ∅ ∅) :
    Machine.Sound { m with store := s } := hm.withGains hs hp hg nofun nofun nofun nofun

theorem withFrames (hm : m.Sound) {fs : List Frame} (hfs : ∀ f ∈ fs, m.extent.HasFrame f) :
    Machine.Sound { m with frames := fs } :=
  ⟨hm.built, hm.closed, hm.root, hm.start, hm.store, hm.literals, hfs, hm.apart⟩

theorem withLog (hm : m.Sound) {l : FindingLog} (hl : m.log.Extends l) :
    Machine.Sound { m with log := l } := by
  have hle := extent_le_withLog hl
  exact ⟨hm.built, hm.closed, hm.root, hm.start.mono hle, hm.store.mono hle, hm.literals,
    fun f hf => (hm.frames f hf).mono hle, hm.apart⟩

/-- What is shared matters only as far as it is about literals. -/
theorem withShared (hm : m.Sound) {s : Shared} (hs : s.constants = m.shared.constants) :
    Machine.Sound { m with shared := s } ∧ { m with shared := s }.extent = m.extent := by
  have heq : { m with shared := s }.extent = m.extent := by
    unfold extent
    simp only [hs]
  exact ⟨⟨hm.built, hm.closed, hm.root, heq ▸ hm.start, heq ▸ hm.store, fun key d v h =>
    hm.literals key d v (hs ▸ h), fun f hf => heq ▸ hm.frames f hf, hm.apart⟩, heq⟩

/-- A machine with a new graph and without namespaces is sound if what its values hold is there, and
no variable lies in slots of two names, or in one of a type parameter. -/
theorem of_apart {library : Library} {values : Array Value} {S : Set (VarId × String)} {P : Set VarId}
    (hb : g.Built) (hc : g.Closed) (hroot : Machine.root < g.nodes.size)
    (hfirst : values[0]? = some .unsolvable) (hvalues : ∀ x ∈ values.toList, g.extent.HasValue x)
    (hslots : ∀ x ∈ values.toList, x.slots ⊆ S) (hparams : ∀ x ∈ values.toList, x.params ⊆ P)
    (hnamed : ∀ {v : VarId} {x y : String}, (v, x) ∈ S → (v, y) ∈ S → x = y)
    (hapart : ∀ {v : VarId} {x : String}, (v, x) ∈ S → v ∉ P) :
    Machine.Sound { library, graph := g, store := { values } } := by
  have hget {Q : Value → Prop} (hun : Q .unsolvable) (hQ : ∀ x ∈ values.toList, Q x) (d : DataId) :
      Q (Store.get { values } d) := by
    cases d with
    | marker => exact hun
    | value i =>
      change Q (values[i]?.getD .unsolvable)
      cases hx : values[i]? with
      | none => exact hun
      | some x => exact hQ x (Array.mem_toList_iff.mpr (Array.mem_of_getElem? hx))
  have hslots' : Store.slots { values } ⊆ S := by
    rintro slot (⟨d, hslot⟩ | ⟨ns, ms, hns, -⟩)
    · refine hget (Q := fun x => x.slots ⊆ S) ?_ hslots d hslot
      rintro slot ⟨_, hms, -⟩
      cases hms
    · simp [Store.namespace?] at hns
  have hparams' : Store.params { values } ⊆ P := by
    rintro v ⟨d, hv⟩
    refine hget (Q := fun x => x.params ⊆ P) ?_ hparams d hv
    rintro v ⟨_, _, ho, -⟩
    cases ho
  refine ⟨hb, hc, hroot, Extent.hasNode_root _, ⟨hfirst, hget trivial hvalues, fun ns ms hns => ?_⟩,
    fun key d v h => ?_, nofun, fun h h' => hnamed (hslots' h) (hslots' h'),
    fun h hv => hapart (hslots' h) (hparams' hv)⟩
  · simp [Store.namespace?] at hns
  · simp at h

/-- So it is if nothing in its store has members. -/
theorem of_values {library : Library} {values : Array Value} (hb : g.Built) (hc : g.Closed)
    (hroot : Machine.root < g.nodes.size) (hfirst : values[0]? = some .unsolvable)
    (hvalues : ∀ x ∈ values.toList, g.extent.HasValue x)
    (hmembers : ∀ x ∈ values.toList, ∀ ms, x.members? = some ms → ms = ∅) :
    Machine.Sound { library, graph := g, store := { values } } := by
  refine of_apart (S := ∅) (P := Set.univ) hb hc hroot hfirst hvalues (fun x hx => ?_)
    (fun _ _ => Set.subset_univ _) (fun h _ => h.elim) (fun h => h.elim)
  rintro slot ⟨ms, hms, hslot⟩
  rwa [hmembers x hx ms hms, slotsOf_empty] at hslot

end Sound

end Machine

end ValueTrace
