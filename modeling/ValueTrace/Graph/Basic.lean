import Std.Data.TreeMap
import Std.Data.TreeSet
import ValueTrace.Number

/-!
# The graph of values

Nodes are the points of a control flow graph. A variable holds bindings, each of them one value that
the variable may have. A binding says where it begins to hold, its origins, and for each origin
which sets of other bindings justify it. Nodes, variables and bindings are found by their places in
the order in which they are made, from zero, and what is there is only ever added to. The number
that each of them carries is a word of 32 bits, so it is the place as long as there are no more of
them than there are such words.
-/

namespace ValueTrace

/-- The number of a node. -/
abbrev NodeId := Nat

/-- The number of a variable. -/
abbrev VarId := Nat

/-- The number of a binding. -/
abbrev BindingId := Nat

/-- What a binding binds: a stored value by its number, or nothing but the fact that a branch was
taken. -/
inductive DataId where
  | value (index : Nat)
  | marker
  deriving DecidableEq, Repr, Inhabited

def DataId.index? : DataId → Option Nat
  | value i => some i
  | marker => none

instance : Ord DataId := ⟨compareOn DataId.index?⟩

instance : Std.TransOrd DataId := inferInstanceAs (Std.TransCmp (compareOn DataId.index?))

instance : Std.LawfulEqOrd DataId where
  compare_self {d} := by
    have h : compare d.index? d.index? = .eq := Std.ReflCmp.compare_self
    exact h
  eq_of_compare {d e} h := by
    change compare d.index? e.index? = .eq at h
    have hindex : d.index? = e.index? := Std.LawfulEqCmp.eq_of_compare h
    cases d <;> cases e <;> simp_all [DataId.index?]

/-- Bindings that have to hold together, in ascending order. -/
abbrev SourceSet := List BindingId

namespace SourceSet

def insert (b : BindingId) : SourceSet → SourceSet
  | [] => [b]
  | c :: cs => if b < c then b :: c :: cs else if b = c then c :: cs else c :: insert b cs

def ofList (l : List BindingId) : SourceSet := l.foldl (fun s b => insert b s) []

end SourceSet

/-- Where a binding begins to hold, and the sets that justify it there. -/
structure Origin where
  node : NodeId
  sourceSets : List SourceSet
  deriving DecidableEq, Repr, Inhabited

/-- One value of a variable. -/
structure Binding where
  id : BindingId
  var : VarId
  data : DataId
  origins : List Origin := []
  deriving DecidableEq, Repr, Inhabited

def Binding.originAt? (b : Binding) (n : NodeId) : Option Origin :=
  b.origins.find? (·.node == n)

/-- What a place of the program may hold, with an index of its bindings by what they bind. -/
structure Variable where
  id : VarId
  name : String
  bindings : List BindingId := []
  byData : Std.TreeMap DataId BindingId := ∅
  deriving Inhabited

/-- A point of the control flow graph. A condition is a binding that has to hold for a path to lead
through the node. -/
structure Node where
  id : NodeId
  name : String
  incoming : List NodeId := []
  outgoing : List NodeId := []
  condition : Option BindingId := none
  assigned : Std.TreeSet VarId := ∅
  deriving Inhabited

def Node.assigns (n : Node) (v : VarId) : Bool := n.assigned.contains v

/-- The graph, with what its growth has cost so far. Once the cost has passed the limit the graph
is closed to further growth. -/
structure Graph where
  nodes : Array Node := #[]
  vars : Array Variable := #[]
  bindings : Array Binding := #[]
  cost : Nat := 0
  limit : Option Nat := none
  closed : Bool := false
  deriving Inhabited

/-- The graph has grown past its limit. -/
structure Overgrown where
  limit : Nat
  cost : Nat
  deriving DecidableEq, Repr

def Overgrown.message (o : Overgrown) : String :=
  s!"program too complex: cost {o.cost} exceeds limit {o.limit}"

namespace Graph

def costBound : Nat := Word.bound64 - 1

def ceiling (g : Graph) : Nat := g.limit.getD costBound

def node (g : Graph) (n : NodeId) : Node := g.nodes[n]?.getD default

def var (g : Graph) (v : VarId) : Variable := g.vars[v]?.getD default

def binding (g : Graph) (b : BindingId) : Binding := g.bindings[b]?.getD default

def root? (g : Graph) : Option NodeId := g.nodes[0]?.map (·.id)

def allBindings (g : Graph) (v : VarId) : List BindingId := (g.var v).bindings

def dataOf (g : Graph) (b : BindingId) : DataId := (g.binding b).data

def allData (g : Graph) (v : VarId) : List DataId := (g.allBindings v).map g.dataOf

/-- Steps that may fail because the graph has grown too large. What was done before stays. -/
abbrev Growth := EStateM Overgrown Graph

/-- Pay for growth. -/
def charge (amount : Nat) : Growth Unit := do
  let g ← get
  if g.closed then throw ⟨g.ceiling, g.cost⟩
  let cost := min costBound (g.cost + amount)
  let closed := decide (g.ceiling < cost)
  let limit := g.ceiling
  set { g with cost, closed }
  if closed then throw ⟨limit, cost⟩

def newNode (name : String) : Growth NodeId := do
  charge 1
  modifyGet fun g =>
    let n := g.nodes.size
    (n, { g with nodes := g.nodes.push { id := Word.low32 n, name } })

/-- Add an edge. The n-th edge out of a node costs n, and an edge that is there already nothing. -/
def connect (src dst : NodeId) : Growth Unit := do
  let out := ((← get).node src).outgoing
  unless out.contains dst do
    charge (out.length + 1)
    modify fun g => { g with
      nodes := (g.nodes.modify src fun n => { n with outgoing := n.outgoing ++ [dst] }).modify dst
        fun n => { n with incoming := n.incoming ++ [src] } }

def setCondition (g : Graph) (n : NodeId) (condition : Option BindingId) : Graph :=
  { g with nodes := g.nodes.modify n ({ · with condition }) }

def connectNew (src : NodeId) (name : String) (condition : Option BindingId) : Growth NodeId := do
  let n ← newNode name
  modify (·.setCondition n condition)
  connect src n
  return n

def newVariable (g : Graph) (name : String) : VarId × Graph :=
  let v := g.vars.size
  (v, { g with vars := g.vars.push { id := Word.low32 v, name } })

/-- Add an origin, or another set to an origin that is there already. -/
def addSources (origins : List Origin) (n : NodeId) (s : SourceSet) : List Origin :=
  match origins with
  | [] => [⟨n, [s]⟩]
  | o :: rest =>
    if o.node == n then
      { o with sourceSets := if o.sourceSets.contains s then o.sourceSets else o.sourceSets ++ [s] }
        :: rest
    else o :: addSources rest n s

def addOrigin (g : Graph) (b : BindingId) (n : NodeId) (sources : List BindingId) : Graph :=
  let v := (g.binding b).var
  { g with
    bindings := g.bindings.modify b fun k =>
      { k with origins := addSources k.origins n (.ofList sources) }
    nodes := g.nodes.modify n fun k => { k with assigned := k.assigned.insert v } }

def bindingTo? (g : Graph) (v : VarId) (d : DataId) : Option BindingId := (g.var v).byData[d]?

/-- Add a binding that holds nowhere yet. It is listed with its variable, and the index has it. -/
def newBinding (g : Graph) (v : VarId) (d : DataId) : BindingId × Graph :=
  let b := g.bindings.size
  (b, { g with
    bindings := g.bindings.push { id := Word.low32 b, var := v, data := d }
    vars := g.vars.modify v fun k => { k with
      bindings := k.bindings ++ [b]
      byData := k.byData.insert d b } })

/-- Bind a variable at a node when the sources hold. A value that the variable is bound to already
gets another origin. -/
def addBinding (g : Graph) (v : VarId) (d : DataId) (sources : List BindingId) (n : NodeId) :
    BindingId × Graph :=
  match g.bindingTo? v d with
  | some b => (b, g.addOrigin b n sources)
  | none =>
    let (b, g) := g.newBinding v d
    (b, g.addOrigin b n sources)

def pasteBindings (g : Graph) (dst : VarId) (bs : List BindingId) (n : NodeId) : Graph :=
  bs.foldl (fun g b => (g.addBinding dst (g.dataOf b) [b] n).2) g

def pasteVariable (g : Graph) (dst src : VarId) (n : NodeId) : Graph :=
  if dst == src then g else g.pasteBindings dst (g.allBindings src) n

/-- One variable for several: the only one if there is just one, else a new one with the bindings
of all. -/
def mergeVariables (g : Graph) (n : NodeId) (name : String) (vs : List VarId) : VarId × Graph :=
  match vs.eraseDups with
  | [] => g.newVariable name
  | [v] => (v, g)
  | vs =>
    let (merged, g) := g.newVariable name
    (merged, vs.foldl (fun g v => g.pasteVariable merged v n) g)

/-- Whether a path of edges leads from one node to another. -/
def reaches (g : Graph) (src dst : NodeId) : Bool :=
  go (g.nodes.size + 1) [src] ∅
where
  /-- Widen the frontier one step at a time. -/
  go : Nat → List NodeId → Std.TreeSet NodeId → Bool
    | 0, _, _ => false
    | fuel + 1, frontier, seen =>
      let fresh := (frontier.filter fun n => !seen.contains n).eraseDups
      if fresh.contains dst then true
      else if fresh.isEmpty then false
      else go fuel (fresh.flatMap fun n => (g.node n).outgoing) (seen.insertMany fresh)

end Graph

end ValueTrace
