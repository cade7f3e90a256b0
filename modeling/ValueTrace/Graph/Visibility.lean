import ValueTrace.Graph.Basic
import Std.Data.TreeMap

/-!
# Which bindings hold together at a node

The question is answered by a search backwards. Its state is a node and a set of goals. At a node
the goals that have an origin there are replaced by one of the origin's source sets, and so on for
these; the goals that are left are carried to the nodes before, except those that give the variable
of a carried goal another binding. The search succeeds where no goal is left, and two goals of one
variable never hold together.
-/

namespace ValueTrace

/-- What is known about a state of the search: that it lies on the current path, or its answer. -/
inductive Verdict where
  | underway
  | known (answer : Bool)
  deriving DecidableEq, Repr

/-- Answers so far, by node and goals, and whether the search has met a state that lies on its own
path since the flag was last cleared. A failure below such a state may be due to the path. -/
structure Search where
  answers : Std.TreeMap (List Nat) Verdict := ∅
  metCycle : Bool := false

namespace Graph

def arrive (g : Graph) (n : NodeId) (goals : SourceSet) : SourceSet :=
  match (g.node n).condition with
  | some c => SourceSet.insert c goals
  | none => goals

def conflicting (g : Graph) (goals : List BindingId) : Bool :=
  !(decide (goals.map fun b => (g.binding b).var).Nodup)

def blocked (g : Graph) (n : NodeId) (goals : SourceSet) : Bool :=
  goals.any fun b =>
    (g.node n).assigns (g.binding b).var && ((g.binding b).originAt? n).isNone

/-- Carry goals without an origin at the node, up to the first goal that has one there. -/
def carry (g : Graph) (n : NodeId) (settled : List BindingId) :
    List BindingId → SourceSet → SourceSet × Option (BindingId × Origin × List BindingId)
  | [], carried => (carried, none)
  | b :: pending, carried =>
    if settled.contains b || carried.contains b then g.carry n settled pending carried
    else
      match (g.binding b).originAt? n with
      | some o => (carried, some (b, o, pending))
      | none => g.carry n settled pending (SourceSet.insert b carried)

/-- Replace goals by source sets in every way, latest goals first, until `go` accepts what is
carried. The first argument bounds how many goals are replaced; the number of bindings is enough. -/
def settle (g : Graph) (n : NodeId) (go : SourceSet → StateM Search Bool) :
    Nat → List BindingId → List BindingId → SourceSet → StateM Search Bool
  | 0, _, _, _ => pure false
  | fuel + 1, pending, settled, carried =>
    match g.carry n settled pending carried with
    | (carried, some (b, o, pending)) =>
      o.sourceSets.anyM fun s => g.settle n go fuel (s.reverse ++ pending) (b :: settled) carried
    | (carried, none) =>
      if g.conflicting (settled ++ carried) then pure false
      else if carried.isEmpty then pure true
      else go carried

/-- Search from a node with goals that include its condition. The first argument bounds the length
of the path. -/
def search (g : Graph) : Nat → NodeId → SourceSet → StateM Search Bool
  | 0, _, _ => pure false
  | fuel + 1, n, goals => do
    if goals.isEmpty then return true
    match (← get).answers[n :: goals]? with
    | some (.known answer) => return answer
    | some .underway =>
      modify ({ · with metCycle := true })
      return false
    | none =>
      let outer := (← get).metCycle
      modify fun s => { answers := s.answers.insert (n :: goals) .underway, metCycle := false }
      let answer ← g.settle n (fun carried => (g.node n).incoming.anyM fun p =>
        if g.blocked p carried then pure false else g.search fuel p (g.arrive p carried))
        (g.bindings.size + 1) goals.reverse [] []
      modify fun s =>
        { answers :=
            if answer || !s.metCycle then s.answers.insert (n :: goals) (.known answer)
            else s.answers.erase (n :: goals)
          metCycle := s.metCycle || outer }
      return answer

def searchBound (g : Graph) : Nat := (g.nodes.size + 1) * Nat.pow 2 (g.bindings.size + 1) + 1

def query (g : Graph) (n : NodeId) (goals : List BindingId) : StateM Search Bool :=
  g.search g.searchBound n (g.arrive n (.ofList goals))

def canCombine (g : Graph) (goals : List BindingId) (n : NodeId) : Bool :=
  ((g.query n goals).run {}).1

def isVisible (g : Graph) (b : BindingId) (n : NodeId) : Bool := g.canCombine [b] n

def visible (g : Graph) (v : VarId) (n : NodeId) : List BindingId :=
  (((g.allBindings v).filterM fun b => g.query n [b]).run {}).1

def visibleData (g : Graph) (v : VarId) (n : NodeId) : List DataId :=
  (g.visible v n).map g.dataOf

end Graph

end ValueTrace
