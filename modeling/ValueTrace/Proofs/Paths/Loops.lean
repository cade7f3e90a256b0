import Mathlib
import ValueTrace.Proofs.Paths.Siblings
import ValueTrace.Proofs.Visibility.Markers

/-! What a loop leaves to the code behind it. The side on which the loop is left asks for what was
visible when the loop was tested, and edges that lead back to the head are added later. -/
namespace ValueTrace

namespace Graph

/-- The condition holds at a node, with whatever else, just where all bindings of one of the lists
do. -/
def AsksFor (g : Graph) (n : NodeId) (condition : Option BindingId)
    (asks : List (List BindingId)) : Prop :=
  ∀ b, g.CanHold n {a | a ∈ b :: condition.toList} ↔ ∃ s ∈ asks, g.CanHold n {a | a ∈ b :: s}

/-- The bindings that one graph has more than another, and that a third one has as well, are alone
with their variables. -/
def KeepsMarkers (old new g : Graph) : Prop :=
  ∀ c, old.bindings.size ≤ c → c < new.bindings.size → g.binding c = new.binding c ∧ g.Sole c

/-- On a path that has left a loop at its test, a binding that is not bound on the way is visible
just where a walk back from the test leads out of the loop with the binding and one of the lists, to
a node where they hold together. -/
def ShowsBehind (g : Graph) (test : NodeId) (condition : Option BindingId)
    (asks : List (List BindingId)) : Prop :=
  ∀ (b : BindingId) (exit : Set NodeId) (e : NodeId), g.EnteredFrom test exit →
    g.Under exit condition b → g.ReachedIn exit test e →
    ∀ loop : Set NodeId, test ∈ loop → (∀ k ∈ loop, (g.binding b).originAt? k = none) →
      (g.isVisible b e = true ↔ ¬ g.Overwrites test b ∧ ∃ s ∈ asks, ∃ k rest,
        g.LeadsOut loop test {a | a ∈ b :: s} k rest ∧ (∀ a ∈ rest, ¬ g.Overwrites k a) ∧
          g.CanHold k rest)

variable {g : Graph} {test : NodeId} {condition : Option BindingId}
  {asks : List (List BindingId)}

theorem AsksFor.showsBehind (h : g.AsksFor test condition asks)
    (hc : ∀ c, condition = some c → ¬ g.Overwrites test c) : g.ShowsBehind test condition asks := by
  intro b exit e he hu hr loop htest hfree
  have hover : (∀ a ∈ b :: condition.toList, ¬ g.Overwrites test a) ↔ ¬ g.Overwrites test b := by
    constructor
    · exact fun ho => ho b List.mem_cons_self
    · intro hb a ha
      rcases List.mem_cons.mp ha with rfl | ha
      · exact hb
      · exact hc a (Option.mem_toList.mp ha)
  rw [hu.isVisible_iff he hr, hover, h b, and_comm]
  refine and_congr_right fun _ => exists_congr fun s => and_congr_right fun _ => ?_
  constructor
  · intro hs
    obtain ⟨k, rest, hlead, ho, hk⟩ := exists_leadsOut htest hfree hs List.mem_cons_self
    exact ⟨k, rest, hlead, ho, hk⟩
  · rintro ⟨k, rest, hlead, ho, hk⟩
    exact hlead.canHold ho hk

end Graph

namespace Store

variable {s : Store} {g g' : Graph} {p : Path} {n : NodeId} {v : VarId} {side : Bool}

/-- A side of a branch goes on under the condition of the path so far, or under a marker for what it
asks for. -/
private theorem side_cases (hside : s.sideOf g n p.condition v side ≠ .unsatisfiable)
    (hk : g.KeepsMarkers (s.split g n p.condition v).2.2 g') :
    (p.restrict (s.sideOf g n p.condition v side)).condition = p.condition ∧
        s.asks g n p.condition v side = [p.condition.toList] ∨
      ∃ c sets, (p.restrict (s.sideOf g n p.condition v side)).condition = some c ∧
        (g'.binding c).originAt? n = some ⟨n, sets⟩ ∧ g'.Sole c ∧
        ∀ t, t ∈ sets ↔ ∃ l ∈ s.asks g n p.condition v side, t = .ofList l := by
  rcases s.sideOf_cases g n p.condition v side with
    ⟨he, _⟩ | ⟨he, hall⟩ | ⟨hsome, c, he, hc, sets, horigins, hsets⟩
  · exact absurd he hside
  · rw [he, asks, if_pos hall]
    exact .inl ⟨rfl, rfl⟩
  · have hlt : c < (s.split g n p.condition v).2.2.bindings.size := by
      by_contra hge
      rw [Graph.binding, Array.getElem?_eq_none (Nat.le_of_not_lt hge)] at horigins
      cases horigins
    obtain ⟨hkept, hsole⟩ := hk c hc hlt
    have horigin : (g'.binding c).originAt? n = some ⟨n, sets⟩ := by
      simp [Binding.originAt?, hkept, horigins]
    rw [he, asks, if_neg hsome]
    exact .inr ⟨c, sets, rfl, horigin, hsole, fun t => (hsets t).trans (by simp)⟩

/-- A side of a branch asks for what agrees with it, under the condition of the path so far. -/
theorem asksFor_side (hside : s.sideOf g n p.condition v side ≠ .unsatisfiable)
    (hk : g.KeepsMarkers (s.split g n p.condition v).2.2 g') :
    g'.AsksFor n (p.restrict (s.sideOf g n p.condition v side)).condition
      (s.asks g n p.condition v side) := by
  intro b
  rcases side_cases hside hk with ⟨hc, hasks⟩ | ⟨c, sets, hc, ho, hsole, hsets⟩
  · simp [hc, hasks]
  · have hgoals : {a | a ∈ b :: Option.toList (some c)} = insert c ({b} : Set BindingId) := by
      ext a
      simp [or_comm]
    have hset (l : List BindingId) :
        ({b} ∪ {a | a ∈ SourceSet.ofList l} : Set BindingId) = {a | a ∈ b :: l} := by
      ext a
      simp
    rw [hc, hgoals, Graph.canHold_insert_iff ho hsole]
    constructor
    · rintro ⟨t, ht, hold⟩
      obtain ⟨l, hl, rfl⟩ := (hsets t).mp ht
      exact ⟨l, hl, hset l ▸ hold⟩
    · rintro ⟨l, hl, hold⟩
      exact ⟨_, (hsets _).mpr ⟨l, hl, rfl⟩, hset l ▸ hold⟩

/-- No node overwrites what it marks. -/
theorem not_overwrites_side (hside : s.sideOf g n p.condition v side ≠ .unsatisfiable)
    (hk : g.KeepsMarkers (s.split g n p.condition v).2.2 g')
    (hp : ∀ c, p.condition = some c → ¬ g'.Overwrites n c) (c : BindingId)
    (h : (p.restrict (s.sideOf g n p.condition v side)).condition = some c) :
    ¬ g'.Overwrites n c := by
  rcases side_cases hside hk with ⟨hc, _⟩ | ⟨d, sets, hc, ho, _, _⟩
  · exact hp c (hc.symm.trans h)
  · obtain rfl := Option.some.inj (hc.symm.trans h)
    rintro ⟨_, hno⟩
    rw [ho] at hno
    cases hno

end Store

namespace Analysis

variable {call : Caller} {m m' : Machine} {p q : Path} {i : Instruction} {dest : Nat}

private theorem jump_showsBehind {sense : Bool} (hj : jumpsOn? i.op = some sense)
    (h : step call i p m = .ok q m') (hq : q.stop = none) (hdest : i.target = some dest)
    (hu : m.Unmet dest) : ∃ v, p.top = .ok v ∧
      ∀ x side, (x = q ∧ side = !sense ∨ m'.entryFor? dest = some x ∧ side = sense) →
        ∀ g, m.graph.KeepsMarkers (m.store.split m.graph p.node p.condition v).2.2 g →
          (∀ c, p.condition = some c → ¬ g.Overwrites p.node c) →
          g.ShowsBehind p.node x.condition (m.store.asks m.graph p.node p.condition v side) := by
  obtain ⟨tested, hstep⟩ := step_jumpIf hj
  rw [hstep] at h
  obtain ⟨v, hv, hsides⟩ := jumpIf_conditions h hq hdest hu
  refine ⟨v, hv, fun x side hx g hk hp => ?_⟩
  obtain ⟨hside, hc⟩ := hsides x side hx
  rw [hc]
  exact (Store.asksFor_side hside hk).showsBehind (Store.not_overwrites_side hside hk hp)

private theorem iterator_showsBehind (hop : i.op = .forIter) (h : step call i p m = .ok q m')
    (hdest : i.target = some dest) (hu : m.Unmet dest) :
    ∃ (x : Path) (m₁ : Machine), m₁.entryFor? dest = some x ∧
      x.node = p.node ∧ ∀ g : Graph, (∀ c, p.condition = some c → ¬ g.Overwrites p.node c) →
        g.ShowsBehind p.node x.condition [p.condition.toList] := by
  unfold step at h
  rw [hop] at h
  obtain ⟨x, m₁, _, _, _, hentry, hnode, hcondition, _⟩ := nextItem_nodes h hdest hu
  refine ⟨x, m₁, hentry, hnode, fun g hp => ?_⟩
  have hasks : g.AsksFor p.node p.condition [p.condition.toList] := fun b => by simp
  rw [hcondition]
  exact hasks.showsBehind hp

/-- Behind a loop a binding from its body is visible just where it has come back to the test
together with bindings that were visible there when the test was run, and agreed with the side on
which the loop is left. A jump back adds the edge for it, but what is bound in the body joins the
test too late to be asked for. -/
theorem visible_behind_loop (h : step call i p m = .ok q m') (hdest : i.target = some dest)
    (hu : m.Unmet dest) :
    (∀ sense, jumpsOn? i.op = some sense → q.stop = none → ∃ v, p.top = .ok v ∧
      ∀ x side, (x = q ∧ side = !sense ∨ m'.entryFor? dest = some x ∧ side = sense) →
        ∀ g, m.graph.KeepsMarkers (m.store.split m.graph p.node p.condition v).2.2 g →
          (∀ c, p.condition = some c → ¬ g.Overwrites p.node c) →
          g.ShowsBehind p.node x.condition (m.store.asks m.graph p.node p.condition v side)) ∧
    (i.op = .forIter → ∃ (x : Path) (m₁ : Machine), m₁.entryFor? dest = some x ∧ x.node = p.node ∧
      ∀ g : Graph, (∀ c, p.condition = some c → ¬ g.Overwrites p.node c) →
        g.ShowsBehind p.node x.condition [p.condition.toList]) ∧
    ∀ (head : Nat) (r stored : Path) (m₁ m₂ : Machine) (f : Frame) (fs : List Frame),
      storeJump head r m₁ = .ok () m₂ → m₁.frames = f :: fs → f.executed.contains head = true →
      f.entries[head]? = some stored → stored.node < m₁.graph.nodes.size →
      (stored.node ∈ (m₁.graph.node r.node).outgoing →
        r.node ∈ (m₁.graph.node stored.node).incoming) →
      r.node ∈ (m₂.graph.node stored.node).incoming :=
  ⟨fun _ hj hq => jump_showsBehind hj h hq hdest hu, fun hop => iterator_showsBehind hop h hdest hu,
    fun _ _ _ _ _ _ _ hjump hm hx hs hn hboth => storeJump_executed hjump hm hx hs hn hboth⟩

def lapNames : List String := ["x", "y", "value", "condition", "condition"]

def lapBindings : List (VarId × DataId × Origin) :=
  [(1, .value 1, ⟨0, [[]]⟩), (1, .value 2, ⟨0, [[]]⟩), (2, .value 0, ⟨0, [[]]⟩),
    (3, .marker, ⟨1, [[0]]⟩), (4, .marker, ⟨1, [[1]]⟩), (0, .value 0, ⟨3, [[2]]⟩),
    (1, .value 0, ⟨4, [[2]]⟩)]

def lapNode (id : NodeId) (incoming outgoing : List NodeId) (condition : Option BindingId)
    (assigned : List VarId) : Node := Graph.drawnNode id "loop" incoming outgoing condition assigned

def lapGraph (nodes : List Node) (named bound cost : Nat) : Graph :=
  .drawn nodes (lapNames.take named) (lapBindings.take bound) cost

/-- The graph at the head, then with the markers of the two sides, with a node for each of them,
with what the body stores, and with the edge back to the head. -/
def lapStart : Graph := lapGraph [lapNode 0 [] [1] none [1, 2], lapNode 1 [0] [] none []] 3 3 0

def lapForked : Graph := lapGraph [lapNode 0 [] [1] none [1, 2], lapNode 1 [0] [] none [3, 4]] 5 5 0

def lapTested : Graph := lapGraph [lapNode 0 [] [1] none [1, 2], lapNode 1 [0] [2, 3] none [3, 4],
  lapNode 2 [1] [] (some 4) [], lapNode 3 [1] [] (some 3) []] 5 5 5

def lapStored : Graph := lapGraph [lapNode 0 [] [1] none [1, 2], lapNode 1 [0] [2, 3] none [3, 4],
  lapNode 2 [1] [] (some 4) [], lapNode 3 [1] [4] (some 3) [0], lapNode 4 [3] [5] (some 3) [1],
  lapNode 5 [4] [] (some 3) []] 5 7 9

def lapClosed : Graph := lapGraph [lapNode 0 [] [1] none [1, 2],
  lapNode 1 [0, 6] [2, 3] none [3, 4], lapNode 2 [1] [] (some 4) [],
  lapNode 3 [1] [4] (some 3) [0], lapNode 4 [3] [5] (some 3) [1],
  lapNode 5 [4] [6] (some 3) [], lapNode 6 [5] [1] (some 3) []] 5 7 12

def lapFrame : Frame where
  code := ⟨[], { (default : Code) with names := ["x", "y"] }⟩
  globals := 1
  locals := 1
  cells := []
  result := 0
  yielded := 0
  entries := (∅ : Std.TreeMap Nat Path).insert 0 { node := 1 }
  executed := (∅ : Std.TreeSet Nat).insert 0

/-- A machine in the loop. The values of `y` at the head are one that counts as true and one that
counts as false. -/
def lap (g : Graph) (f : Frame) : Machine where
  graph := g
  store := {
    values := #[.unsolvable, .object { cls := .value 0, payload := some (.constant (.int 1)) },
      .object { cls := .value 0, payload := some (.constant (.int 0)) }]
    namespaces := #[∅, (∅ : Members).insertMany [("x", 0), ("y", 1)]] }
  frames := [f]

def lapPath : Path := { node := 1, stack := [1] }

def lapExit : Path := { node := 2, condition := some 4 }

def lapLeft : Frame := { lapFrame with entries := lapFrame.entries.insert 9 lapExit }

def leaveIfFalse : Instruction := ⟨1, .popJumpIfFalse, none, 0, some 9⟩

def storeY : Instruction := ⟨2, .storeName, some 1, 0, none⟩

def jumpBack : Instruction := ⟨3, .jumpAbsolute, none, 0, some 0⟩

def lapBody (p : Path) : Analysis Path := do
  let p ← step noCall storeX (p.push 2)
  step noCall storeY (p.push 2)

def lapInside : Path := { node := 3, condition := some 3 }

private theorem lap_step : step noCall leaveIfFalse lapPath (lap lapStart lapFrame) =
    .ok lapInside (lap lapTested lapLeft) := by rfl

private theorem lap_split : (lap lapStart lapFrame).store.split lapStart 1 none 1 =
    (.holds 3, .holds 4, lapForked) := by rfl

private theorem lap_asks : (lap lapStart lapFrame).store.asks lapStart 1 none 1 false = [[1]] := by
  rfl

private theorem lap_unmet : (lap lapStart lapFrame).Unmet 9 :=
  ⟨lapFrame, [], rfl, by decide, by decide⟩

private theorem lap_sole {c : BindingId} (h : ∀ a < 7, (lapClosed.binding a).var =
    (lapClosed.binding c).var → a = c) : lapClosed.Sole c := by
  intro a ha hv
  by_cases hlt : a < 7
  · exact h a hlt hv
  · have hsize : lapClosed.bindings.size ≤ a := Nat.le_of_not_lt hlt
    rw [Graph.binding, Array.getElem?_eq_none hsize] at ha
    exact absurd rfl ha

private theorem lap_keepsMarkers : lapStart.KeepsMarkers lapForked lapClosed := by
  intro c hle hlt
  have hle' : 3 ≤ c := hle
  have hlt' : c < 5 := hlt
  obtain rfl | rfl : c = 3 ∨ c = 4 := by omega
  · exact ⟨rfl, lap_sole (by decide)⟩
  · exact ⟨rfl, lap_sole (by decide)⟩

/-- The exit asks for the value of `y` that counts as false. -/
theorem lap_showsBehind : lapPath.top = .ok 1 ∧ (lap lapStart lapFrame).Unmet 9 ∧
    step noCall leaveIfFalse lapPath (lap lapStart lapFrame) =
      .ok lapInside (lap lapTested lapLeft) ∧
    (lap lapTested lapLeft).entryFor? 9 = some lapExit ∧
    lapClosed.ShowsBehind lapPath.node lapExit.condition [[1]] := by
  have hentry : (lap lapTested lapLeft).entryFor? 9 = some lapExit := by rfl
  obtain ⟨hjumps, _, _⟩ := visible_behind_loop lap_step rfl lap_unmet
  obtain ⟨v, hv, hshows⟩ := hjumps false rfl rfl
  obtain rfl : 1 = v := Except.ok.inj hv
  refine ⟨rfl, lap_unmet, lap_step, hentry, ?_⟩
  rw [← lap_asks]
  refine hshows lapExit false (.inr ⟨hentry, rfl⟩) lapClosed ?_ (fun c hc => ?_)
  · exact (congrArg (fun s => lapStart.KeepsMarkers s.2.2 lapClosed) lap_split).mpr lap_keepsMarkers
  · cases hc

/-- What the body stores comes back to the head, but it is not seen on the exit, where `x` is
neither tested nor stored. -/
theorem lap_hides_stored : lapBody lapInside (lap lapTested lapLeft) =
      .ok { lapInside with node := 5 } (lap lapStored lapLeft) ∧
    step noCall jumpBack { lapInside with node := 5 } (lap lapStored lapLeft) =
      .ok { lapInside with node := 6 } (lap lapClosed lapLeft) ∧
    lapClosed.allBindings 0 = [5] ∧ 6 ∈ (lapClosed.node 1).incoming ∧
    lapClosed.isVisible 5 6 = true ∧ lapClosed.isVisible 5 lapExit.node = false :=
  ⟨rfl, rfl, rfl, by decide, by cbv, by cbv⟩

end Analysis

end ValueTrace
