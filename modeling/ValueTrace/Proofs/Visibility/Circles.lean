import Mathlib.Data.Fintype.Order
import ValueTrace.Proofs.Visibility.Queries

/-! Bindings that justify only one another. A circle of them through several nodes justifies
nothing, but one that closes inside a node does. -/
namespace ValueTrace.Graph

def Circular (g : Graph) (members : Set BindingId) : Prop :=
  ∀ b ∈ members, ∀ o ∈ (g.binding b).origins, ∀ s ∈ o.sourceSets, ∃ c ∈ s, c ∈ members

/-- At a node one member may be replaced by a set with the other. -/
def Justifies (g : Graph) (n : NodeId) (members : Set BindingId) (a c : BindingId) : Prop :=
  a ∈ members ∧ c ∈ members ∧
    ∃ o, (g.binding a).originAt? n = some o ∧ ∃ s ∈ o.sourceSets, c ∈ s

/-- At a node one member is replaced by a set with the other. -/
def LeansOn (g : Graph) (n : NodeId) (choice : BindingId → SourceSet) (members : Set BindingId)
    (a c : BindingId) : Prop :=
  a ∈ members ∧ c ∈ members ∧
    ∃ o, (g.binding a).originAt? n = some o ∧ choice a ∈ o.sourceSets ∧ c ∈ choice a

/-- A circle of members closes inside the node, and what else is needed with it can hold. -/
def ClosesAt (g : Graph) (n : NodeId) (members : Set BindingId) : Prop :=
  ∃ choice b, Relation.TransGen (g.LeansOn n choice members) b b ∧ g.HoldsBy n choice {b}

variable {g : Graph} {n : NodeId} {choice : BindingId → SourceSet} {goals members : Set BindingId}

/-- Where every element of a finite type has a successor, some element follows itself. -/
private theorem exists_circle {α : Type} [Finite α] [Nonempty α] {r : α → α → Prop}
    (h : ∀ a, ∃ b, r a b) : ∃ a, Relation.TransGen r a a := by
  by_contra hno
  have : IsTrans α (Function.swap (Relation.TransGen r)) := ⟨fun _ _ _ hab hbc => hbc.trans hab⟩
  have : Std.Irrefl (Function.swap (Relation.TransGen r)) := ⟨fun a ha => hno ⟨a, ha⟩⟩
  have hwf : WellFounded (Function.swap (Relation.TransGen r)) :=
    Finite.wellFounded_of_trans_of_irrefl _
  obtain ⟨m, _, hm⟩ := hwf.has_min Set.univ Set.univ_nonempty
  obtain ⟨b, hb⟩ := h m
  exact hm b trivial (.single hb)

/-- A member that is not carried is replaced, and so leads to another member that is seen. -/
private theorem exists_leansOn (hm : g.Circular members) (hs : g.Stands n choice goals)
    (hc : ∀ c ∈ members, c ∉ g.Carried n choice goals) {a : BindingId}
    (ha : a ∈ members) (hseen : g.Seen n choice goals a) :
    ∃ c, g.LeansOn n choice members a c ∧ g.Seen n choice goals c := by
  cases ho : (g.binding a).originAt? n with
  | none => exact absurd ⟨hseen, ho⟩ (hc a ha)
  | some o =>
    have hin : choice a ∈ o.sourceSets := hs.chosen a o hseen ho
    obtain ⟨c, hca, hcm⟩ := hm a ha o (List.mem_of_find?_eq_some ho) _ hin
    exact ⟨c, ⟨ha, hcm, o, ho, hin, hca⟩, .source hseen (by simp [ho]) hca⟩

/-- Where members are seen and none is carried, a circle of them closes. -/
private theorem closesAt_of_holdsBy (hm : g.Circular members) (hg : g.HoldsBy n choice goals)
    (hc : ∀ c ∈ members, c ∉ g.Carried n choice goals) {b : BindingId} (hb : b ∈ members)
    (hseen : g.Seen n choice goals b) : g.ClosesAt n members := by
  have hnext (a : {a // a ∈ members ∧ g.Seen n choice goals a}) :
      ∃ c : {a // a ∈ members ∧ g.Seen n choice goals a}, g.LeansOn n choice members a c := by
    obtain ⟨c, hac, hcs⟩ := exists_leansOn hm hg.1 hc a.2.1 a.2.2
    exact ⟨⟨c, hac.2.1, hcs⟩, hac⟩
  -- only bindings that are there have an origin
  have hfin : {a | a ∈ members ∧ g.Seen n choice goals a}.Finite := by
    refine (Set.finite_lt_nat g.bindings.size).subset fun a ha => ?_
    obtain ⟨_, ⟨_, _, o, ho, _⟩, _⟩ := exists_leansOn hm hg.1 hc ha.1 ha.2
    exact lt_of_originAt? ho
  have : Finite {a // a ∈ members ∧ g.Seen n choice goals a} := hfin.to_subtype
  have : Nonempty {a // a ∈ members ∧ g.Seen n choice goals a} := ⟨⟨b, hb, hseen⟩⟩
  obtain ⟨a, ha⟩ := exists_circle hnext
  refine ⟨choice, a, ?_, hg.mono fun c hc => hc ▸ a.2.2⟩
  exact ha.lift Subtype.val fun _ _ h => h

/-- A walk that begins with a member leads to a node where a circle of members closes. -/
theorem exists_closesAt (hm : g.Circular members) (hg : g.CanHold n goals) {b : BindingId}
    (hb : b ∈ members) (hgoal : b ∈ goals) : ∃ n, g.ClosesAt n members := by
  induction hg generalizing b with
  | @here n goals choice hs hc =>
    exact ⟨n, closesAt_of_holdsBy hm ⟨hs, .inl hc⟩ (fun c _ => hc c) hb (.goal hgoal)⟩
  | @before n goals choice p hs hp ho hh ih =>
    by_cases hcarried : ∃ c ∈ members, c ∈ g.Carried n choice goals
    · obtain ⟨c, hc, hcc⟩ := hcarried
      exact ih hc hcc
    · have hnone : ∀ c ∈ members, c ∉ g.Carried n choice goals :=
        fun c hc hcc => hcarried ⟨c, hc, hcc⟩
      exact ⟨n, closesAt_of_holdsBy hm ⟨hs, .inr ⟨p, hp, ho, hh⟩⟩ hnone hb (.goal hgoal)⟩

/-- A circle that closes inside a node makes a member visible there. -/
theorem ClosesAt.exists_isVisible (h : g.ClosesAt n members) :
    ∃ b ∈ members, g.isVisible b n = true := by
  obtain ⟨choice, b, hb, hg⟩ := h
  obtain ⟨_, hlean, _⟩ := Relation.TransGen.head'_iff.mp hb
  exact ⟨b, hlean.1, (isVisible_iff g b n).mpr (canHold_iff_holdsBy.mpr ⟨choice, hg⟩)⟩

/-- Bindings that justify only one another are visible nowhere just when no circle of them closes
inside a single node. In particular a circle that needs several nodes never makes them visible. -/
theorem circular_hidden_iff (g : Graph) (members : Set BindingId) (hm : g.Circular members) :
    ((∀ b ∈ members, ∀ n, g.isVisible b n = false) ↔ ∀ n, ¬ g.ClosesAt n members) ∧
      ((∀ n b, ¬ Relation.TransGen (g.Justifies n members) b b) →
        ∀ b ∈ members, ∀ n, g.isVisible b n = false) := by
  have hiff : (∀ b ∈ members, ∀ n, g.isVisible b n = false) ↔ ∀ n, ¬ g.ClosesAt n members := by
    constructor
    · intro hhidden n hn
      obtain ⟨b, hb, hv⟩ := hn.exists_isVisible
      simp [hhidden b hb n] at hv
    · intro hopen b hb n
      by_contra hv
      have hg : g.CanHold n {b} := (isVisible_iff g b n).mp (by simpa using hv)
      obtain ⟨k, hk⟩ := exists_closesAt hm hg hb rfl
      exact hopen k hk
  refine ⟨hiff, fun hflat => hiff.mpr fun n hn => ?_⟩
  obtain ⟨choice, b, hb, _⟩ := hn
  refine hflat n b (hb.lift id fun a c hac => ?_)
  obtain ⟨ha, hc, o, ho, hin, hca⟩ := hac
  exact ⟨ha, hc, o, ho, choice a, hin, hca⟩

/-- Two nodes in a loop. A binding at the first one and one at a given node justify each other. -/
def coupleGrowth (n : NodeId) : Growth Unit := do
  let first ← newNode "first"
  let second ← newNode "second"
  connect first second
  connect second first
  let x ← modifyGet (·.newVariable "x")
  let y ← modifyGet (·.newVariable "y")
  let _ ← modifyGet (·.addBinding x (.value 0) [1] first)
  let _ ← modifyGet (·.addBinding y (.value 0) [0] n)

def couple (n : NodeId) : Graph :=
  match (coupleGrowth n).run {} with
  | .ok _ g | .error _ g => g

private theorem couple_binding_zero (n : NodeId) :
    (couple n).binding 0 = ⟨0, 0, .value 0, [⟨0, [[1]]⟩]⟩ := rfl

private theorem couple_binding_one (n : NodeId) :
    (couple n).binding 1 = ⟨1, 1, .value 0, [⟨n, [[0]]⟩]⟩ := rfl

private theorem couple_circular (n : NodeId) : (couple n).Circular {0, 1} := by
  rintro b (rfl | rfl) o ho s hs
  · rw [couple_binding_zero, List.mem_singleton] at ho
    rw [ho, List.mem_singleton] at hs
    exact ⟨1, by simp [hs], .inr rfl⟩
  · rw [couple_binding_one, List.mem_singleton] at ho
    rw [ho, List.mem_singleton] at hs
    exact ⟨0, by simp [hs], .inl rfl⟩

private theorem couple_seen {b : BindingId}
    (hb : (couple 0).Seen 0 (fun b => [1 - b]) {0} b) : b = 0 ∨ b = 1 := by
  induction hb with
  | goal hb => exact .inl hb
  | condition hc => cases hc
  | source _ _ hb ih =>
    obtain rfl := List.mem_singleton.mp hb
    rcases ih with rfl | rfl
    · exact .inr rfl
    · exact .inl rfl

/-- At one node both are replaced by each other, and nothing is left to carry. -/
private theorem couple_canHold : (couple 0).CanHold 0 {0} := by
  refine .here (fun b => [1 - b]) ⟨fun b o hb ho => ?_, fun a b ha hb hv => ?_⟩ fun b ⟨hb, ho⟩ => ?_
  · rcases couple_seen hb with rfl | rfl <;> cases ho <;> exact List.mem_singleton_self _
  · rcases couple_seen ha with rfl | rfl <;> rcases couple_seen hb with rfl | rfl
    · rfl
    · cases hv
    · cases hv
    · rfl
  · rcases couple_seen hb with rfl | rfl <;> cases ho

/-- Justifying one another is enough where the circle closes at one node. -/
theorem circular_visible : ¬ ∀ (g : Graph) (members : Set BindingId), g.Circular members →
    ∀ b ∈ members, ∀ n, g.isVisible b n = false := by
  intro h
  have hv : (couple 0).isVisible 0 0 = true := (isVisible_iff _ _ _).mpr couple_canHold
  rw [h (couple 0) {0, 1} (couple_circular 0) 0 (.inl rfl) 0] at hv
  cases hv

private theorem couple_justifies {n : NodeId} {a c : BindingId}
    (h : (couple 1).Justifies n {0, 1} a c) : n = a ∧ c ≠ a := by
  obtain ⟨ha, _, o, ho, s, hs, hc⟩ := h
  have ho' := List.find?_some ho
  have hmem := List.mem_of_find?_eq_some ho
  rcases ha with rfl | rfl
  · obtain rfl : o = ⟨0, [[1]]⟩ := List.mem_singleton.mp hmem
    obtain rfl : s = [1] := List.mem_singleton.mp hs
    obtain rfl : c = 1 := List.mem_singleton.mp hc
    exact ⟨(beq_iff_eq.mp ho').symm, by decide⟩
  · obtain rfl : o = ⟨1, [[0]]⟩ := List.mem_singleton.mp hmem
    obtain rfl : s = [0] := List.mem_singleton.mp hs
    obtain rfl : c = 0 := List.mem_singleton.mp hc
    exact ⟨(beq_iff_eq.mp ho').symm, by decide⟩

/-- At two nodes the circle never closes, however often the loop is walked. -/
theorem couple_apart_hidden : (couple 1).Circular {0, 1} ∧
    ∀ b ∈ ({0, 1} : Set BindingId), ∀ n, (couple 1).isVisible b n = false := by
  refine ⟨couple_circular 1, (circular_hidden_iff (couple 1) {0, 1} (couple_circular 1)).2 ?_⟩
  intro n b hb
  -- the second step of a circle would start at another node
  obtain ⟨c, hbc, hcb⟩ := Relation.TransGen.head'_iff.mp hb
  obtain ⟨hn, hne⟩ := couple_justifies hbc
  rcases hcb.cases_head with hcb | ⟨d, hcd, _⟩
  · exact hne hcb
  · exact hne ((couple_justifies hcd).1.symm.trans hn)

end ValueTrace.Graph
