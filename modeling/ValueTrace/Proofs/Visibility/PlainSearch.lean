import Mathlib.Data.Set.Basic
import ValueTrace.Graph.Visibility

/-! The search without memory: a finite walk backwards from a node, on which every goal is at last
justified. It says which bindings hold together without saying how that is found out. -/
namespace ValueTrace.Graph

/-- The bindings that a position of a walk sees: its goals, the condition of the node, and the
sources chosen for each of them that has an origin there. -/
inductive Seen (g : Graph) (n : NodeId) (choice : BindingId → SourceSet) (goals : Set BindingId) :
    BindingId → Prop
  | goal {b} : b ∈ goals → Seen g n choice goals b
  | condition {b} : (g.node n).condition = some b → Seen g n choice goals b
  | source {a b} : Seen g n choice goals a → ((g.binding a).originAt? n).isSome → b ∈ choice a →
      Seen g n choice goals b

/-- A choice of one source set for each goal that is replaced at a node. What is seen then has to be
free of conflicts. -/
structure Stands (g : Graph) (n : NodeId) (choice : BindingId → SourceSet)
    (goals : Set BindingId) : Prop where
  chosen : ∀ b o, Seen g n choice goals b → (g.binding b).originAt? n = some o →
    choice b ∈ o.sourceSets
  apart : ∀ a b, Seen g n choice goals a → Seen g n choice goals b →
    (g.binding a).var = (g.binding b).var → a = b

def Carried (g : Graph) (n : NodeId) (choice : BindingId → SourceSet)
    (goals : Set BindingId) : Set BindingId :=
  {b | Seen g n choice goals b ∧ (g.binding b).originAt? n = none}

def Overwrites (g : Graph) (n : NodeId) (b : BindingId) : Prop :=
  (g.node n).assigns (g.binding b).var = true ∧ (g.binding b).originAt? n = none

instance (g : Graph) (n : NodeId) (b : BindingId) : Decidable (g.Overwrites n b) :=
  inferInstanceAs (Decidable (_ ∧ _))

/-- The plain search succeeds: a finite walk against the edges starts at the node with the goals and
ends where nothing is carried. -/
inductive CanHold (g : Graph) : NodeId → Set BindingId → Prop
  | here {n goals} (choice : BindingId → SourceSet) : g.Stands n choice goals →
      (∀ b, b ∉ g.Carried n choice goals) → CanHold g n goals
  | before {n goals} (choice : BindingId → SourceSet) (p : NodeId) : g.Stands n choice goals →
      p ∈ (g.node n).incoming → (∀ b ∈ g.Carried n choice goals, ¬ g.Overwrites p b) →
      CanHold g p (g.Carried n choice goals) → CanHold g n goals

/-- The plain search succeeds with this choice at its first position. -/
def HoldsBy (g : Graph) (n : NodeId) (choice : BindingId → SourceSet)
    (goals : Set BindingId) : Prop :=
  g.Stands n choice goals ∧
    ((∀ b, b ∉ g.Carried n choice goals) ∨ ∃ p ∈ (g.node n).incoming,
      (∀ b ∈ g.Carried n choice goals, ¬ g.Overwrites p b) ∧ g.CanHold p (g.Carried n choice goals))

variable {g : Graph} {n : NodeId} {choice : BindingId → SourceSet} {goals less : Set BindingId}

/-- Fewer goals see less. -/
theorem Seen.mono (h : ∀ b ∈ less, g.Seen n choice goals b) {b : BindingId}
    (hb : g.Seen n choice less b) : g.Seen n choice goals b := by
  induction hb with
  | goal hb => exact h _ hb
  | condition hc => exact .condition hc
  | source _ ho hs ih => exact .source ih ho hs

theorem Stands.mono (h : ∀ b ∈ less, g.Seen n choice goals b) (hs : g.Stands n choice goals) :
    g.Stands n choice less where
  chosen b o hb ho := hs.chosen b o (hb.mono h) ho
  apart a b ha hb hv := hs.apart a b (ha.mono h) (hb.mono h) hv

theorem carried_mono (h : ∀ b ∈ less, g.Seen n choice goals b) :
    g.Carried n choice less ⊆ g.Carried n choice goals :=
  fun _ hb => ⟨hb.1.mono h, hb.2⟩

/-- A walk for some goals serves any of them. -/
theorem CanHold.mono (hg : g.CanHold n goals) (h : less ⊆ goals) : g.CanHold n less := by
  induction hg generalizing less with
  | @here n goals choice hs hc =>
    have hl : ∀ b ∈ less, g.Seen n choice goals b := fun b hb => .goal (h hb)
    exact .here choice (hs.mono hl) fun b hb => hc b (carried_mono hl hb)
  | @before n goals choice p hs hp ho _ ih =>
    have hl : ∀ b ∈ less, g.Seen n choice goals b := fun b hb => .goal (h hb)
    exact .before choice p (hs.mono hl) hp (fun b hb => ho b (carried_mono hl hb))
      (ih (carried_mono hl))

theorem canHold_iff_holdsBy : g.CanHold n goals ↔ ∃ choice, g.HoldsBy n choice goals := by
  constructor
  · rintro (⟨choice, hs, hc⟩ | ⟨choice, p, hs, hp, ho, hh⟩)
    · exact ⟨choice, hs, .inl hc⟩
    · exact ⟨choice, hs, .inr ⟨p, hp, ho, hh⟩⟩
  · rintro ⟨choice, hs, hc | ⟨p, hp, ho, hh⟩⟩
    · exact .here choice hs hc
    · exact .before choice p hs hp ho hh

/-- What holds by a choice gives what is seen there by the same choice. -/
theorem HoldsBy.mono (hg : g.HoldsBy n choice goals)
    (h : ∀ b ∈ less, g.Seen n choice goals b) : g.HoldsBy n choice less := by
  obtain ⟨hs, hc | ⟨p, hp, ho, hh⟩⟩ := hg
  · exact ⟨hs.mono h, .inl fun b hb => hc b (carried_mono h hb)⟩
  · exact ⟨hs.mono h,
      .inr ⟨p, hp, fun b hb => ho b (carried_mono h hb), hh.mono (carried_mono h)⟩⟩

/-- What holds begins to hold somewhere. -/
theorem CanHold.origins_ne_nil {b : BindingId} (h : g.CanHold n goals) (hb : b ∈ goals) :
    (g.binding b).origins ≠ [] := by
  induction h with
  | here choice _ hc =>
    intro hno
    exact hc b ⟨.goal hb, by simp [Binding.originAt?, hno]⟩
  | before choice p _ _ _ _ ih =>
    intro hno
    exact ih ⟨.goal hb, by simp [Binding.originAt?, hno]⟩ hno

end ValueTrace.Graph
