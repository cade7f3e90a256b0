import ValueTrace.Proofs.Graph.AppendOnly
import ValueTrace.Proofs.Visibility.Regions

/-! Bindings that need no other ones. Where no node has a condition, such a binding is visible just
where a path of edges comes from one of its origins on which no node between the ends binds its
variable again. -/
namespace ValueTrace.Graph

/-- A path of edges leads from the start to a node, and no node between these two gives the
variable a binding. -/
inductive LeadsClear (g : Graph) (v : VarId) (start : NodeId) : NodeId → Prop
  | here : LeadsClear g v start start
  | edge {n} : n ∈ (g.node start).outgoing → LeadsClear g v start n
  | past {n k} : LeadsClear g v start k → (g.node k).assigns v = false →
      n ∈ (g.node k).outgoing → LeadsClear g v start n

variable {g : Graph} {n m p : NodeId} {b : BindingId} {o : Origin} {goals : Set BindingId}

theorem exists_originAt? (ho : o ∈ (g.binding b).origins) :
    ∃ o', (g.binding b).originAt? o.node = some o' := by
  rw [← Option.isSome_iff_exists, Binding.originAt?, List.find?_isSome]
  exact ⟨o, ho, by simp⟩

theorem mem_of_originAt? (ho : (g.binding b).originAt? n = some o) :
    o ∈ (g.binding b).origins ∧ o.node = n := by
  rw [Binding.originAt?] at ho
  exact ⟨List.mem_of_find?_eq_some ho, by simpa using List.find?_some ho⟩

/-- The path goes on along an edge from a node that does not overwrite the binding. Where that node
is an origin itself, the path is only the edge. -/
theorem LeadsClear.extend (ho : o ∈ (g.binding b).origins)
    (h : g.LeadsClear (g.binding b).var o.node p) (hp : n ∈ (g.node p).outgoing)
    (hover : ¬ g.Overwrites p b) :
    ∃ o ∈ (g.binding b).origins, g.LeadsClear (g.binding b).var o.node n := by
  cases hat : (g.binding b).originAt? p with
  | some o' =>
    obtain ⟨ho', rfl⟩ := mem_of_originAt? hat
    exact ⟨o', ho', .edge hp⟩
  | none =>
    have hassigns : (g.node p).assigns (g.binding b).var = false := by
      by_contra hassigns
      exact hover ⟨by simpa using hassigns, hat⟩
    exact ⟨o, ho, .past h hassigns hp⟩

/-- A goal is carried against the edges until its first origin. -/
theorem CanHold.exists_leadsClear (hm : g.Mirrored) (h : g.CanHold n goals) (hb : b ∈ goals) :
    ∃ o ∈ (g.binding b).origins, g.LeadsClear (g.binding b).var o.node n := by
  induction h with
  | @here n goals choice hs hc =>
    cases ho : (g.binding b).originAt? n with
    | some o =>
      obtain ⟨hmem, rfl⟩ := mem_of_originAt? ho
      exact ⟨o, hmem, .here⟩
    | none => exact absurd ⟨.goal hb, ho⟩ (hc b)
  | @before n goals choice p hs hp hover _ ih =>
    cases ho : (g.binding b).originAt? n with
    | some o =>
      obtain ⟨hmem, rfl⟩ := mem_of_originAt? ho
      exact ⟨o, hmem, .here⟩
    | none =>
      have hcarried : b ∈ g.Carried n choice goals := ⟨.goal hb, ho⟩
      obtain ⟨o, ho, hlead⟩ := ih hcarried
      exact hlead.extend ho ((hm.edge p n).mpr hp) (hover b hcarried)

/-- The goal is carried back over an edge, unless the walk ends with it before. -/
theorem canHold_of_edge (hc : (g.node n).condition = none)
    (hb : ∀ o ∈ (g.binding b).origins, [] ∈ o.sourceSets) (hp : p ∈ (g.node n).incoming)
    (hover : ¬ g.Overwrites p b) (h : g.CanHold p {b}) : g.CanHold n {b} := by
  cases ho : (g.binding b).originAt? n with
  | some o => exact canHold_of_origin hc ho (hb o (mem_of_originAt? ho).1)
  | none => exact canHold_of_incoming hc ho hp hover h

theorem LeadsClear.canHold (hm : g.Mirrored) (hc : ∀ n, (g.node n).condition = none)
    (hb : ∀ o ∈ (g.binding b).origins, [] ∈ o.sourceSets)
    (ho : (g.binding b).originAt? n = some o) (h : g.LeadsClear (g.binding b).var n m) :
    g.CanHold m {b} := by
  have hstart : g.CanHold n {b} := canHold_of_origin (hc n) ho (hb o (mem_of_originAt? ho).1)
  induction h with
  | here => exact hstart
  | @edge k hedge =>
    apply canHold_of_edge (hc k) hb ((hm.edge n k).mp hedge) _ hstart
    rintro ⟨-, hno⟩
    simp [hno] at ho
  | @past m k _ hassigns hedge ih =>
    apply canHold_of_edge (hc m) hb ((hm.edge k m).mp hedge) _ ih
    rintro ⟨hassigned, -⟩
    simp [hassigns] at hassigned

/-- A binding that needs no other one is visible where a path comes from one of its origins and no
node between the two ends binds its variable. Other source sets, loops and further origins make no
difference to that. -/
theorem isVisible_iff_leadsClear (h : g.Reached) (hc : ∀ n, (g.node n).condition = none)
    (hb : ∀ o ∈ (g.binding b).origins, [] ∈ o.sourceSets) (m : NodeId) :
    g.isVisible b m = true ↔
      ∃ o ∈ (g.binding b).origins, g.LeadsClear (g.binding b).var o.node m := by
  have hm : g.Mirrored := h.built.mirrored
  rw [isVisible_iff]
  constructor
  · intro hh
    exact hh.exists_leadsClear hm rfl
  · rintro ⟨o, ho, hlead⟩
    obtain ⟨o', ho'⟩ := exists_originAt? ho
    exact hlead.canHold hm hc hb ho'

/-- A loop whose body binds `x` again, with a way out at its head and one behind its body. What `x`
is at first may also rest on what it is later. -/
def rebindingLoop : Graph :=
  List.foldl Operation.after {} [.node "root", .connectNew 0 "head" none,
    .connectNew 1 "body" none, .edge 2 1, .connectNew 1 "exit" none, .connectNew 2 "break" none,
    .var "x", .binding 0 (.value 0) [1] 0, .origin 0 [] 0, .binding 0 (.value 1) [] 2]

/-- What `x` is at first is seen at the way out, and not behind the body. -/
theorem rebindingLoop_isVisible : rebindingLoop.Reached ∧
    (∀ n, (rebindingLoop.node n).condition = none) ∧
    (rebindingLoop.binding 0).origins = [⟨0, [[1], []]⟩] ∧
    rebindingLoop.isVisible 0 3 = true ∧ ¬ rebindingLoop.LeadsClear 0 0 4 := by
  have h : rebindingLoop.Reached := by
    unfold rebindingLoop
    simp only [List.foldl_cons, List.foldl_nil]
    refine .step _ (.step _ (.step _ (.step _ (.step _ (.step _ (.step _ (.step _ (.step _ (.step _
      (.empty _) ?_) ?_) ?_) ?_) ?_) ?_) ?_) ?_) ?_) ?_
    · exact trivial
    · change _ < _
      decide
    · change _ < _
      decide
    · exact ⟨by decide, by decide⟩
    · change _ < _
      decide
    · change _ < _
      decide
    · exact trivial
    · exact ⟨by decide, by decide⟩
    · exact ⟨by decide, by decide⟩
    · exact ⟨by decide, by decide⟩
  have hc (n : NodeId) : (rebindingLoop.node n).condition = none := by
    have hsize : rebindingLoop.nodes.size = 5 := by decide
    have hall : ∀ n < 5, (rebindingLoop.node n).condition = none := by decide
    by_cases hn : n < 5
    · exact hall n hn
    · rw [node_eq_default (hsize ▸ Nat.le_of_not_lt hn)]
      rfl
  have ho : (rebindingLoop.binding 0).origins = [⟨0, [[1], []]⟩] := by decide
  have hb : ∀ o ∈ (rebindingLoop.binding 0).origins, [] ∈ o.sourceSets := by
    rw [ho]
    simp
  have hvar : (rebindingLoop.binding 0).var = 0 := by decide
  refine ⟨h, hc, ho, ?_, ?_⟩
  · have hpath : rebindingLoop.LeadsClear 0 0 3 :=
      .past (.edge (n := 1) (by decide)) (by decide) (by decide)
    rw [isVisible_iff_leadsClear h hc hb]
    exact ⟨⟨0, [[1], []]⟩, by simp [ho], hvar ▸ hpath⟩
  · intro hpath
    have hhidden : rebindingLoop.isVisible 0 4 = false := by decide +kernel
    rw [← Bool.not_eq_true, isVisible_iff_leadsClear h hc hb] at hhidden
    exact hhidden ⟨⟨0, [[1], []]⟩, by simp [ho], hvar ▸ hpath⟩

end ValueTrace.Graph
