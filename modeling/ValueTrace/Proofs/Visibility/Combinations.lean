import ValueTrace.Proofs.Graph.AppendOnly

/-! Which sets of bindings hold together at a node: with a set each of its parts, never a set with
two bindings of a variable, and none at all where the condition of the node cannot hold. -/
namespace ValueTrace.Graph

variable {g : Graph} {n : NodeId} {goals more : List BindingId} {a b c : BindingId}

/-- Fewer goals hold together all the more. -/
theorem canCombine_mono (h : goals ⊆ more) (hc : g.canCombine more n = true) :
    g.canCombine goals n = true := by
  rw [canCombine_iff] at hc ⊢
  exact hc.mono fun _ hb => h hb

theorem isVisible_of_canCombine (hb : b ∈ goals) (h : g.canCombine goals n = true) :
    g.isVisible b n = true := by
  apply canCombine_mono _ h
  simpa using hb

/-- The condition of the node is seen with any goals, even with none. -/
theorem isVisible_condition (hc : (g.node n).condition = some c)
    (h : g.canCombine goals n = true) : g.isVisible c n = true := by
  rw [canCombine_iff, canHold_iff_holdsBy] at h
  obtain ⟨choice, hh⟩ := h
  rw [isVisible_iff, canHold_iff_holdsBy]
  refine ⟨choice, hh.mono ?_⟩
  intro b hb
  rw [hb]
  exact .condition hc

/-- Two bindings of one variable are never seen at one position. -/
theorem canCombine_conflict (ha : a ∈ goals) (hb : b ∈ goals) (hne : a ≠ b)
    (hv : (g.binding a).var = (g.binding b).var) : g.canCombine goals n = false := by
  by_contra h
  rw [Bool.not_eq_false, canCombine_iff, canHold_iff_holdsBy] at h
  obtain ⟨choice, hs, -⟩ := h
  exact hne (hs.apart a b (.goal ha) (.goal hb) hv)

/-- What holds together holds in every part, so each member is visible there and so is the condition
of the node. Two bindings of a variable hold together nowhere. -/
theorem combination_law (g : Graph) (n : NodeId) (goals more : List BindingId) :
    (g.canCombine (goals ++ more) n = true → g.canCombine goals n = true) ∧
      (g.canCombine goals n = true → ∀ b ∈ goals, g.isVisible b n = true) ∧
      (∀ c, (g.node n).condition = some c → g.isVisible c n = false →
        g.canCombine goals n = false) ∧
      ∀ a ∈ goals, ∀ b ∈ goals, a ≠ b → (g.binding a).var = (g.binding b).var →
        g.canCombine goals n = false := by
  refine ⟨?_, ?_, ?_, ?_⟩
  · apply canCombine_mono
    exact List.subset_append_left goals more
  · intro h b hb
    exact isVisible_of_canCombine hb h
  · intro c hc hhidden
    by_contra h
    rw [Bool.not_eq_false] at h
    simp [isVisible_condition hc h] at hhidden
  · intro a ha b hb hne hv
    exact canCombine_conflict ha hb hne hv

def deadEnd : Graph :=
  List.foldl Operation.after {} [.node "root", .var "x", .binding 0 (.value 0) [] 0,
    .binding 0 (.value 1) [] 0, .var "y", .binding 1 (.value 0) [] 0, .var "split",
    .binding 2 .marker [0, 1] 0, .connectNew 0 "dead" (some 3)]

theorem deadEnd_combination_law :
    deadEnd.canCombine ([0] ++ [2]) 0 = true ∧ deadEnd.canCombine [0] 0 = true ∧
      deadEnd.isVisible 0 0 = true ∧
      (deadEnd.node 1).condition = some 3 ∧ deadEnd.isVisible 3 1 = false ∧
      deadEnd.canCombine [2] 1 = false ∧
      (deadEnd.binding 0).var = (deadEnd.binding 1).var ∧
      deadEnd.canCombine [1, 2, 0] 0 = false := by
  have hboth : deadEnd.canCombine ([0] ++ [2]) 0 = true := by decide +kernel
  have hone : deadEnd.canCombine [0] 0 = true := (combination_law deadEnd 0 [0] [2]).1 hboth
  have hseen : ∀ b ∈ [0], deadEnd.isVisible b 0 = true :=
    (combination_law deadEnd 0 [0] []).2.1 hone
  have hcondition : (deadEnd.node 1).condition = some 3 := by decide
  have hhidden : deadEnd.isVisible 3 1 = false := by decide +kernel
  have hdead : deadEnd.canCombine [2] 1 = false :=
    (combination_law deadEnd 1 [2] []).2.2.1 3 hcondition hhidden
  have hvar : (deadEnd.binding 0).var = (deadEnd.binding 1).var := by decide
  have hconflict : deadEnd.canCombine [1, 2, 0] 0 = false :=
    (combination_law deadEnd 0 [1, 2, 0] []).2.2.2 0 (by simp) 1 (by simp) (by decide) hvar
  exact ⟨hboth, hone, hseen 0 (by simp), hcondition, hhidden, hdead, hvar, hconflict⟩

end ValueTrace.Graph
