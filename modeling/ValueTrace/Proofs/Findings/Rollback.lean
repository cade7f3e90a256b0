import ValueTrace.Proofs.Success
import ValueTrace.Proofs.Visibility.Locality
import ValueTrace.Step.Instruction

/-!
# Subscripts take nothing back

A subscript would take back what was reported on the way if its result were not bound. But the result
of an operator always is: operands that do not support it give a new variable that is bound to what the
analysis has given up on. So a subscript is an operator like the others.
-/

namespace ValueTrace.Analysis

variable {m m' : Machine} {call : Caller} {n : NodeId} {obj arg x y v : VarId} {method : String}
  {done : NodeId × VarId}

/-- A method that answers has a result that is bound. -/
theorem tryMethod_bound (h : tryMethod call n obj method arg m = .ok (some done) m') :
    m'.graph.allBindings done.2 ≠ [] := by
  unfold tryMethod at h
  obtain ⟨o, m₁, -, h⟩ := bind_ok.mp h
  cases o with
  | none =>
    obtain ⟨hnone, -⟩ := pure_ok.mp h
    cases hnone
  | some attr =>
    obtain ⟨⟨stop, result⟩, m₂, -, h⟩ := bind_ok.mp h
    obtain ⟨bound, m₃, hrun, h⟩ := bind_ok.mp h
    obtain ⟨hbound, rfl⟩ : (!(m₂.graph.allBindings result).isEmpty) = bound ∧ m₂ = m₃ :=
      pure_ok.mp hrun
    obtain ⟨hsome, rfl⟩ := pure_ok.mp h
    rw [← hbound] at hsome
    split_ifs at hsome with hresult
    obtain rfl := Option.some.inj hsome
    simpa using hresult

theorem tryOperator_bound (h : tryOperator call n method x y m = .ok (some done) m') :
    m'.graph.allBindings done.2 ≠ [] := by
  unfold tryOperator at h
  obtain ⟨o, m₁, htry, h⟩ := bind_ok.mp h
  cases o with
  | some first =>
    obtain ⟨hfirst, rfl⟩ := pure_ok.mp h
    obtain rfl := Option.some.inj hfirst
    exact tryMethod_bound htry
  | none =>
    obtain ⟨m₂, _, -, h⟩ := bind_ok.mp h
    split at h
    · obtain ⟨hnone, -⟩ := pure_ok.mp h
      cases hnone
    · cases hreflected : reflected? method with
      | none =>
        rw [hreflected] at h
        obtain ⟨hnone, -⟩ := pure_ok.mp h
        cases hnone
      | some _ =>
        rw [hreflected] at h
        exact tryMethod_bound h

/-- What the analysis gives up on is bound. -/
theorem newUnsolvable_bound (h : newUnsolvable n m = .ok v m') : m'.graph.allBindings v ≠ [] := by
  let g := (m.graph.newVariable "unsolvable").2
  have hnone : g.bindingTo? m.graph.vars.size Machine.unsolvable = none := by
    rw [Graph.bindingTo?_newVariable]
    exact Graph.bindingTo?_eq_none (Nat.le_refl _) _
  obtain ⟨g', hadd, -, -, -, -, hlist, -⟩ := Graph.addBinding_new Machine.unsolvable [] n hnone
  obtain ⟨rfl, rfl⟩ := EStateM.Result.ok.inj h
  change (g.addBinding m.graph.vars.size Machine.unsolvable [] n).2.allBindings _ ≠ []
  rw [hadd]
  change g'.allBindings m.graph.vars.size ≠ []
  rw [hlist, if_pos ⟨rfl, by simp [g, Graph.newVariable]⟩]
  simp

/-- Whether the operands support the operator or not, its result is bound. -/
theorem applyOperator_bound (h : applyOperator call n method x y m = .ok done m') :
    m'.graph.allBindings done.2 ≠ [] := by
  have hgivesUp {m : Machine} (h : (do return (n, ← newUnsolvable n)) m = .ok done m') :
      m'.graph.allBindings done.2 ≠ [] := by
    obtain ⟨v, m₁, hnew, h⟩ := bind_ok.mp h
    obtain ⟨rfl, rfl⟩ := pure_ok.mp h
    exact newUnsolvable_bound hnew
  unfold applyOperator at h
  obtain ⟨o, m₁, htry, h⟩ := bind_ok.mp h
  cases o with
  | some first =>
    obtain ⟨rfl, rfl⟩ := pure_ok.mp h
    exact tryOperator_bound htry
  | none =>
    obtain ⟨_, m₂, -, h⟩ := bind_ok.mp h
    obtain ⟨_, m₃, -, h⟩ := bind_ok.mp h
    split at h
    · exact hgivesUp h
    · obtain ⟨_, m₄, -, h⟩ := bind_ok.mp h
      obtain ⟨_, m₅, -, h⟩ := bind_ok.mp h
      obtain ⟨_, m₆, -, h⟩ := bind_ok.mp h
      exact hgivesUp h

/-- On no machine does a subscript take anything back. -/
theorem subscript_eq (call : Caller) (p : Path) :
    subscript call p = binaryOperator call "__getitem__" p := by
  funext m
  cases hpop : (liftM p.popTwo : Analysis _) m with
  | error e m₁ => exact (bind_eq_of_error hpop).trans (bind_eq_of_error hpop).symm
  | ok operands m₁ =>
    obtain ⟨x, y, q⟩ := operands
    refine (bind_eq_of_ok hpop).trans (Eq.trans ?_ (bind_eq_of_ok hpop).symm)
    have hmark : (get : Analysis _) m₁ = .ok m₁ m₁ := rfl
    refine (bind_eq_of_ok hmark).trans ?_
    cases happly : applyOperator call q.node "__getitem__" x y m₁ with
    | error e m₂ => exact (bind_eq_of_error happly).trans (bind_eq_of_error happly).symm
    | ok done m₂ =>
      have hbound : isBound done.2 m₂ = .ok true m₂ :=
        pure_ok.mpr ⟨by simpa using applyOperator_bound happly, rfl⟩
      refine (bind_eq_of_ok happly).trans (Eq.trans ?_ (bind_eq_of_ok happly).symm)
      exact bind_eq_of_ok hbound

theorem step_binarySubscr {i : Instruction} (hop : i.op = .binarySubscr) (call : Caller) (p : Path) :
    step call i p = binaryOperator call "__getitem__" p := by
  rw [← subscript_eq]
  unfold step
  rw [hop]

end ValueTrace.Analysis
