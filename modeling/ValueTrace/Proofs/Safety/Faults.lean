import ValueTrace.Proofs.Flow.Restoring
import ValueTrace.Proofs.Safety.SelfCalls

/-!
# How an analysis can fail

Code that has passed its check leads to few failures: the graph outgrows its limit, an operand is
missing, two states do not match, or a comparison has no meaning. Nothing is looked up in vain.
-/

namespace ValueTrace

open Analysis

/-- More room for nested calls makes no difference to a call that did not need it, and nothing
unexpected happens in it. -/
theorem callValue_agree {S : Setting} {fuel fuel' : Nat} (h : fuel ≤ fuel') :
    ValueCaller.Agree S (callValue step fuel) (callValue step fuel') := by
  induction fuel generalizing S fuel' with
  | zero => exact fun _ _ _ _ => .outOfFuel
  | succ fuel ih =>
    obtain ⟨fuel', rfl⟩ : ∃ k, fuel' = k + 1 := ⟨fuel' - 1, by omega⟩
    have hle : fuel ≤ fuel' := by omega
    exact Attempt.Agree.callOnce (ih hle) (fun _ _ => ih hle) fun _ _ _ => .callEach (ih hle)

/-- The failures of a machine that is made with valid options. -/
theorem Machine.make_error {options : Options} {e : Failure} (hoptions : options.validate = .ok ())
    (h : Machine.make options = .error e) : e.IsExpected := by
  unfold make at h
  rw [hoptions, Library.builtins_eq] at h
  simp only [Except.mapError, Bind.bind, Except.bind] at h
  split at h
  · cases h
  · cases h
    trivial

/-- Code that has passed its check does not lead to unexpected failures, whatever else it runs. -/
theorem analyzeWithin_error {code : Code} {options : Options} {fuel : Nat} {e : Failure}
    (hcode : code.validate = .ok ()) (hoptions : options.validate = .ok ())
    (h : analyzeWithin fuel code options = .error e) (hfuel : e ≠ .outOfFuel) : e.IsExpected := by
  cases hm : Machine.make options with
  | error e' =>
    have heq : analyzeWithin fuel code options = .error e' := by
      unfold analyzeWithin analyzeWith
      rw [hm]
      rfl
    cases h.symm.trans heq
    exact Machine.make_error hoptions hm
  | ok m =>
    have hstep (S : Setting) (_ : S.options = options) (_ : S.frames = []) (s : Shape)
        (hs : s.Valid) :
        (stepWithin fuel).Agree (S.push s hs) s.code.code (stepWithin fuel) :=
      .stepper (.callEach (callValue_agree le_rfl))
    rcases analyzeWith_agree hcode hm hstep with hout | ⟨-, herror⟩
    · cases h.symm.trans hout
      exact absurd rfl hfuel
    · exact herror e h

/-- The function that is called fails, and as it may. -/
theorem starvedCall_error : starvedCall.validate = .ok () ∧ recent.validate = .ok () ∧
    ∃ e, analyzeWithin 1 starvedCall recent = .error e ∧ e.IsExpected :=
  ⟨by decide, by decide, _, analyzeWithin_starvedCall,
    analyzeWithin_error (by decide) (by decide) analyzeWithin_starvedCall (by decide)⟩

end ValueTrace
