import ValueTrace.Program
import ValueTrace.Proofs.Safety.Routes

/-!
# Whole programs

Programs agree if the code of their modules does. In particular, more room for nested calls makes no
difference to a run that did not need it.
-/

namespace ValueTrace

/-- A machine that has not run anything fits a setting without frames. -/
theorem Machine.fits_make {options : Options} {m : Machine} (h : Machine.make options = .ok m) :
    ∃ S : Setting, S.options = options ∧ S.frames = [] ∧ S.Fits m := by
  unfold make at h
  obtain ⟨_, -, h⟩ := Except.bind_eq_ok.mp h
  obtain ⟨l, hl, h⟩ := Except.bind_eq_ok.mp h
  have hbuiltins : Library.builtins = .ok l := by
    cases hb : Library.builtins with
    | ok l' =>
      rw [hb] at hl
      cases hl
      rfl
    | error e =>
      rw [hb] at hl
      cases hl
  obtain ⟨rank, hcomplete⟩ := Library.builtins_complete hbuiltins
  split at h
  · cases h
    refine ⟨⟨options, l, rank, [], hcomplete, by simp⟩, rfl, rfl, rfl, rfl, rfl, by simp,
      fun d => ?_, fun hd => ?_⟩
    · cases d with
      | marker => trivial
      | value i =>
        cases i with
        | zero => trivial
        | succ i => trivial
    · simp at hd
  · cases h

namespace Analysis

variable {S : Setting} {call call' : Caller} {step step' : Stepper} {code : PlacedCode}

namespace Agree

theorem enterModule (hcode : code.code.validate = .ok ()) :
    Safe S (enterModule code) fun r => r.1.code = code ∧ r.1.shape.Valid ∧ r.1.Waits := by
  refine bind get fun _ _ => ?_
  refine bind (enterNode _) fun _ _ => ?_
  refine bind newNamespace fun _ _ => ?_
  refine bind (literalVar rfl) fun _ _ => ?_
  refine bind (newVariable _) fun _ _ => ?_
  refine bind (paste ..) fun _ _ => ?_
  refine bind (setNamespaces fun _ => rfl) fun _ _ => ?_
  refine bind (newFrame hcode ..) fun _ hf => ?_
  exact pure hf

theorem runModule (hcode : code.code.validate = .ok ())
    (hstep : ∀ (s : Shape) (hs : s.Valid), Stepper.Agree (S.push s hs) s.code.code step step') :
    Agree S (runModule step code) (runModule step' code) fun _ => True :=
  bind (enterModule hcode) fun _ hf =>
    bind (runFrame hf.2.1 hf.2.2 (hstep _ hf.2.1) _) fun _ _ => pure trivial

theorem runProgramWith (hcode : code.code.validate = .ok ())
    (hstep : ∀ (s : Shape) (hs : s.Valid), Stepper.Agree (S.push s hs) s.code.code step step')
    (provided : Members) :
    Agree S (runProgramWith step code provided) (runProgramWith step' code provided)
      fun _ => True := by
  refine bind (setNamespaces fun _ => rfl) fun _ _ => ?_
  refine bind (runModule hcode hstep) fun _ _ => ?_
  refine bind (bind get fun _ _ => pure (Q := fun _ => True) trivial) fun _ _ => ?_
  exact pure trivial

end Agree

end Analysis

section

variable {m m' : Machine} {step : Analysis.Stepper} {code : Code} {options : Options}

theorem analyzeWith_of_make_error {e : Failure} (hm : Machine.make options = .error e) :
    analyzeWith step code options = .error e := by
  unfold analyzeWith
  rw [hm]
  rfl

theorem analyzeWith_of_ok {o : Outcome} (hm : Machine.make options = .ok m)
    (h : Analysis.runProgramWith step ⟨[0], code⟩ ∅ m = .ok o m') :
    analyzeWith step code options = .ok (m'.report o) := by
  unfold analyzeWith
  rw [hm]
  dsimp only [bind, Except.bind]
  rw [h]
  rfl

theorem analyzeWith_of_error {e : Failure} (hm : Machine.make options = .ok m)
    (h : Analysis.runProgramWith step ⟨[0], code⟩ ∅ m = .error e m') :
    analyzeWith step code options = .error e := by
  unfold analyzeWith
  rw [hm]
  dsimp only [bind, Except.bind]
  rw [h]
  rfl

end

/-- What is known of two ways to run the instructions of a program. -/
theorem analyzeWith_agree {m : Machine} {step step' : Analysis.Stepper} {code : Code}
    {options : Options} (hcode : code.validate = .ok ()) (hm : Machine.make options = .ok m)
    (hstep : ∀ S : Setting, S.options = options → S.frames = [] → ∀ (s : Shape) (hs : s.Valid),
      Analysis.Stepper.Agree (S.push s hs) s.code.code step step') :
    analyzeWith step code options = .error .outOfFuel ∨
      analyzeWith step' code options = analyzeWith step code options ∧
        ∀ e, analyzeWith step code options = .error e → e.IsExpected := by
  obtain ⟨S, hoptions, hframes, hfits⟩ := Machine.fits_make hm
  have hagree : Analysis.Agree S (Analysis.runProgramWith step ⟨[0], code⟩ ∅)
      (Analysis.runProgramWith step' ⟨[0], code⟩ ∅) _ :=
    .runProgramWith hcode (hstep S hoptions hframes) ∅
  rcases hagree.agrees m hfits with ⟨m', hx⟩ | ⟨hxy, hx⟩
  · exact .inl (analyzeWith_of_error hm hx)
  · cases hr : Analysis.runProgramWith step ⟨[0], code⟩ ∅ m with
    | ok o m' =>
      rw [analyzeWith_of_ok hm hr, analyzeWith_of_ok hm (hxy.trans hr)]
      exact .inr ⟨rfl, fun e he => by cases he⟩
    | error e m' =>
      rw [analyzeWith_of_error hm hr, analyzeWith_of_error hm (hxy.trans hr)]
      rw [hr] at hx
      refine .inr ⟨rfl, fun e' he => ?_⟩
      cases he
      exact hx

end ValueTrace
