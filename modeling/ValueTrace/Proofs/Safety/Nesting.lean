import ValueTrace.Proofs.Safety.Faults

/-!
# Nested calls

A call leads to further calls on two ways. What runs inside of a function may call, but there the
machine counts the frames and looks whether the code is being run already. And a value may lead to
another one directly: an object to its class, a class to its initialiser, a method to its function,
and the body of a class to what it calls. Only this way can go on without an end.
-/

namespace ValueTrace

namespace Analysis

/-- Call a value with a bound on the values that it may lead to directly, one after the other, given
a way to call from inside of a function. -/
def callLinked (inside : Caller) : Nat → ValueCaller
  | 0 => fun _ _ _ _ => ExceptT.lift (throw .outOfFuel)
  | links + 1 => callOnce step (callLinked inside links) inside

/-- Call what is in a variable with a bound on the depth of functions. Between two of them there is
a bound on direct calls. -/
def callNested (links : Nat) : Nat → Caller
  | 0 => fun _ _ _ => ExceptT.lift (throw .outOfFuel)
  | depth + 1 => callEach (callLinked (callNested links depth) links)

end Analysis

open Analysis

variable {S : Setting}

/-- A bound on the depth of all calls bounds the direct ones. Functions have as much room as the
machine gives them. -/
theorem callValue_agree_callLinked {fuel links k depth : Nat} (hk : fuel ≤ k)
    (hlinks : fuel ≤ links)
    (hdepth : S.options.maxDepth + 2 ≤ depth + S.frames.length) :
    ValueCaller.Agree S (callValue step fuel) (callLinked (callNested links depth) k) := by
  induction fuel generalizing S k depth with
  | zero => exact fun _ _ _ _ => .outOfFuel
  | succ fuel ih =>
    obtain ⟨k, rfl⟩ : ∃ j, k = j + 1 := ⟨k - 1, by omega⟩
    refine Attempt.Agree.callOnce (ih (by omega) (by omega) hdepth) (fun s hs => ?_)
      fun hroom s hs => ?_
    · refine ih (by omega) (by omega) ?_
      simp only [Setting.push, List.length_cons]
      omega
    · obtain ⟨depth, rfl⟩ : ∃ d, depth = d + 1 := ⟨depth - 1, by omega⟩
      refine Attempt.Agree.callEach (ih (by omega) (by omega) ?_)
      simp only [Setting.push, List.length_cons]
      omega

/-- Bounds on the depth of functions and on direct calls bound the depth of all calls. -/
theorem callLinked_agree_callValue {fuel links k depth : Nat} (hk : k ≤ links)
    (hfuel : depth * (links + 1) + k ≤ fuel) :
    ValueCaller.Agree S (callLinked (callNested links depth) k) (callValue step fuel) := by
  induction depth generalizing S k fuel with
  | zero =>
    induction k generalizing S fuel with
    | zero => exact fun _ _ _ _ => .outOfFuel
    | succ k ih =>
      obtain ⟨fuel, rfl⟩ : ∃ j, fuel = j + 1 := ⟨fuel - 1, by omega⟩
      exact Attempt.Agree.callOnce (ih (by omega) (by omega)) (fun s hs => ih (by omega) (by omega))
        fun _ _ _ _ _ _ => .outOfFuel
  | succ depth ihdepth =>
    induction k generalizing S fuel with
    | zero => exact fun _ _ _ _ => .outOfFuel
    | succ k ih =>
      obtain ⟨fuel, rfl⟩ : ∃ j, fuel = j + 1 := ⟨fuel - 1, by omega⟩
      refine Attempt.Agree.callOnce (ih (by omega) (by omega))
        (fun s hs => ih (by omega) (by omega)) fun _ s hs => ?_
      refine Attempt.Agree.callEach (ihdepth le_rfl ?_)
      rw [Nat.succ_mul] at hfuel
      omega

/-- An analysis ends with a result exactly if it does with some bound on direct calls. The functions
that the machine enters take no more room than it gives them. -/
theorem analyzeWithin_iff_links {code : Code} {options : Options} {r : Except Failure Report}
    (hcode : code.validate = .ok ()) (hr : r ≠ .error .outOfFuel) :
    (∃ fuel, analyzeWithin fuel code options = r) ↔
      ∃ links, analyzeWith (step (callNested links (options.maxDepth + 2))) code options = r := by
  cases hm : Machine.make options with
  | error e =>
    have heq (step : Stepper) : analyzeWith step code options = .error e := by
      unfold analyzeWith
      rw [hm]
      rfl
    simp only [analyzeWithin, heq, exists_const]
  | ok m =>
    constructor
    · rintro ⟨fuel, rfl⟩
      have hstep (S : Setting) (hoptions : S.options = options) (hframes : S.frames = [])
          (s : Shape) (hs : s.Valid) : (stepWithin fuel).Agree (S.push s hs) s.code.code
            (step (callNested fuel (options.maxDepth + 2))) :=
        .stepper (.callEach (callValue_agree_callLinked le_rfl le_rfl (by
          simp [Setting.push, hframes, hoptions])))
      rcases analyzeWith_agree hcode hm hstep with hout | ⟨heq, -⟩
      · exact absurd hout hr
      · exact ⟨fuel, heq⟩
    · rintro ⟨links, rfl⟩
      have hroom : (options.maxDepth + 2) * (links + 1) =
          (options.maxDepth + 1) * (links + 1) + (links + 1) := Nat.succ_mul _ _
      have hstep (S : Setting) (_ : S.options = options) (_ : S.frames = []) (s : Shape)
          (hs : s.Valid) : Stepper.Agree (S.push s hs) s.code.code
            (step (callNested links (options.maxDepth + 2)))
            (stepWithin ((options.maxDepth + 2) * (links + 1))) :=
        .stepper (.callEach (callLinked_agree_callValue le_rfl (by omega)))
      rcases analyzeWith_agree hcode hm hstep with hout | ⟨heq, -⟩
      · exact absurd hout hr
      · exact ⟨_, heq⟩

/-- The call of the function is within some bound on direct calls. -/
theorem starvedCall_links : starvedCall.validate = .ok () ∧
    ∃ links, analyzeWith (step (callNested links 42)) starvedCall recent =
      .error (.stackUnderflow (some .popTop) 1 0) := by
  have hiff : (∃ fuel, analyzeWithin fuel starvedCall recent =
      .error (.stackUnderflow (some .popTop) 1 0)) ↔ _ := analyzeWithin_iff_links (by decide) (by decide)
  exact ⟨by decide, hiff.mp ⟨1, analyzeWithin_starvedCall⟩⟩

end ValueTrace
