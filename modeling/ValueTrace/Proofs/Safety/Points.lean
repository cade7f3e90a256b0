import ValueTrace.Proofs.Safety.Faults

/-!
# The points of a run

A point of a run is where an instruction is about to be run. It shows the machine as it is there,
and also what each frame has been entered for, which the machine does not keep. Something holds at
every point if the runs come out the same when each instruction is run only where it holds.
-/

namespace ValueTrace

/-- What a frame has been entered for. -/
inductive Entry where
  | module
  | function
  | classBody
  deriving DecidableEq, Repr

/-- A point of a run. -/
structure Point where
  /-- What the frames have been entered for, the innermost first. -/
  entries : List Entry
  instruction : Instruction
  path : Path
  machine : Machine

namespace Analysis

/-- Call a value with a bound on the depth of calls. How instructions are run may depend on what the
frames have been entered for. -/
def callTracked (step : List Entry → Caller → Stepper) : Nat → List Entry → ValueCaller
  | 0, _ => fun _ _ _ _ => ExceptT.lift (throw .outOfFuel)
  | fuel + 1, es =>
    callVia (step (.function :: es) (callEach (callTracked step fuel (.function :: es))))
      (step (.classBody :: es) (callEach (callTracked step fuel (.classBody :: es))))
      (callTracked step fuel es)

def stepTracked (step : List Entry → Caller → Stepper) (fuel : Nat) : Stepper :=
  step [.module] (callEach (callTracked step fuel [.module]))

theorem callTracked_const (step : Caller → Stepper) (fuel : Nat) (es : List Entry) :
    callTracked (fun _ => step) fuel es = callValue step fuel := by
  induction fuel generalizing es with
  | zero => rfl
  | succ fuel ih =>
    unfold callTracked
    rw [ih, ih, ih, callValue_succ, callOnce_eq_callVia]

theorem stepTracked_const (fuel : Nat) : stepTracked (fun _ => step) fuel = stepWithin fuel := by
  unfold stepTracked stepWithin
  rw [callTracked_const]

def strayPoint : Failure := .internal "the point is not as expected"

/-- Run an instruction only where something holds. -/
def checked (P : Point → Prop) [DecidablePred P] (es : List Entry) (call : Caller) : Stepper :=
  fun i p m =>
    if P ⟨es, i, p, m⟩ then step call i p m else .error strayPoint m

end Analysis

open Analysis

/-- What holds at every point of every run of a program: no run tells whether it is looked for,
however much room there is for nested calls. -/
def Always (P : Point → Prop) [DecidablePred P] (code : Code) (options : Options) : Prop :=
  ∀ fuel, analyzeWith (stepTracked (checked P) fuel) code options = analyzeWithin fuel code options

/-- How the frames of these codes may have been entered. A function waits for room, and for the end
of the run of its own code. The body of a class does not. -/
inductive Entered (limit : Nat) : List Entry → List (List Nat) → Prop where
  | module (place : List Nat) : Entered limit [.module] [place]
  | function {es : List Entry} {places : List (List Nat)} {place : List Nat}
      (behind : Entered limit es places) (room : places.length ≤ limit) (idle : place ∉ places) :
      Entered limit (.function :: es) (place :: places)
  | classBody {es : List Entry} {places : List (List Nat)} (behind : Entered limit es places)
      (place : List Nat) : Entered limit (.classBody :: es) (place :: places)

def Setting.places (S : Setting) : List (List Nat) := S.frames.map (·.code.place)

namespace Analysis

variable {S : Setting} {es : List Entry} {step step' : List Entry → Caller → Stepper}

/-- Two ways to run instructions agree wherever a run can get. -/
def AgreeWhereEntered (options : Options) (step step' : List Entry → Caller → Stepper) : Prop :=
  ∀ (S : Setting) (es : List Entry) (s : Shape) (hs : s.Valid) (call call' : Caller),
    S.options = options → Entered options.maxDepth es (S.push s hs).places →
    Caller.Agree (S.push s hs) call call' →
    Stepper.Agree (S.push s hs) s.code.code (step es call) (step' es call')

theorem callTracked_agree {options : Options} (hstep : AgreeWhereEntered options step step')
    (hoptions : S.options = options) (hes : Entered options.maxDepth es S.places) (fuel : Nat) :
    ValueCaller.Agree S (callTracked step fuel es) (callTracked step' fuel es) := by
  induction fuel generalizing S es with
  | zero => exact fun _ _ _ _ => .outOfFuel
  | succ fuel ih =>
    refine Attempt.Agree.callVia (ih hoptions hes) (fun hroom s hs hidle => ?_) fun s hs => ?_
    · have hentered : Entered options.maxDepth (.function :: es) (S.push s hs).places := by
        refine .function hes ?_ fun hmem => ?_
        · simpa [Setting.places, hoptions] using hroom
        · obtain ⟨t, ht, heq⟩ := List.mem_map.mp hmem
          exact hidle t ht heq
      exact hstep S _ s hs _ _ hoptions hentered (.callEach (ih hoptions hentered))
    · have hentered : Entered options.maxDepth (.classBody :: es) (S.push s hs).places :=
        .classBody hes _
      exact hstep S _ s hs _ _ hoptions hentered (.callEach (ih hoptions hentered))

/-- Programs agree if the instructions do wherever a run can get. -/
theorem analyzeWith_agree_stepTracked {m : Machine} {code : Code} {options : Options}
    (hcode : code.validate = .ok ()) (hm : Machine.make options = .ok m)
    (hstep : AgreeWhereEntered options step step') (fuel : Nat) :
    analyzeWith (stepTracked step fuel) code options = .error .outOfFuel ∨
      analyzeWith (stepTracked step' fuel) code options =
          analyzeWith (stepTracked step fuel) code options ∧
        ∀ e, analyzeWith (stepTracked step fuel) code options = .error e → e.IsExpected := by
  have hmodule (S : Setting) (hoptions : S.options = options) (hframes : S.frames = []) (s : Shape)
      (hs : s.Valid) : Stepper.Agree (S.push s hs) s.code.code (stepTracked step fuel)
        (stepTracked step' fuel) := by
    have hentered : Entered options.maxDepth [.module] (S.push s hs).places := by
      simpa [Setting.places, Setting.push, hframes] using .module s.code.place
    exact hstep S _ s hs _ _ hoptions hentered
      (.callEach (callTracked_agree (S := S.push s hs) hstep hoptions hentered fuel))
  exact analyzeWith_agree hcode hm hmodule

/-- Instructions are run as they are wherever a run can get. -/
def PlainWhereEntered (options : Options) (step : List Entry → Caller → Stepper) : Prop :=
  ∀ (S : Setting) (es : List Entry) (call : Caller) (i : Instruction) (p : Path) (m : Machine),
    S.options = options → Entered options.maxDepth es S.places → S.Fits m →
    step es call i p m = Analysis.step call i p m

theorem PlainWhereEntered.agree {options : Options} (h : PlainWhereEntered options step)
    (h' : PlainWhereEntered options step') : AgreeWhereEntered options step step' := by
  intro S es s hs call call' hoptions hentered hcall i p hi hp
  refine ⟨fun m hm => ?_⟩
  rw [h (S.push s hs) es call i p m hoptions hentered hm,
    h' (S.push s hs) es call' i p m hoptions hentered hm]
  exact (Agree.step hcall rfl hi hp).agrees m hm

theorem plainWhereEntered_step (options : Options) :
    PlainWhereEntered options fun _ => Analysis.step := fun _ _ _ _ _ _ _ _ _ => rfl

/-- What holds wherever the machine fits its frames holds at every point. -/
theorem always_of_fits {P : Point → Prop} [DecidablePred P] {code : Code} {options : Options}
    (hcode : code.validate = .ok ())
    (hP : ∀ (S : Setting) (es : List Entry) (i : Instruction) (p : Path) (m : Machine),
      S.options = options → Entered options.maxDepth es S.places → S.Fits m → P ⟨es, i, p, m⟩) :
    Always P code options := by
  intro fuel
  rw [analyzeWithin, ← stepTracked_const]
  cases hm : Machine.make options with
  | error e => rw [analyzeWith_of_make_error hm, analyzeWith_of_make_error hm]
  | ok m =>
    have hchecked : PlainWhereEntered options (checked P) := by
      intro S es call i p m hoptions hentered hfits
      exact if_pos (hP S es i p m hoptions hentered hfits)
    -- Either run may be the one that is out of fuel, so both orders are compared.
    rcases analyzeWith_agree_stepTracked hcode hm ((plainWhereEntered_step _).agree hchecked)
      fuel with hout | ⟨heq, -⟩
    · rcases analyzeWith_agree_stepTracked hcode hm (hchecked.agree (plainWhereEntered_step _))
        fuel with hout' | ⟨heq, -⟩
      · exact hout'.trans hout.symm
      · exact heq.symm
    · exact heq

/-- A run that looks for nothing does not miss anything. -/
theorem analyzeWithin_ne_strayPoint {m : Machine} {code : Code} {options : Options}
    (hcode : code.validate = .ok ()) (hm : Machine.make options = .ok m) (fuel : Nat) :
    analyzeWithin fuel code options ≠ .error strayPoint := by
  intro hrun
  have hplain := plainWhereEntered_step options
  rw [analyzeWithin, ← stepTracked_const] at hrun
  rcases analyzeWith_agree_stepTracked hcode hm (hplain.agree hplain) fuel with hout | ⟨-, herror⟩
  · cases hout.symm.trans hrun
  · exact herror _ hrun

/-- What a run misses where it looks for it does not hold at every point. -/
theorem not_always {P : Point → Prop} [DecidablePred P] {code : Code} {options : Options}
    {fuel : Nat} (hcode : code.validate = .ok ())
    (hoptions : options.validate = .ok ())
    (h : analyzeWith (stepTracked (checked P) fuel) code options = .error strayPoint) :
    ¬ Always P code options := by
  intro hall
  cases hm : Machine.make options with
  | error e =>
    cases (analyzeWith_of_make_error hm).symm.trans h
    exact Machine.make_error hoptions hm
  | ok m => exact analyzeWithin_ne_strayPoint hcode hm fuel ((hall fuel).symm.trans h)

end Analysis

end ValueTrace
