import ValueTrace.Proofs.Flow.Frames
import ValueTrace.Proofs.Safety.Layout
import ValueTrace.Proofs.Safety.Programs

/-!
# The frames after a run

A frame that is entered is left again, and a failure in it makes no difference. So no frame is left
behind by what a machine is asked to do.
-/

namespace ValueTrace

open Analysis

variable {α γ : Type} {π : Machine → γ} {x : Analysis α} {m : Machine} {fuel : Nat}

def Analysis.leaves (x : Analysis α) (m : Machine) : Machine :=
  match x m with
  | .ok _ m' | .error _ m' => m'

/-- What a machine is asked to do. -/
inductive Task where
  | program (code : PlacedCode) (provided : Members)
  | preload (code : PlacedCode)

namespace Machine

def perform (fuel : Nat) (m : Machine) : Task → Machine
  | .program code provided => (runProgram fuel code provided).leaves m
  | .preload code => (preload fuel code).leaves m

def performAll (fuel : Nat) (m : Machine) (tasks : List Task) : Machine :=
  tasks.foldl (perform fuel) m

end Machine

namespace Analysis

theorem Spares.leaves_eq (h : Spares π x) (m : Machine) : π (x.leaves m) = π m := by
  have hm := h.eq m
  unfold Analysis.leaves
  cases hx : x m with
  | ok a m' =>
    rw [hx] at hm
    exact hm
  | error e m' =>
    rw [hx] at hm
    exact hm

theorem KeepsFrames.frames_leaves (h : KeepsFrames x) (m : Machine) :
    (x.leaves m).frames = m.frames := congrArg Prod.fst (h.leaves_eq m)

/-- A step in the innermost frame does not touch those below. -/
theorem Leads.tail_leaves {D : Nat → Path → Prop} (h : Leads D x) (m : Machine) :
    (x.leaves m).frames.tail = m.frames.tail := by
  have hm := h.leads m
  unfold Analysis.leaves
  cases hx : x m with
  | ok a m' =>
    rw [hx] at hm
    exact hm.1.tail_eq
  | error e m' =>
    rw [hx] at hm
    exact hm.1.tail_eq

theorem stepWithin_staysInside (fuel : Nat) : (stepWithin fuel).StaysInside :=
  fun i p => (stepWithin_leads fuel i p).weaken fun _ _ _ => trivial

namespace Spares

variable {step : Stepper}

theorem enterModule (code : PlacedCode) : KeepsFrames (enterModule code) := by
  refine bind get fun _ => ?_
  refine bind (enterNode ..) fun _ => ?_
  refine bind (onStore _) fun _ => ?_
  refine bind (literalVar _) fun _ => ?_
  refine bind (newVariable _) fun _ => ?_
  refine bind (paste ..) fun _ => ?_
  refine bind (setStore _) fun _ => ?_
  refine bind (newFrame ..) fun _ => ?_
  exact pure _

theorem runModule (hstep : step.StaysInside) (code : PlacedCode) :
    KeepsFrames (runModule step code) :=
  bind (enterModule code) fun _ => bind (runFrame hstep ..) fun _ => pure _

theorem namesIn (ns : NamespaceId) : Spares π (namesIn ns) := bind get fun _ => pure _

theorem runProgram (fuel : Nat) (code : PlacedCode) (provided : Members) :
    KeepsFrames (runProgram fuel code provided) := by
  refine bind (setStore _) fun _ => ?_
  refine bind (runModule (stepWithin_staysInside fuel) code) fun _ => ?_
  refine bind (namesIn _) fun _ => ?_
  exact pure _

theorem preload (fuel : Nat) (code : PlacedCode) : KeepsFrames (preload fuel code) :=
  bind (runModule (stepWithin_staysInside fuel) code) fun _ =>
    bind (modify fun _ => rfl) fun _ => namesIn _

end Spares

end Analysis

namespace Machine

theorem standing_perform (task : Task) : (m.perform fuel task).standing = m.standing := by
  cases task with
  | program code provided => exact (Spares.runProgram fuel code provided).leaves_eq m
  | preload code => exact (Spares.preload fuel code).leaves_eq m

theorem standing_performAll (tasks : List Task) :
    (m.performAll fuel tasks).standing = m.standing := by
  induction tasks generalizing m with
  | nil => rfl
  | cons task tasks ih => exact ih.trans (standing_perform task)

theorem standing_make {options : Options} (h : make options = .ok m) :
    m.standing = ([], options) := by
  unfold make at h
  obtain ⟨_, -, h⟩ := Except.bind_eq_ok.mp h
  obtain ⟨_, -, h⟩ := Except.bind_eq_ok.mp h
  split at h
  · cases h
    rfl
  · cases h

end Machine

/-- An instruction touches the innermost frame only, and when a frame is left, all frames are as
they were when it was entered, whether there is a result or a failure, and however deep calls are
nested. So a machine has no frames, and room for as many calls as in the beginning, after whatever
it was asked to do, whether that has succeeded or not. -/
theorem frames_restored {options : Options} (hm : Machine.make options = .ok m) :
    (∀ fuel i p m, ((stepWithin fuel i p).leaves m).frames.tail = m.frames.tail) ∧
      (∀ fuel f n m, ((runFrame (stepWithin fuel) f n).leaves m).frames = m.frames) ∧
      ∀ fuel tasks, (m.performAll fuel tasks).frames = [] ∧
        (m.performAll fuel tasks).options = options ∧
        (m.performAll fuel tasks).remainingDepth = options.maxDepth := by
  refine ⟨fun fuel i p => (stepWithin_leads fuel i p).tail_leaves, fun fuel f n =>
    (Spares.runFrame (stepWithin_staysInside fuel) f n).frames_leaves, fun fuel tasks => ?_⟩
  have hstanding : (m.performAll fuel tasks).standing = ([], options) :=
    (Machine.standing_performAll tasks).trans (Machine.standing_make hm)
  have hframes : (m.performAll fuel tasks).frames = [] := congrArg Prod.fst hstanding
  have hoptions : (m.performAll fuel tasks).options = options := congrArg Prod.snd hstanding
  refine ⟨hframes, hoptions, ?_⟩
  unfold Machine.remainingDepth
  rw [hframes, hoptions]
  rfl

/-- The body of a function that takes an operand when there is none. -/
def starvedBody : Code where
  name := "f"
  filename := "m.py"
  firstLine := 1
  argCount := 0
  kwonlyArgCount := 0
  flags := Code.newLocals
  varnames := []
  names := []
  consts := [.none]
  cellvars := []
  freevars := []
  blocks := [{ id := 0, ops := [
    { index := 0, op := .popTop, line := 2 },
    { index := 1, op := .loadConst, arg := some 0, line := 2 },
    { index := 2, op := .returnValue, line := 2 }] }]

/-- A module that calls such a function. -/
def starvedCall : Code where
  name := "<module>"
  filename := "m.py"
  firstLine := 1
  argCount := 0
  kwonlyArgCount := 0
  flags := 0
  varnames := []
  names := []
  consts := [.code starvedBody, .str "f", .none]
  cellvars := []
  freevars := []
  blocks := [{ id := 0, ops := [
    { index := 0, op := .loadConst, arg := some 0, line := 1 },
    { index := 1, op := .loadConst, arg := some 1, line := 1 },
    { index := 2, op := .makeFunction, arg := some 0, line := 1 },
    { index := 3, op := .callFunction, arg := some 0, line := 3 },
    { index := 4, op := .returnValue, line := 3 }] }]

def recent : Options := { major := 3, minor := 6 }

theorem analyzeWithin_starvedCall :
    analyzeWithin 1 starvedCall recent = .error (.stackUnderflow (some .popTop) 1 0) := by
  unfold analyzeWithin analyzeWith Machine.make
  rw [Library.builtins_eq]
  decide +kernel

/-- The program fails in the second frame, and none is left. -/
theorem starvedCall_restored : ∃ m m', Machine.make recent = .ok m ∧
    runProgram 1 ⟨[0], starvedCall⟩ ∅ m = .error (.stackUnderflow (some .popTop) 1 0) m' ∧
      m'.frames = [] ∧ m'.remainingDepth = 40 := by
  obtain ⟨m, hm⟩ : ∃ m, Machine.make recent = .ok m := by
    unfold Machine.make
    rw [Library.builtins_eq]
    exact ⟨_, rfl⟩
  have hfails := analyzeWithin_starvedCall
  unfold analyzeWithin at hfails
  cases hrun : runProgram 1 ⟨[0], starvedCall⟩ ∅ m with
  | ok o m' => cases (analyzeWith_of_ok hm hrun).symm.trans hfails
  | error e m' =>
    cases (analyzeWith_of_error hm hrun).symm.trans hfails
    have hleft : m.performAll 1 [.program ⟨[0], starvedCall⟩ ∅] = m' := by
      simp only [Machine.performAll, List.foldl_cons, List.foldl_nil, Machine.perform,
        Analysis.leaves, hrun]
    obtain ⟨hframes, -, hdepth⟩ := (frames_restored hm).2.2 1 [.program ⟨[0], starvedCall⟩ ∅]
    rw [hleft] at hframes hdepth
    exact ⟨m, m', hm, hrun, hframes, hdepth⟩

end ValueTrace
