import ValueTrace.Proofs.Safety.Points

/-!
# The limits of the frames

There are two limits: on the number of frames, and that no code is run by two of them. A function is
not entered beyond them. The body of a class is entered in any case, so the limits hold where the
frames of such bodies keep them by themselves.
-/

namespace ValueTrace

def Machine.Disciplined (limit : Nat) (m : Machine) : Prop :=
  m.frames.length ≤ limit + 1 ∧ (m.frames.map (·.code.place)).Nodup

/-- Each of the codes that has been entered for something has found the limits kept: there was room
for it, and it was not being run. -/
def KeptFor (limit : Nat) (e : Entry) : List Entry → List (List Nat) → Prop
  | e' :: es, place :: places =>
    (e' = e → places.length ≤ limit ∧ place ∉ places) ∧ KeptFor limit e es places
  | _, _ => True

/-- Each of the frames that has been entered for something has found the limits kept. -/
def Point.KeptFor (limit : Nat) (e : Entry) (pt : Point) : Prop :=
  ValueTrace.KeptFor limit e pt.entries (pt.machine.frames.map (·.code.place))

instance (limit : Nat) (m : Machine) : Decidable (m.Disciplined limit) :=
  inferInstanceAs (Decidable (_ ∧ _))

instance KeptFor.decide (limit : Nat) (e : Entry) :
    (es : List Entry) → (places : List (List Nat)) → Decidable (KeptFor limit e es places)
  | [], _ => .isTrue trivial
  | _ :: _, [] => .isTrue trivial
  | _ :: es, _ :: places =>
    have := KeptFor.decide limit e es places
    inferInstanceAs (Decidable (_ ∧ _))

instance (limit : Nat) (e : Entry) (pt : Point) : Decidable (pt.KeptFor limit e) :=
  inferInstanceAs (Decidable (ValueTrace.KeptFor ..))

namespace Entered

variable {limit : Nat} {es : List Entry} {places : List (List Nat)}

theorem length_eq (h : Entered limit es places) : es.length = places.length := by
  induction h with
  | module => rfl
  | function _ _ _ ih => simpa using ih
  | classBody _ _ ih => simpa using ih

theorem keptFor_function (h : Entered limit es places) : KeptFor limit .function es places := by
  induction h with
  | module => exact ⟨nofun, trivial⟩
  | function _ room idle ih => exact ⟨fun _ => ⟨room, idle⟩, ih⟩
  | classBody _ _ ih => exact ⟨nofun, ih⟩

/-- Only the body of a class can break the limits. -/
theorem keptFor_classBody_iff (h : Entered limit es places) :
    KeptFor limit .classBody es places ↔ places.length ≤ limit + 1 ∧ places.Nodup := by
  induction h with
  | module place => exact iff_of_true ⟨nofun, trivial⟩ ⟨by simp, by simp⟩
  | @function es places place _ room idle ih =>
    rw [KeptFor, ih, List.nodup_cons, List.length_cons]
    constructor
    · rintro ⟨-, -, hnodup⟩
      exact ⟨by omega, idle, hnodup⟩
    · rintro ⟨-, -, hnodup⟩
      exact ⟨nofun, by omega, hnodup⟩
  | @classBody es places _ place ih =>
    rw [KeptFor, ih, List.nodup_cons, List.length_cons]
    constructor
    · rintro ⟨hkept, -, hnodup⟩
      obtain ⟨hroom, hidle⟩ := hkept rfl
      exact ⟨by omega, hidle, hnodup⟩
    · rintro ⟨hroom, hidle, hnodup⟩
      exact ⟨fun _ => ⟨by omega, hidle⟩, by omega, hnodup⟩

end Entered

open Analysis

/-- At every point each function has found the limits kept. The frames keep to them exactly if each
body of a class has found them kept as well. -/
theorem frames_disciplined_iff {code : Code} {options : Options} (hcode : code.validate = .ok ()) :
    Always (fun pt => pt.entries.length = pt.machine.frames.length ∧
      pt.KeptFor options.maxDepth .function ∧
      (pt.machine.Disciplined options.maxDepth ↔ pt.KeptFor options.maxDepth .classBody))
      code options := by
  refine always_of_fits hcode fun S es i p m _ hentered hfits => ?_
  have hplaces : m.frames.map (·.code.place) = S.places := by
    unfold Setting.places
    rw [← hfits.frames_eq, List.map_map]
    rfl
  have hlength : m.frames.length = S.places.length := by rw [← hplaces, List.length_map]
  unfold Machine.Disciplined Point.KeptFor
  dsimp only
  rw [hplaces, hlength]
  exact ⟨hentered.length_eq, hentered.keptFor_function, hentered.keptFor_classBody_iff.symm⟩

/-- `x = undefined_name`. -/
def bareClassBody : Code where
  name := "A"
  filename := "m.py"
  firstLine := 2
  argCount := 0
  kwonlyArgCount := 0
  flags := 0
  varnames := []
  names := ["undefined_name", "x"]
  consts := [.none]
  cellvars := []
  freevars := []
  blocks := [{ id := 0, ops := [
    { index := 0, op := .loadName, arg := some 0, line := 2 },
    { index := 1, op := .storeName, arg := some 1, line := 2 },
    { index := 2, op := .loadConst, arg := some 0, line := 2 },
    { index := 3, op := .returnValue, line := 2 }] }]

/-- `class A: x = undefined_name`. -/
def bareClass : Code where
  name := "<module>"
  filename := "m.py"
  firstLine := 1
  argCount := 0
  kwonlyArgCount := 0
  flags := 0
  varnames := []
  names := ["A"]
  consts := [.code bareClassBody, .str "A", .none]
  cellvars := []
  freevars := []
  blocks := [{ id := 0, ops := [
    { index := 0, op := .loadBuildClass, line := 1 },
    { index := 1, op := .loadConst, arg := some 0, line := 1 },
    { index := 2, op := .loadConst, arg := some 1, line := 1 },
    { index := 3, op := .makeFunction, arg := some 0, line := 1 },
    { index := 4, op := .loadConst, arg := some 1, line := 1 },
    { index := 5, op := .callFunction, arg := some 2, line := 1 },
    { index := 6, op := .storeName, arg := some 0, line := 1 },
    { index := 7, op := .loadConst, arg := some 2, line := 3 },
    { index := 8, op := .returnValue, line := 3 }] }]

def noCalls : Options := { major := 3, minor := 6, maxDepth := 0 }

theorem bareClass_disciplined_iff : bareClass.validate = .ok () ∧
    Always (fun pt => pt.entries.length = pt.machine.frames.length ∧ pt.KeptFor 0 .function ∧
      (pt.machine.Disciplined 0 ↔ pt.KeptFor 0 .classBody)) bareClass noCalls := by
  have hvalid : bareClass.validate = .ok () := by decide
  exact ⟨hvalid, frames_disciplined_iff hvalid⟩

theorem bareClass_checked :
    analyzeWith (stepTracked (checked fun pt => pt.machine.Disciplined 0) 2) bareClass noCalls =
      .error strayPoint := by
  unfold analyzeWith Machine.make
  rw [Library.builtins_eq]
  decide +kernel

/-- The frames do not keep to the limits, although the code passes its check and the options are
valid. The body of the class is run in a second frame. -/
theorem bareClass_not_disciplined : bareClass.validate = .ok () ∧ noCalls.validate = .ok () ∧
    ¬ Always (fun pt => pt.machine.Disciplined noCalls.maxDepth) bareClass noCalls := by
  have hvalid : bareClass.validate = .ok () := by decide
  have hoptions : noCalls.validate = .ok () := by decide
  exact ⟨hvalid, hoptions, not_always hvalid hoptions bareClass_checked⟩

end ValueTrace
