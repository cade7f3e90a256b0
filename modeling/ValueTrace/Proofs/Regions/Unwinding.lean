import Mathlib.Data.List.DropRight
import ValueTrace.Proofs.Machine.Frames
import ValueTrace.Proofs.Safety.Attributes

/-!
# Leaving regions early

A path that has stopped leaves its regions until one of them takes it over. That one hands the path
on just once, with the regions around it and the operands from its start. If there is none, the path
ends and nothing changes.
-/

namespace ValueTrace

/-- Whether a region takes over a path that stops for this reason. -/
def Region.TakesOver (r : Region) : Stop → Prop
  | .raised => r.kind ≠ .loop
  | .broke | .continued => r.kind = .loop
  | _ => False

/-- The innermost of some regions that takes over, with the regions around it. -/
inductive TakenOver (s : Stop) : List Region → Region → List Region → Prop where
  | here {r : Region} {around : List Region} (takes : r.TakesOver s) :
      TakenOver s (r :: around) r around
  | within {q r : Region} {rest around : List Region} (passes : ¬ q.TakesOver s)
      (behind : TakenOver s rest r around) : TakenOver s (q :: rest) r around

/-- The path when it is out of a region: in the regions around it, with the operands that were there
at its start. -/
def Path.outOf (p : Path) (r : Region) (around : List Region) : Path :=
  { p with regions := around, stack := p.stack.rtake r.level }

def Path.withRaised (p : Path) (e : Raised) : Path :=
  { p with stack := e.type :: e.value :: e.traceback :: p.stack, exception := none }

theorem TakenOver.takesOver {s : Stop} {regions around : List Region} {r : Region}
    (h : TakenOver s regions r around) : r.TakesOver s := by
  induction h with
  | here takes => exact takes
  | within _ _ ih => exact ih

theorem TakenOver.none_or_exists (s : Stop) (regions : List Region) :
    (∀ r ∈ regions, ¬ r.TakesOver s) ∨ ∃ r around, TakenOver s regions r around := by
  induction regions with
  | nil => exact .inl fun r hr => by cases hr
  | cons q regions ih =>
    by_cases hq : q.TakesOver s
    · exact .inr ⟨q, regions, .here hq⟩
    · rcases ih with hnone | ⟨r, around, h⟩
      · exact .inl (List.forall_mem_cons.mpr ⟨hq, hnone⟩)
      · exact .inr ⟨r, around, .within hq h⟩

namespace Analysis

variable {S : Setting} {m : Machine} {i : Instruction} {p : Path} {s : Stop} {r : Region}
  {regions around : List Region}

/-- Hand a path with an exception over to the instruction of a region. One that cleans up keeps it
apart from the paths without an exception. -/
def handOver (r : Region) (p : Path) : Analysis Unit :=
  if r.kind = .handled then storeJump r.handler p else storeRaised r.handler p

theorem pushException_pending {e : Raised} (he : p.exception = some e) :
    pushException p m = .ok (p.withRaised e) m := by
  unfold pushException
  rw [he]
  rfl

theorem Completes.newUnknown (n : NodeId) : Completes S (newUnknown n) fun _ => True :=
  of_safe (.newUnknown n) fun _ => ⟨_, _, rfl⟩

/-- An exception can be made up, and what is made up does not get into the frames. -/
theorem pushException_unknown (hm : S.Fits m) (he : p.exception = none) :
    ∃ e m', pushException p m = .ok (p.withRaised e) m' ∧ m'.frames = m.frames := by
  have hcompletes : Completes S (pushException p) fun q => ∃ e, q = p.withRaised e := by
    unfold pushException
    rw [he]
    refine .bind (.plainObject (Agree.needed (by decide))) fun _ _ => ?_
    refine .bind (.of_safe (.variableWith ..) fun _ => ⟨_, _, rfl⟩) fun traceback _ => ?_
    refine .bind (.newUnknown _) fun value _ => ?_
    refine .bind (.newUnknown _) fun type _ => ?_
    refine .bind (.pure rfl) fun e _ => ?_
    exact .pure ⟨e, rfl⟩
  obtain ⟨q, m', hq, -, e, rfl⟩ := hcompletes m hm
  exact ⟨e, m', hq, (Spares.pushException p).of_ok hq⟩

theorem unwind_passes (hstop : p.stop = some s) (h : ¬ r.TakesOver s) :
    unwind i p (r :: regions) = unwind i p regions := by
  obtain ⟨node, stack, own, condition, exception, stop⟩ := p
  obtain ⟨kind, handler, level⟩ := r
  cases hstop
  conv_lhs => unfold unwind
  cases s <;> cases kind <;> first | rfl | exact absurd (by simp [Region.TakesOver]) h

theorem unwind_none (hstop : p.stop = some s) (h : ∀ r ∈ regions, ¬ r.TakesOver s) :
    unwind i p regions m = .ok () m := by
  induction regions with
  | nil => rfl
  | cons r regions ih =>
    rw [unwind_passes hstop (h r List.mem_cons_self)]
    exact ih fun q hq => h q (List.mem_cons_of_mem r hq)

theorem unwind_takenOver (hstop : p.stop = some s) (h : TakenOver s regions r around) :
    unwind i p regions = unwind i p (r :: around) := by
  induction h with
  | here => rfl
  | within passes _ ih => rw [unwind_passes hstop passes, ih]

theorem unwind_broke (hstop : p.stop = some .broke) (h : r.TakesOver .broke) :
    unwind i p (r :: around) = storeJump r.handler (p.outOf r around) := by
  obtain ⟨node, stack, own, condition, exception, stop⟩ := p
  obtain ⟨kind, handler, level⟩ := r
  cases hstop
  obtain rfl : kind = .loop := h
  rfl

theorem unwind_continued (hstop : p.stop = some .continued) (h : r.TakesOver .continued) :
    unwind i p (r :: around) = i.target.elim (throw (.missingArgument i.op.mnemonic))
      (storeJump · { p with regions := r :: around }) := by
  obtain ⟨node, stack, own, condition, exception, stop⟩ := p
  obtain ⟨kind, handler, level⟩ := r
  cases hstop
  obtain rfl : kind = .loop := h
  unfold unwind
  cases i.target <;> rfl

theorem unwind_raised (hstop : p.stop = some .raised) (h : r.TakesOver .raised) :
    unwind i p (r :: around) = pushException (p.outOf r around) >>= handOver r := by
  obtain ⟨node, stack, own, condition, exception, stop⟩ := p
  obtain ⟨kind, handler, level⟩ := r
  cases hstop
  cases kind with
  | loop => exact absurd rfl h
  | handled => rfl
  | cleanup => rfl
  | context => rfl

/-- A path that has stopped is handed on just once, by the innermost region that takes it over. A
break goes behind the loop. To go on with the loop goes to the target of the instruction, in the loop
and with all operands. An exception goes to the handler or the cleanup, on top of the operands that
were there at the start, the one that is pending or else one that is made up. If no region takes it
over, nothing changes. -/
theorem unwind_delivers (hstop : p.stop = some s)
    (hm : p.exception = none → ∃ S : Setting, S.Fits m) :
    ((∀ r ∈ p.regions, ¬ r.TakesOver s) ∧ unwind i p p.regions m = .ok () m) ∨
    ∃ r around, TakenOver s p.regions r around ∧
      (s = .broke → unwind i p p.regions m = storeJump r.handler (p.outOf r around) m) ∧
      (s = .continued → unwind i p p.regions m =
        i.target.elim (throw (.missingArgument i.op.mnemonic))
          (storeJump · { p with regions := r :: around }) m) ∧
      (s = .raised → ∃ e m', (∀ e', p.exception = some e' → e = e' ∧ m' = m) ∧
        m'.frames = m.frames ∧
        unwind i p p.regions m = handOver r ((p.outOf r around).withRaised e) m') := by
  rcases TakenOver.none_or_exists s p.regions with hnone | ⟨r, around, h⟩
  · exact .inl ⟨hnone, unwind_none hstop hnone⟩
  · refine .inr ⟨r, around, h, ?_, ?_, ?_⟩
    · rintro rfl
      rw [unwind_takenOver hstop h, unwind_broke hstop h.takesOver]
    · rintro rfl
      rw [unwind_takenOver hstop h, unwind_continued hstop h.takesOver]
    · rintro rfl
      rw [unwind_takenOver hstop h, unwind_raised hstop h.takesOver]
      cases he : p.exception with
      | some e =>
        refine ⟨e, m, fun e' he' => ⟨Option.some.inj he', rfl⟩, rfl, ?_⟩
        exact bind_eq_of_ok (pushException_pending he)
      | none =>
        obtain ⟨S, hS⟩ := hm he
        obtain ⟨e, m', hpush, hframes⟩ := pushException_unknown (p := p.outOf r around) hS he
        exact ⟨e, m', nofun, hframes, bind_eq_of_ok hpush⟩

/-- A module that does nothing. -/
def emptyModule : Code where
  name := "<module>"
  filename := "m.py"
  firstLine := 1
  argCount := 0
  kwonlyArgCount := 0
  flags := 0
  varnames := []
  names := []
  consts := [.none]
  cellvars := []
  freevars := []
  blocks := [{ id := 0, ops := [
    { index := 0, op := .loadConst, arg := some 0, line := 1 },
    { index := 1, op := .returnValue, line := 1 }] }]

/-- A frame for the module that does nothing. -/
def idleFrame : Frame where
  code := ⟨[0], emptyModule⟩
  globals := 0
  locals := 0
  cells := []
  result := 0
  yielded := 0

/-- A path in a loop, in a context, in a region with a handler. -/
def deepPath : Path where
  node := 0
  stack := [3, 2, 1]
  regions := [⟨.loop, 9, 2⟩, ⟨.cleanup, 5, 1⟩, ⟨.handled, 7, 0⟩]
  stop := some .raised

def raiseTop : Instruction := ⟨4, .raiseVarargs, some 1, 0, none⟩

/-- The path at the way out of the context. -/
def shallowPath (e : Raised) : Path where
  node := 0
  stack := [e.type, e.value, e.traceback, 1]
  regions := [⟨.handled, 7, 0⟩]
  stop := some .raised

private theorem exists_fits : ∃ S m, Setting.Fits S m ∧ m.frames = [idleFrame] := by
  obtain ⟨m, hm⟩ : ∃ m, Machine.make {} = .ok m := by
    unfold Machine.make
    rw [Library.builtins_eq]
    exact ⟨_, rfl⟩
  obtain ⟨S, -, hS, hfits⟩ := Machine.fits_make hm
  have hframes : m.frames = [] := by
    rw [← List.map_eq_nil_iff, hfits.frames_eq, hS]
  have hvalid : idleFrame.shape.Valid := ⟨by decide, rfl⟩
  have hwaits : idleFrame.Waits := by
    constructor
    · intro k q hq
      cases (Std.TreeMap.getElem?_emptyc).symm.trans hq
    · intro k q hq
      cases (Std.TreeMap.getElem?_emptyc).symm.trans hq
  exact ⟨_, _, hfits.push hvalid rfl hwaits, by rw [hframes]⟩

/-- The exception goes past the loop to the way out of the context. -/
theorem deepPath_delivers : ∃ m, m.frames = [idleFrame] ∧
    (deepPath.exception = none → ∃ S : Setting, S.Fits m) ∧
    ∃ e m', m'.frames = [idleFrame] ∧
      unwind raiseTop deepPath deepPath.regions m = storeRaised 5 (shallowPath e) m' := by
  obtain ⟨S, m, hfits, hm⟩ := exists_fits
  refine ⟨m, hm, fun _ => ⟨S, hfits⟩, ?_⟩
  rcases unwind_delivers (i := raiseTop) (p := deepPath) (m := m) rfl fun _ => ⟨S, hfits⟩ with
    ⟨hnone, -⟩ | ⟨r, around, h, -, -, hraised⟩
  · have hcleanup := hnone ⟨.cleanup, 5, 1⟩ (by decide)
    exact absurd nofun hcleanup
  · obtain ⟨e, m', -, hframes, hrun⟩ := hraised rfl
    refine ⟨e, m', hframes.trans hm, ?_⟩
    cases h with
    | here takes => exact absurd rfl takes
    | within _ h =>
      cases h with
      | here => exact hrun
      | within passes _ => exact absurd nofun passes

end Analysis

end ValueTrace
