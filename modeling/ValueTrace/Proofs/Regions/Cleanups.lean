import ValueTrace.Proofs.Machine.Operands
import ValueTrace.Proofs.Paths.Siblings
import ValueTrace.Proofs.Regions.Unwinding

/-!
# What ends a cleanup

A cleanup begins with nothing on top of the operands, or with an exception. Which of the two it is
can only be read off the values on top. So an exception of which the type shows nothing but nothing
is taken for nothing, and two operands of it stay behind.
-/

namespace ValueTrace

/-- Whether all that a variable shows at a node is nothing. It may also show no value at all. -/
def Machine.ShowsNothing (m : Machine) (v : VarId) (n : NodeId) : Prop :=
  (m.graph.visibleData v n).all m.store.isNone = true

instance (m : Machine) (v : VarId) (n : NodeId) : Decidable (m.ShowsNothing v n) :=
  inferInstanceAs (Decidable (_ = true))

namespace Analysis

variable {call : Caller} {p : Path} {e : Raised} {out v : VarId} {m : Machine}

theorem isAllNone_of_showsNothing {n : NodeId} (h : m.ShowsNothing v n) :
    isAllNone v n m = .ok true m :=
  congrArg (EStateM.Result.ok · m) h

theorem isAllNone_of_not_showsNothing {n : NodeId} (h : ¬ m.ShowsNothing v n) :
    isAllNone v n m = .ok false m :=
  congrArg (EStateM.Result.ok · m) (Bool.eq_false_iff.mpr h)

theorem endCleanup_nothing (h : m.ShowsNothing v p.node) : endCleanup (p.push v) m = .ok p m := by
  refine (bind_eq_of_ok (liftM_ok.mpr ⟨rfl, rfl⟩)).trans ?_
  exact bind_eq_of_ok (isAllNone_of_showsNothing h)

theorem endCleanup_other (h : ¬ m.ShowsNothing v p.node) :
    endCleanup (p.push v) m = (liftM (p.discardN 2) : Analysis Path) m := by
  refine (bind_eq_of_ok (liftM_ok.mpr ⟨rfl, rfl⟩)).trans ?_
  exact bind_eq_of_ok (isAllNone_of_not_showsNothing h)

/-- Nothing on top is all that is dropped exactly if it still shows nothing. -/
theorem endCleanup_nothing_iff :
    endCleanup (p.push v) m = .ok p m ↔ m.ShowsNothing v p.node := by
  refine ⟨fun h => by_contra fun hv => ?_, endCleanup_nothing⟩
  rw [endCleanup_other hv] at h
  obtain ⟨hdrop, -⟩ := liftM_ok.mp h
  obtain ⟨htwo, vs, hvs, hstack⟩ := (Path.discardN_ok hdrop).toReplaces
  have hlength := congrArg List.length hstack
  simp only [List.length_append, List.length_drop, hvs] at hlength
  omega

/-- An exception is dropped exactly if something shows in its type. -/
theorem endCleanup_raised_iff : endCleanup (p.withRaised e) m = .ok { p with exception := none } m ↔
    ¬ m.ShowsNothing e.type p.node := by
  let below : Path := { p with stack := e.value :: e.traceback :: p.stack, exception := none }
  have hpush : p.withRaised e = below.push e.type := rfl
  rw [hpush]
  refine ⟨fun h hnothing => ?_, fun h => endCleanup_other h⟩
  rw [endCleanup_nothing (p := below) hnothing] at h
  injection h with hpath
  have hlength : p.stack.length + 2 = p.stack.length := congrArg (·.stack.length) hpath
  omega

theorem leaveContext_nothing (h : m.ShowsNothing v p.node) :
    leaveContext call ((p.push out).push v) m =
      (callOrReport call p.node out { positional := [v, v, v] } >>= fun r =>
        pure ({ p with node := r.1 }.push v)) m := by
  refine (bind_eq_of_ok (liftM_ok.mpr ⟨rfl, rfl⟩)).trans ?_
  exact bind_eq_of_ok (isAllNone_of_showsNothing h)

theorem leaveContext_raised (h : ¬ m.ShowsNothing e.type p.node) :
    leaveContext call ((p.push out).withRaised e) m =
      (callOrReport call p.node out { positional := [e.type, e.value, e.traceback] } >>= fun r =>
        pure ({ p with node := r.1 }.withRaised e)) m := by
  refine (bind_eq_of_ok (liftM_ok.mpr ⟨rfl, rfl⟩)).trans ?_
  exact bind_eq_of_ok (isAllNone_of_not_showsNothing h)

/-- The value of the exception is called in place of the way out, which stays on the stack. -/
theorem leaveContext_mistaken (h : m.ShowsNothing e.type p.node) :
    leaveContext call ((p.push out).withRaised e) m =
      (callOrReport call p.node e.value { positional := [e.type, e.type, e.type] } >>= fun r =>
        pure (({ p with node := r.1, exception := none }.push out).pushAll [e.traceback, e.type]))
        m := by
  refine (bind_eq_of_ok (liftM_ok.mpr ⟨rfl, rfl⟩)).trans ?_
  exact bind_eq_of_ok (isAllNone_of_showsNothing h)

theorem step_withCleanup {i : Instruction} (hi : i.op = .withCleanup) :
    step call i = leaveContext call := by
  funext p
  unfold step
  rw [hi]

theorem step_endFinally {i : Instruction} (hi : i.op = .endFinally) :
    step call i = endCleanup := by
  funext p
  unfold step
  rw [hi]

/-- A cleanup gives back the operands from before it exactly if what is on top at its end is read
for what it is: an exception needs something that shows in its type, and nothing has to show
nothing. A way out below either of them is called with the three parts of the exception or with
nothing, and the cleanup ends behind the call. But if the type shows nothing, the value of the
exception is called in place of the way out. -/
theorem cleanup_balanced_iff {i j : Instruction} (hi : i.op = .withCleanup)
    (hj : j.op = .endFinally) (e : Raised) (out v : VarId) :
    (∀ (p : Path) (m : Machine), step call j (p.withRaised e) m =
      .ok { p with exception := none } m ↔ ¬ m.ShowsNothing e.type p.node) ∧
    (∀ (p : Path) (m : Machine), step call j (p.push v) m = .ok p m ↔ m.ShowsNothing v p.node) ∧
    ∀ (p : Path) (m : Machine),
      (¬ m.ShowsNothing e.type p.node →
        (step call i ((p.push out).withRaised e) >>= step call j) m =
          (callOrReport call p.node out { positional := [e.type, e.value, e.traceback] } >>= fun r =>
            step call j ({ p with node := r.1 }.withRaised e)) m) ∧
      (m.ShowsNothing v p.node →
        (step call i ((p.push out).push v) >>= step call j) m =
          (callOrReport call p.node out { positional := [v, v, v] } >>= fun r =>
            step call j ({ p with node := r.1 }.push v)) m) ∧
      (m.ShowsNothing e.type p.node → step call i ((p.push out).withRaised e) m =
        (callOrReport call p.node e.value { positional := [e.type, e.type, e.type] } >>= fun r =>
          pure (({ p with node := r.1, exception := none }.push out).pushAll
            [e.traceback, e.type])) m) := by
  rw [step_withCleanup hi, step_endFinally hj]
  refine ⟨fun p m => endCleanup_raised_iff, fun p m => endCleanup_nothing_iff, fun p m => ?_⟩
  refine ⟨fun h => ?_, fun h => ?_, leaveContext_mistaken⟩
  · rw [bind_eq_of_eq (leaveContext_raised h), bind_assoc]
    simp only [pure_bind]
  · rw [bind_eq_of_eq (leaveContext_nothing h), bind_assoc]
    simp only [pure_bind]

/-- A variable for nothing, and one for a value that the analysis has given up on. -/
def voidGraph : Graph :=
  match (do
    let entry ← Graph.newNode "entry"
    let void ← modifyGet (·.newVariable "None")
    let other ← modifyGet (·.newVariable "unsolvable")
    let _ ← modifyGet (·.addBinding void (.value 1) [] entry)
    let _ ← modifyGet (·.addBinding other (.value 0) [] entry) : Graph.Growth Unit).run {} with
  | .ok _ g | .error _ g => g

def void : Machine where
  graph := voidGraph
  store := {
    values := #[.unsolvable, .object { cls := .value 0, payload := some (.constant .none) }] }

def leaveVoid : Instruction := ⟨6, .withCleanup, none, 0, none⟩

def endVoid : Instruction := ⟨7, .endFinally, none, 0, none⟩

/-- An exception of which something shows goes away with its cleanup, as nothing does. -/
theorem void_balanced : ¬ void.ShowsNothing 1 0 ∧ void.ShowsNothing 0 0 ∧
    step noCall endVoid (Path.withRaised { node := 0 } ⟨1, 1, 1⟩) void = .ok { node := 0 } void ∧
    step noCall endVoid (Path.push { node := 0 } 0) void = .ok { node := 0 } void ∧
    (step noCall leaveVoid (Path.withRaised { node := 0, stack := [1] } ⟨1, 1, 1⟩) >>=
      step noCall endVoid) void = .ok { node := 0 } void := by
  have hshows : ¬ void.ShowsNothing 1 0 := by decide +kernel
  have hnothing : void.ShowsNothing 0 0 := by decide +kernel
  obtain ⟨hraised, hpushed, hleft⟩ := @cleanup_balanced_iff noCall leaveVoid endVoid rfl rfl
    ⟨1, 1, 1⟩ 1 0
  have hgone := (hraised { node := 0 } void).mpr hshows
  refine ⟨hshows, hnothing, hgone, (hpushed { node := 0 } void).mpr hnothing, ?_⟩
  refine ((hleft { node := 0 } void).1 hshows).trans ?_
  have hcall : callOrReport noCall 0 1 { positional := [1, 1, 1] } void = .ok (0, 1) void := rfl
  exact (bind_eq_of_ok hcall).trans hgone

/-- If nothing is raised, its value and its traceback stay on the stack behind the cleanup. -/
theorem raised_void_stays : ∃ e m,
    (step noCall raiseTop { node := 0, stack := [0] } >>= pushException) void =
      .ok (Path.withRaised { node := 0, stop := some .raised } e) m ∧
    step noCall endVoid (Path.withRaised { node := 0, stop := some .raised } e) m =
      .ok { node := 0, stack := [e.value, e.traceback], stop := some .raised } m := by
  obtain ⟨m, hraise, hnothing⟩ : ∃ m,
      (step noCall raiseTop { node := 0, stack := [0] } >>= pushException) void =
        .ok (Path.withRaised { node := 0, stop := some .raised } ⟨0, 3, 4⟩) m ∧
      m.ShowsNothing 0 0 := ⟨_, rfl, by decide +kernel⟩
  refine ⟨_, m, hraise, ?_⟩
  rw [step_endFinally rfl]
  exact endCleanup_nothing (p := { node := 0, stack := [3, 4], stop := some .raised }) hnothing

end Analysis

end ValueTrace
