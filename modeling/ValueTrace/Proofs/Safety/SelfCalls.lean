import ValueTrace.Proofs.Safety.Layout
import ValueTrace.Proofs.Safety.Programs
import ValueTrace.Proofs.Visibility.Locality

/-!
# Objects that are called through themselves

An object is called through what it holds as `__call__`, and that may be the object itself. Neither
the depth of frames nor the code that is being run shows in such a call, so it never ends, however
much room there is for nested calls. A program needs four lines to get there.
-/

namespace ValueTrace

def Machine.first? (m : Machine) (v : VarId) (n : NodeId) : Option DataId :=
  (m.graph.visible v n).head?.map m.graph.dataOf

def Store.callSlot? (s : Store) (d : DataId) : Option VarId :=
  (s.object? d).bind fun o => o.members["__call__"]?

def Machine.CallsItself (m : Machine) (n : NodeId) (d : DataId) : Prop :=
  (m.store.callSlot? d).bind (m.first? · n) = some d

namespace Analysis

variable {α β : Type} {m t : Machine} {x : Analysis α} {f : α → Analysis β}

def RunsOut (x : Analysis α) (m : Machine) : Prop := ∃ m', x m = .error .outOfFuel m'

namespace RunsOut

theorem bind (h : RunsOut x m) : RunsOut (x >>= f) m := by
  obtain ⟨m', h⟩ := h
  refine ⟨m', ?_⟩
  change EStateM.bind x f m = _
  unfold EStateM.bind
  rw [h]

theorem bind_of_ok {a : α} (hx : x m = .ok a t) (h : RunsOut (f a) t) :
    RunsOut (x >>= f) m := by
  unfold RunsOut
  rwa [bind_eq_of_ok hx]

theorem mapM {σ : Type} {f : σ → Analysis α} {a : σ} {l : List σ} (h : RunsOut (f a) m) :
    RunsOut ((a :: l).mapM f) m := by
  rw [List.mapM_cons]
  exact h.bind

theorem mapFailure {g : Failure → Failure} (hg : g .outOfFuel = .outOfFuel) (h : RunsOut x m) :
    RunsOut (mapFailure g x) m := by
  obtain ⟨m', h⟩ := h
  refine ⟨m', ?_⟩
  unfold Analysis.mapFailure
  rw [h]
  exact congrArg (EStateM.Result.error · m') hg

theorem withFrame {f : Frame} (h : RunsOut x { m with frames := f :: m.frames }) :
    RunsOut (withFrame f x) m := by
  obtain ⟨m', h⟩ := h
  unfold RunsOut Analysis.withFrame
  rw [h]
  exact ⟨_, rfl⟩

theorem attempt_of_ok {f : α → Attempt β} {a : α} (hx : x m = .ok a t)
    (h : RunsOut (f a).run t) : RunsOut ((liftM x : Attempt α) >>= f).run m := by
  refine bind_of_ok (f := ExceptT.bindCont f) (a := .ok a) (t := t) ?_ h
  change (x >>= fun a => pure (Except.ok a)) m = _
  rw [bind_eq_of_ok hx]
  rfl

end RunsOut

variable {step : Caller → Stepper} {n : NodeId} {v : VarId} {d : DataId} {args : CallArgs}

theorem first?_newVariable (name : String) :
    Machine.first? { m with graph := (m.graph.newVariable name).2 } v n = m.first? v n := by
  unfold Machine.first?
  dsimp only
  rw [Graph.visible_newVariable]
  rfl

theorem callsItself_newVariable (name : String) (h : m.CallsItself n d) :
    Machine.CallsItself { m with graph := (m.graph.newVariable name).2 } n d := by
  unfold Machine.CallsItself
  simp only [first?_newVariable]
  exact h

theorem callEach_runsOut {call : NodeId → DataId → BindingId → CallArgs → Attempt (NodeId × VarId)}
    (hv : m.first? v n = some d)
    (h : ∀ b, RunsOut (call n d b args).run
      { m with graph := (m.graph.newVariable "return").2 }) :
    RunsOut (callEach call n v args).run m := by
  rw [← first?_newVariable "return"] at hv
  refine .bind_of_ok (t := { m with graph := (m.graph.newVariable "return").2 }) rfl ?_
  generalize { m with graph := (m.graph.newVariable "return").2 } = m at hv h
  obtain ⟨b, hb, hd⟩ := Option.map_eq_some_iff.mp hv
  obtain ⟨bs, hbs⟩ := List.head?_eq_some_iff.mp hb
  refine .bind_of_ok (t := m) rfl ?_
  rw [hbs]
  refine .bind (.mapM (.bind_of_ok (a := d) (t := m) ?_ (.bind (h b))))
  rw [← hd]
  rfl

/-- Such a call needs more room than there is. -/
theorem callValue_runsOut (fuel : Nat) (b : BindingId) (h : m.CallsItself n d) :
    RunsOut (callValue step fuel n d b args).run m := by
  induction fuel generalizing m b args with
  | zero => exact ⟨m, rfl⟩
  | succ fuel ih =>
    obtain ⟨slot, hslot, hfirst⟩ := Option.bind_eq_some_iff.mp h
    obtain ⟨o, ho, hmember⟩ := Option.bind_eq_some_iff.mp hslot
    have hvalue : m.store.get d = .object o := by
      unfold Store.object? Value.object? at ho
      split at ho
      · next hv =>
        cases ho
        exact hv
      · cases ho
    have hattribute : attributeOf n d "__call__" (some b) m = .ok (some slot) m := by
      unfold attributeOf
      rw [bind_eq_of_ok (show value d m = .ok (m.store.get d) m from rfl), hvalue]
      dsimp only
      rw [hmember]
      rfl
    refine .attempt_of_ok (x := value d) (congrArg (EStateM.Result.ok · m) hvalue) ?_
    exact .attempt_of_ok hattribute
      (callEach_runsOut hfirst fun b => ih b (callsItself_newVariable "return" h))

theorem runInstructions_stopped (step : Stepper) (last : Instruction) {p : Path}
    (h : p.stop.isSome) (is : List Instruction) :
    runInstructions step last p is = pure (last, p) := by
  cases is with
  | nil => rfl
  | cons i is =>
    unfold runInstructions
    rw [if_pos h]

theorem runInstructions_cons (step : Stepper) (last i : Instruction) {p : Path}
    (h : ¬ p.stop.isSome) (is : List Instruction) :
    runInstructions step last p (i :: is) =
      runInstruction step i p >>= fun q => runInstructions step i q is := if_neg h

theorem runInstructions_append (step : Stepper) (last : Instruction) (p : Path)
    (is js : List Instruction) :
    runInstructions step last p (is ++ js) =
      runInstructions step last p is >>= fun r => runInstructions step r.1 r.2 js := by
  induction is generalizing last p with
  | nil =>
    change runInstructions step last p js = pure (last, p) >>= _
    rw [pure_bind]
  | cons i is ih =>
    rw [List.cons_append]
    by_cases h : p.stop.isSome
    · rw [runInstructions_stopped step last h, runInstructions_stopped step last h, pure_bind,
        runInstructions_stopped step last h]
    · rw [runInstructions_cons step last i h, runInstructions_cons step last i h, bind_assoc]
      simp only [ih]

theorem runInstruction_congr {step step' : Stepper} {i : Instruction} (h : step i = step' i) :
    runInstruction step i = runInstruction step' i := by
  unfold runInstruction
  rw [h]

theorem runInstructions_congr {step step' : Stepper} {last : Instruction} {p : Path}
    {is : List Instruction} (h : ∀ i ∈ is, step i = step' i) :
    runInstructions step last p is = runInstructions step' last p is := by
  induction is generalizing last p with
  | nil => rfl
  | cons i is ih =>
    unfold runInstructions
    rw [runInstruction_congr (h i List.mem_cons_self)]
    simp only [ih fun j hj => h j (List.mem_cons_of_mem _ hj)]

/-- A call without arguments. -/
theorem step_callFunction_runsOut {call : Caller} {i : Instruction} {p : Path}
    {rest : List VarId} (hop : i.op = .callFunction) (harg : i.arg = some 0)
    (hstack : p.stack = v :: rest) (h : RunsOut (call p.node v {}).run m) :
    RunsOut (Analysis.step call i p) m := by
  obtain ⟨k, op, arg, line, target⟩ := i
  obtain ⟨node, stack, regions, condition, exception, stop⟩ := p
  subst hop harg hstack
  refine .bind_of_ok (a := 0) (t := m) rfl ?_
  refine .bind_of_ok (t := m) rfl (.bind_of_ok (t := m) rfl ?_)
  refine .bind_of_ok (t := m) rfl (.bind_of_ok (t := m) rfl ?_)
  refine .bind_of_ok (t := m) rfl (.bind_of_ok (t := m) rfl ?_)
  refine .bind_of_ok (t := m) rfl (.bind (.bind h))

theorem runBlock_runsOut {step : Stepper} {b : Block} {i last j : Instruction}
    {is js : List Instruction} {p q : Path} (hops : b.ops = i :: (is ++ j :: js))
    (hstart : (runInstruction step i p >>= fun q => runInstructions step i q is) m =
      .ok (last, q) t)
    (hq : ¬ q.stop.isSome) (h : RunsOut (runInstruction step j q) t) :
    RunsOut (runBlock step b p) m := by
  unfold runBlock
  rw [hops]
  dsimp only
  simp only [runInstructions_append]
  rw [← bind_assoc]
  refine .bind ?_
  rw [← bind_assoc]
  refine .bind_of_ok hstart ?_
  rw [runInstructions_cons step last j hq]
  exact h.bind

def started (f : Frame) (first : Instruction) (n : NodeId) : Frame :=
  { f with
    entries := f.entries.insert first.index { node := n }
    executed := f.executed.insert first.index }

theorem runFrame_runsOut {step : Stepper} {f : Frame} {b : Block} {bs : List Block}
    {i : Instruction} {is : List Instruction} (hblocks : f.code.code.blocks = b :: bs)
    (hops : b.ops = i :: is)
    (h : RunsOut (runBlock step b { node := n }) { m with frames := started f i n :: m.frames }) :
    RunsOut (runFrame step f n) m := by
  have hfirst : f.code.code.firstOp? = some i := by
    unfold Code.firstOp?
    rw [hblocks]
    change b.ops.head? = some i
    rw [hops]
    rfl
  have hstart : b.start? = some i.index := by
    unfold Block.start?
    rw [hops]
    rfl
  unfold runFrame
  dsimp only
  rw [hfirst]
  refine .bind (.withFrame (.bind ?_))
  rw [hblocks]
  refine .mapM ?_
  unfold runEntries
  rw [hstart]
  refine .bind_of_ok rfl ?_
  dsimp only
  rw [Std.TreeMap.getElem?_insert_self]
  exact .bind_of_ok rfl (.bind (.mapM h))

/-- `x = 1; x.__call__ = x; x()`. -/
def selfCall : Code where
  name := "<module>"
  filename := "m.py"
  firstLine := 1
  argCount := 0
  kwonlyArgCount := 0
  flags := 0
  varnames := []
  names := ["x", "__call__"]
  consts := [.int 1, .none]
  cellvars := []
  freevars := []
  blocks := [{ id := 0, ops := [
    { index := 0, op := .loadConst, arg := some 0, line := 1 },
    { index := 1, op := .storeName, arg := some 0, line := 1 },
    { index := 2, op := .loadName, arg := some 0, line := 2 },
    { index := 3, op := .loadName, arg := some 0, line := 2 },
    { index := 4, op := .storeAttr, arg := some 1, line := 2 },
    { index := 5, op := .loadName, arg := some 0, line := 3 },
    { index := 6, op := .callFunction, arg := some 0, line := 3 },
    { index := 7, op := .popTop, line := 3 },
    { index := 8, op := .loadConst, arg := some 1, line := 4 },
    { index := 9, op := .returnValue, line := 4 }] }]

def selfCallFirst : Instruction := { index := 0, op := .loadConst, arg := some 0, line := 1 }

def selfCallOpening : List Instruction := (selfCall.ops.drop 1).take 5

/-- The run of the program up to the call. The answer is the path on which it is made. -/
def untilSelfCall (step : Stepper) : Analysis Path := do
  setStore (·.modifyNamespace Machine.builtins fun ns => ns.insertMany (∅ : Members).toList)
  let (f, n) ← enterModule ⟨[0], selfCall⟩
  modify fun m => { m with frames := started f selfCallFirst n :: m.frames }
  let p ← runInstruction step selfCallFirst { node := n }
  return (← runInstructions step selfCallFirst p selfCallOpening).2

/-- No calls are made before. -/
theorem untilSelfCall_eq (call call' : Caller) :
    untilSelfCall (Analysis.step call) = untilSelfCall (Analysis.step call') := by
  have hfirst : Analysis.step call selfCallFirst = Analysis.step call' selfCallFirst := rfl
  have hopening : ∀ i ∈ selfCallOpening, Analysis.step call i = Analysis.step call' i := by
    intro i hi
    simp only [selfCallOpening, selfCall, Code.ops, List.flatMap_cons, List.drop_succ_cons,
      List.cons_append, List.drop_zero, List.take_succ_cons, List.take_zero, List.mem_cons,
      List.not_mem_nil, or_false] at hi
    rcases hi with rfl | rfl | rfl | rfl | rfl <;> rfl
  unfold untilSelfCall
  rw [runInstruction_congr hfirst]
  simp only [runInstructions_congr hopening]

def topValue? (m : Machine) (p : Path) : Option DataId := p.stack.head?.bind (m.first? · p.node)

/-- Whether there is a machine on which the run gets as far as that, to an object that is called
through itself. -/
def reachesSelfCall : Except Failure Machine → Bool
  | .error _ => false
  | .ok m =>
    match untilSelfCall (stepWithin 0) m with
    | .error .. => false
    | .ok p m => p.stop.isNone && (topValue? m p).any fun d =>
      decide ((m.store.callSlot? d).bind (m.first? · p.node) = some d)

theorem of_reachesSelfCall {r : Except Failure Machine} (h : reachesSelfCall r = true) :
    ∃ m, r = .ok m ∧ ∃ p m' d, untilSelfCall (stepWithin 0) m = .ok p m' ∧ p.stop = none ∧
      topValue? m' p = some d ∧ m'.CallsItself p.node d := by
  unfold reachesSelfCall at h
  cases r with
  | error e => cases h
  | ok m =>
    dsimp only at h
    cases hrun : untilSelfCall (stepWithin 0) m with
    | error e m' =>
      rw [hrun] at h
      cases h
    | ok p m' =>
      rw [hrun] at h
      simp only [Bool.and_eq_true, Option.isNone_iff_eq_none, Option.any_eq_true,
        decide_eq_true_eq] at h
      obtain ⟨hstop, d, hd, hself⟩ := h
      exact ⟨m, rfl, p, m', d, hrun, hstop, hd, hself⟩

theorem make_reachesSelfCall : reachesSelfCall (Machine.make {}) = true := by
  unfold Machine.make
  rw [Library.builtins_eq]
  decide +kernel

end Analysis

open Analysis

theorem selfCall_validate : selfCall.validate = .ok () := by decide

/-- The call at which the program stays. -/
theorem runInstruction_selfCall_runsOut (fuel : Nat) {m : Machine} {p : Path} {d : DataId}
    (htop : topValue? m p = some d) (hself : m.CallsItself p.node d) :
    RunsOut (runInstruction (stepWithin fuel)
      { index := 6, op := .callFunction, arg := some 0, line := 3 } p) m := by
  obtain ⟨v, hv, hfirst⟩ := Option.bind_eq_some_iff.mp htop
  obtain ⟨rest, hstack⟩ := List.head?_eq_some_iff.mp hv
  refine .bind_of_ok rfl (.bind_of_ok rfl (.bind (.mapFailure rfl ?_)))
  refine step_callFunction_runsOut rfl rfl hstack (callEach_runsOut hfirst fun b => ?_)
  exact callValue_runsOut fuel b (callsItself_newVariable _ hself)

theorem enterModule_code {m m' : Machine} {f : Frame} {n : NodeId} {S : Setting}
    {code : PlacedCode} (hfits : S.Fits m) (hcode : code.code.validate = .ok ())
    (h : enterModule code m = .ok (f, n) m') : f.code = code := by
  rcases (Agree.enterModule hcode).agrees m hfits with ⟨m'', hout⟩ | ⟨-, hleaves⟩
  · rw [h] at hout
    cases hout
  · rw [h] at hleaves
    exact hleaves.2.1

/-- However much room there is for nested calls, the program needs more. -/
theorem analyzeWithin_selfCall (fuel : Nat) :
    analyzeWithin fuel selfCall {} = .error .outOfFuel := by
  obtain ⟨m, hm, p, m', d, hrun, hstop, htop, hself⟩ := of_reachesSelfCall make_reachesSelfCall
  obtain ⟨S, -, -, hfits⟩ := Machine.fits_make hm
  rw [show untilSelfCall (stepWithin 0) = untilSelfCall (stepWithin fuel) from
    untilSelfCall_eq _ _] at hrun
  unfold untilSelfCall at hrun
  obtain ⟨_, m₁, hset, hrun⟩ := bind_ok.mp hrun
  obtain ⟨⟨f, n⟩, m₂, henter, hrun⟩ := bind_ok.mp hrun
  obtain ⟨_, m₃, hpush, hrun⟩ := bind_ok.mp hrun
  obtain ⟨q, m₄, hfirst, hrun⟩ := bind_ok.mp hrun
  obtain ⟨⟨last, p'⟩, m₅, hopening, hrun⟩ := bind_ok.mp hrun
  obtain ⟨rfl, rfl⟩ := pure_ok.mp hrun
  have hfits₁ : S.Fits m₁ := by
    cases hset
    exact hfits.of_eq rfl rfl rfl rfl rfl
  have hcode := enterModule_code hfits₁ selfCall_validate henter
  cases hpush
  have hout : RunsOut (runProgramWith (stepWithin fuel) ⟨[0], selfCall⟩ ∅) m := by
    refine .bind_of_ok hset (.bind (.bind_of_ok henter (.bind ?_)))
    refine runFrame_runsOut (i := selfCallFirst) (by rw [hcode]; rfl) rfl ?_
    have hstart := (bind_eq_of_ok (f := fun q =>
      runInstructions (stepWithin fuel) selfCallFirst q selfCallOpening) hfirst).trans hopening
    refine runBlock_runsOut rfl hstart ?_ (runInstruction_selfCall_runsOut fuel htop hself)
    rw [show p'.stop = none from hstop]
    exact Bool.false_ne_true
  obtain ⟨m'', hout⟩ := hout
  exact analyzeWith_of_error hm hout

/-- The code passes its check and the options are valid, and yet the analysis never ends. -/
theorem selfCall_endless : selfCall.validate = .ok () ∧ Options.validate {} = .ok () ∧
    ∀ fuel, analyzeWithin fuel selfCall {} = .error .outOfFuel :=
  ⟨selfCall_validate, by decide, analyzeWithin_selfCall⟩

end ValueTrace
