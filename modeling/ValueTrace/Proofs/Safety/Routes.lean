import ValueTrace.Proofs.Safety.Calls
import ValueTrace.Proofs.Safety.Steps

/-!
# The routes of a call

What a call of a value comes to. The only other calls are those of what the value leads to directly,
and those that the code of a function makes.
-/

namespace ValueTrace

/-- A way to call a value that has been reached through a binding. -/
abbrev ValueCaller := NodeId → DataId → BindingId → CallArgs → Attempt (NodeId × VarId)

def ValueCaller.Agree (S : Setting) (call call' : ValueCaller) : Prop :=
  ∀ n d b args, Attempt.Agree S (call n d b args) (call' n d b args) fun _ => True

namespace Analysis

/-- Call a value, given a way to call what it leads to, and a way to call from inside of a
function. -/
def callOnce (step : Caller → Stepper) (direct : ValueCaller) (inside : Caller) : ValueCaller :=
  fun n d b args => do
    match ← value d with
    | .function f => callFunction (step inside) n f args
    | .native f => callLibrary n f args
    | .method receiver f => direct n f b (args.withReceiver receiver)
    | .ofClass c => instantiateClass (callEach direct) n d c args
    | .object _ =>
      match ← attributeOf n d "__call__" (some b) with
      | some method => callEach direct n method args
      | none => throw (.notCallable ((← get).store.typeName d))
    | .module .. => throw (.notCallable ((← get).store.typeName d))
    | .unknown _ => return (n, ← newUnknown n)
    | .unsolvable => return (n, ← newUnsolvable n)
    | .special form => callSpecial (step (callEach direct)) n form args

/-- The same, given ways to run the instructions of functions and those of the bodies of
classes. -/
def callVia (function classBody : Stepper) (direct : ValueCaller) : ValueCaller :=
  fun n d b args => do
    match ← value d with
    | .function f => callFunction function n f args
    | .native f => callLibrary n f args
    | .method receiver f => direct n f b (args.withReceiver receiver)
    | .ofClass c => instantiateClass (callEach direct) n d c args
    | .object _ =>
      match ← attributeOf n d "__call__" (some b) with
      | some method => callEach direct n method args
      | none => throw (.notCallable ((← get).store.typeName d))
    | .module .. => throw (.notCallable ((← get).store.typeName d))
    | .unknown _ => return (n, ← newUnknown n)
    | .unsolvable => return (n, ← newUnsolvable n)
    | .special form => callSpecial classBody n form args

theorem callOnce_eq_callVia (step : Caller → Stepper) (direct : ValueCaller) (inside : Caller) :
    callOnce step direct inside = callVia (step inside) (step (callEach direct)) direct := rfl

theorem callValue_succ (step : Caller → Stepper) (fuel : Nat) :
    callValue step (fuel + 1) =
      callOnce step (callValue step fuel) (callEach (callValue step fuel)) := rfl

namespace Agree

variable {S : Setting} {n : NodeId} {call call' : Caller} {step step' : Stepper}

theorem newFrame {code : PlacedCode} (hcode : code.code.validate = .ok ())
    (globals : NamespaceId) (locals : Option NamespaceId) (closure : List VarId) (args : Members) :
    Safe S (newFrame code globals locals closure args n)
      fun f => f.code = code ∧ f.shape.Valid ∧ f.Waits := by
  unfold Analysis.newFrame
  extract_lets given finish
  have hfinish (locals : NamespaceId) :
      Safe S (finish locals) fun f => f.code = code ∧ f.shape.Valid ∧ f.Waits := by
    refine bind (mapM (R := fun _ => True) fun name _ => ?_) fun cells hcells => ?_
    · refine bind (newVariable name) fun cell _ => ?_
      dsimp only
      split
      · exact bind (paste ..) fun _ _ => pure trivial
      · exact pure trivial
    refine bind (mapM (R := fun _ => True) fun entry _ => ?_) fun free hfree => ?_
    · obtain ⟨name, i⟩ := entry
      dsimp only
      split
      · exact pure trivial
      · exact newVariable name
    refine bind (forM fun entry _ => ?_) fun _ _ => ?_
    · exact bind (newVariable _) fun _ _ => bind (paste ..) fun _ _ => setNamespaces fun _ => rfl
    refine bind (newVariable _) fun _ _ => ?_
    refine bind (newVariable _) fun _ _ => pure ⟨rfl, ⟨hcode, ?_⟩, fun h => ?_, fun h => ?_⟩
    · simp [Frame.shape, hcells.1, hfree.1]
    · simp at h
    · simp at h
  clear_value given
  split
  · exact bind (pure (Q := fun _ => True) trivial) fun ns _ => hfinish ns
  · exact bind newNamespace fun ns _ => hfinish ns

theorem enterNode (name : String) : Safe S (enterNode n name) fun _ => True :=
  ofGrowth fun _ _ _ _ => trivial

/-- The code of the pushed frame makes the calls. -/
theorem stepper {s : Shape} {hs : s.Valid} (hcall : Caller.Agree (S.push s hs) call call') :
    Stepper.Agree (S.push s hs) s.code.code (Analysis.step call) (Analysis.step call') :=
  fun _ _ hi hp => step hcall rfl hi hp

theorem typeOf (v : VarId) : Safe S (typeOf n v) fun _ => True := by
  refine bind (newVariable _) fun result _ => ?_
  refine bind (visible v n) fun bs _ => ?_
  refine bind (forM fun b _ => ?_) fun _ _ => pure trivial
  refine bind (dataOf b) fun d _ => bind (value d) fun x _ => ?_
  have hclass (name : String) (hname : name ∈ Library.needed) := bind (libraryClass (S := S)
    (needed hname)) fun cls _ => bindVariable result cls [b] n
  cases x with
  | object o => exact bind (pure (Q := fun _ => True) trivial) fun _ _ => bindVariable ..
  | ofClass c => exact hclass _ (by decide)
  | function f | native f | method r f | special form => exact hclass _ (by decide)
  | module name members => exact hclass _ (by decide)
  | unknown members | unsolvable =>
    exact bind (pure (Q := fun _ => True) trivial) fun _ _ => bindVariable ..

theorem isInstance (obj cls : VarId) : Safe S (isInstance n obj cls) fun _ => True := by
  refine bind (newVariable _) fun result _ => ?_
  refine bind (visible obj n) fun objs _ => ?_
  refine bind (visible cls n) fun classes _ => ?_
  refine bind (forM fun o _ => forM fun c _ => ?_) fun _ _ => pure trivial
  refine bind get fun m _ => ?_
  refine bind (dataOf c) fun d _ => ?_
  refine bind (dataOf o) fun e _ => ?_
  refine bind (truth _) fun t _ => ?_
  exact bindVariable ..

end Agree

end Analysis

namespace Attempt.Agree

variable {S : Setting} {n : NodeId} {call call' : Caller}
  {step step' function function' classBody classBody' : Analysis.Stepper}
  {direct direct' : ValueCaller} {inside inside' : Caller}

theorem outOfFuel {α : Type} {y : Attempt α} {Q : α → Prop} :
    Agree S (ExceptT.lift (MonadExcept.throw Failure.outOfFuel)) y Q :=
  ⟨fun m _ => .inl ⟨m, rfl⟩⟩

theorem callEach (hdirect : ValueCaller.Agree S direct direct') :
    Caller.Agree S (Analysis.callEach direct) (Analysis.callEach direct') := by
  intro n func args
  refine mk (.bind (.newVariable _) fun result _ => .bind (.visible func n) fun bs _ =>
    .bind (.mapM (R := fun _ => True) fun b _ => .bind (.dataOf b) fun d _ =>
      .bind (hdirect n d b args).run fun r _ => .pure trivial) fun tries _ => ?_)
  extract_lets done
  clear_value done
  split
  · split
    · exact .pure trivial
    · exact .pure trivial
  · next hdone =>
    refine .bind (.joinNodes (by simpa using hdone)) fun stop _ =>
      .bind (.forM fun entry _ => ?_) fun _ _ => .pure trivial
    exact .bind (.visible ..) fun rs _ => .forM fun r _ => .bind (.dataOf r) fun _ _ =>
      .bindVariable ..

theorem callFunction {f : FunctionValue} (hf : f.code.code.validate = .ok ())
    (hstep : S.frames.length ≤ S.options.maxDepth → ∀ (s : Shape) (hs : s.Valid),
      (∀ t ∈ S.frames, t.code.place ≠ s.code.place) →
        Analysis.Stepper.Agree (S.push s hs) s.code.code step step') (args : CallArgs) :
    Agree S (Analysis.callFunction step n f args) (Analysis.callFunction step' n f args)
      fun _ => True := by
  refine bind (bindArguments ..) fun bound _ => ?_
  refine bind (checkAnnotated ..) fun _ _ => ?_
  refine bind get fun m hm => ?_
  split
  · exact bind (lift (.newUnsolvable n)) fun _ _ => pure trivial
  · next hactive =>
    have hactive : ∀ t ∈ S.frames, t.code.place ≠ f.code.place := by
      intro t ht
      rw [← hm.frames_eq] at ht
      obtain ⟨g, hg, rfl⟩ := List.mem_map.mp ht
      exact fun h => hactive (List.any_eq_true.mpr ⟨g, hg, beq_iff_eq.mpr h⟩)
    split
    · exact bind (lift (.newUnsolvable n)) fun _ _ => pure trivial
    · next hdepth =>
      have hdepth : S.frames.length ≤ S.options.maxDepth := by
        rw [← hm.frames_eq, ← hm.options_eq]
        simpa [Machine.atMaximumDepth] using hdepth
      refine bind (lift (.newFrame hf ..)) fun frame hframe =>
        bind (lift (.enterNode _)) fun start _ => bind (lift (.runFrame hframe.2.1 hframe.2.2
          (hstep hdepth _ hframe.2.1 fun t ht => ?_) start)) fun r _ => ?_
      · exact fun h => hactive t ht (h.trans (congrArg PlacedCode.place hframe.1))
      obtain ⟨stop, result⟩ := r
      dsimp only
      split
      · refine bind (lift (.libraryClass (Analysis.Agree.needed (by decide)))) fun _ _ => ?_
        refine bind (lift (.newObject_none _)) fun _ _ => ?_
        refine bind (lift (.fillTypeParam ..)) fun _ _ => ?_
        refine bind (lift (.variableWith ..)) fun _ _ => ?_
        exact pure trivial
      · exact pure trivial

theorem instantiateClass (hcall : Caller.Agree S call call') (d : DataId) (c : ClassValue)
    (args : CallArgs) :
    Agree S (Analysis.instantiateClass call n d c args) (Analysis.instantiateClass call' n d c args)
      fun _ => True := by
  unfold Analysis.instantiateClass
  split
  · exact bind (lift (.typeOf _)) fun _ _ => pure trivial
  · extract_lets finish finish'
    have hfinish (d : DataId) : Agree S (finish d) (finish' d) fun _ => True := by
      refine bind (lift (.variableWith ..)) fun v _ => ?_
      refine bind (lift (.allBindings v)) fun bs _ => ?_
      refine bind (lift (.attributeOf ..)) fun o _ => ?_
      cases o with
      | none => exact pure trivial
      | some init => exact bind (hcall n init args) fun _ _ => pure trivial
    split
    · exact bind (lift (.sharedObject _)) fun d _ => hfinish d
    · exact bind (lift (.newObject_none _)) fun d _ => hfinish d

theorem buildClass (hstep : ∀ (s : Shape) (hs : s.Valid),
      Analysis.Stepper.Agree (S.push s hs) s.code.code step step') (args : CallArgs) :
    Agree S (Analysis.buildClass step n args) (Analysis.buildClass step' n args) fun _ => True := by
  unfold Analysis.buildClass
  split
  · refine bind get fun m hm => ?_
    refine bind (lift (.dataAt ..)) fun data _ => ?_
    refine bind (lift (.textIn ..)) fun name _ => ?_
    dsimp only
    split
    · exact bind (lift (.newUnsolvable n)) fun _ _ => pure trivial
    · next f hf =>
      obtain ⟨d, -, hd⟩ := List.exists_of_findSome?_eq_some hf
      have hcode : f.code.code.validate = .ok () := by
        have hgood := hm.values d
        split at hd
        · next hv =>
          cases hd
          rw [hv] at hgood
          exact hgood
        · cases hd
      refine bind (lift (.newFrame hcode ..)) fun frame hframe => ?_
      refine bind (lift (.enterNode name)) fun start _ => ?_
      refine bind (lift (.runFrame hframe.2.1 hframe.2.2 (hstep _ hframe.2.1) start)) fun _ _ => ?_
      refine bind get fun _ _ => ?_
      refine bind (lift (.makeClass ..)) fun _ _ => ?_
      exact pure trivial
  · exact throw _

theorem callSpecial (hstep : ∀ (s : Shape) (hs : s.Valid),
      Analysis.Stepper.Agree (S.push s hs) s.code.code step step')
    (form : SpecialForm) (args : CallArgs) :
    Agree S (Analysis.callSpecial step n form args) (Analysis.callSpecial step' n form args)
      fun _ => True := by
  unfold Analysis.callSpecial
  cases form with
  | super => exact bind (lift (.newUnsolvable n)) fun _ _ => pure trivial
  | isInstance =>
    dsimp only
    split
    · exact bind (lift (.isInstance ..)) fun _ _ => pure trivial
    · exact throw _
  | buildClass => exact buildClass hstep args

/-- Calls of values agree if what they lead to directly does, and the instructions that they run.
Those of a function matter only if there are not too many frames, and if its code is not being
run. -/
theorem callVia (hdirect : ValueCaller.Agree S direct direct')
    (hfunction : S.frames.length ≤ S.options.maxDepth → ∀ (s : Shape) (hs : s.Valid),
      (∀ t ∈ S.frames, t.code.place ≠ s.code.place) →
        Analysis.Stepper.Agree (S.push s hs) s.code.code function function')
    (hclass : ∀ (s : Shape) (hs : s.Valid),
      Analysis.Stepper.Agree (S.push s hs) s.code.code classBody classBody') :
    ValueCaller.Agree S (Analysis.callVia function classBody direct)
      (Analysis.callVia function' classBody' direct') := by
  intro n d b args
  refine bind (lift (.value d)) fun x hx => ?_
  cases x with
  | function f => exact callFunction hx hfunction args
  | native f => exact callLibrary hx args
  | method receiver f => exact hdirect n f b _
  | ofClass c => exact instantiateClass (callEach hdirect) d c args
  | object o =>
    refine bind (lift (.attributeOf ..)) fun method _ => ?_
    cases method with
    | some method => exact callEach hdirect n method args
    | none => exact bind get fun _ _ => throw _
  | module name members => exact bind get fun _ _ => throw _
  | unknown members => exact bind (lift (.newUnknown n)) fun _ _ => pure trivial
  | unsolvable => exact bind (lift (.newUnsolvable n)) fun _ _ => pure trivial
  | special form => exact callSpecial hclass form args

/-- Calls of values agree if the calls that they lead to do. Those from inside of a function matter
only if there are not too many frames. -/
theorem callOnce (hdirect : ValueCaller.Agree S direct direct')
    (hbody : ∀ (s : Shape) (hs : s.Valid), ValueCaller.Agree (S.push s hs) direct direct')
    (hinside : S.frames.length ≤ S.options.maxDepth → ∀ (s : Shape) (hs : s.Valid),
      Caller.Agree (S.push s hs) inside inside') :
    ValueCaller.Agree S (Analysis.callOnce Analysis.step direct inside)
      (Analysis.callOnce Analysis.step direct' inside') := by
  rw [Analysis.callOnce_eq_callVia, Analysis.callOnce_eq_callVia]
  exact callVia hdirect (fun hdepth s hs _ => .stepper (hinside hdepth s hs))
    fun s hs => .stepper (callEach (hbody s hs))

end Attempt.Agree

end ValueTrace
