import ValueTrace.Program
import ValueTrace.Proofs.Flow.Steps

/-!
# Frames are left as they were entered

Whatever a frame does, it does to itself. So when it is left the frames below are as they were, and
the same goes for calls, however deep they are nested.
-/

namespace ValueTrace.Analysis

variable {α : Type} {step : Stepper} {n : NodeId}

/-- However an instruction leads paths, it does so in the innermost frame. -/
def Stepper.StaysInside (step : Stepper) : Prop := ∀ i p, Leads (fun _ _ => True) (step i p)

namespace Leads

variable {D : Nat → Path → Prop} {x : Analysis α}

theorem mapFailure {f : Failure → Failure} (h : Leads D x) : Leads D (mapFailure f x) := by
  refine ⟨fun m => ?_⟩
  have hm := h.leads m
  unfold Analysis.mapFailure
  cases hx : x m with
  | ok a m' =>
    rw [hx] at hm
    exact hm
  | error e m' =>
    rw [hx] at hm
    exact hm

theorem mapM {β : Type} {f : α → Analysis β} {l : List α} (h : ∀ a ∈ l, Leads D (f a)) :
    Leads D (l.mapM f) := by
  induction l with
  | nil => exact of_keeps (.pure [])
  | cons a l ih =>
    rw [List.mapM_cons]
    exact bind (h a List.mem_cons_self) fun _ =>
      before (ih fun b hb => h b (List.mem_cons_of_mem _ hb)) fun _ => .pure _

/-- Running an instruction leads to where the instruction itself leads. -/
theorem runInstruction {i : Instruction} {p : Path} (h : Leads D (step i p)) :
    Leads D (runInstruction step i p) :=
  after (.modify fun _ => rfl) fun _ => bind (modifyFrame fun _ => .of_same rfl rfl) fun _ =>
    before (mapFailure h) fun _ => .pure _

theorem runInstructions (hstep : step.StaysInside) (last : Instruction) (p : Path)
    (is : List Instruction) : Leads (fun _ _ => True) (runInstructions step last p is) := by
  induction is generalizing last p with
  | nil => exact of_keeps (.pure _)
  | cons i is ih =>
    unfold Analysis.runInstructions
    split
    · exact of_keeps (.pure _)
    · exact bind (runInstruction (hstep i p)) fun q => ih i q

theorem runBlock (hstep : step.StaysInside) (b : Block) (p : Path) :
    Leads (fun _ _ => True) (runBlock step b p) := by
  unfold Analysis.runBlock
  cases b.ops with
  | nil => exact of_keeps (.pure _)
  | cons i is =>
    refine bind (runInstruction (hstep i p)) fun q =>
      bind (runInstructions hstep i q is) fun r => ?_
    obtain ⟨last, r⟩ := r
    dsimp only
    split
    · exact of_keeps (.pure _)
    · exact of_keeps (.pure _)
    · exact of_keeps (.pure _)
    · exact before ((unwind ..).weaken fun _ _ _ => trivial) fun _ => .pure _
    · split
      · exact before ((storeJump ..).weaken fun _ _ _ => trivial) fun _ => .pure _
      · exact of_keeps (.pure _)

theorem runEntries (hstep : step.StaysInside) (b : Block) :
    Leads (fun _ _ => True) (runEntries step b) := by
  unfold Analysis.runEntries
  split
  · refine after .frame fun f => ?_
    dsimp only
    split
    · exact of_keeps (.pure _)
    · exact bind (modifyFrame fun _ => .of_same rfl rfl) fun _ =>
        before (mapM fun p _ => runBlock hstep b p) fun _ => .pure _
  · exact of_keeps (.pure _)

end Leads

namespace Spares

theorem withFrame {D : Nat → Path → Prop} {x : Analysis α} (h : Leads D x) (f : Frame) :
    KeepsFrames (withFrame f x) := by
  refine ⟨fun m => ?_⟩
  have hm := h.leads { m with frames := f :: m.frames }
  have hback {m' : Machine} (h : LeadsInnermost D (f :: m.frames) m'.frames ∧
      m'.options = m.options) : (m'.frames.tail, m'.options) = m.standing :=
    Prod.ext h.1.tail_eq h.2
  unfold Analysis.withFrame
  cases hx : x { m with frames := f :: m.frames } with
  | ok a m' =>
    rw [hx] at hm
    exact hback hm
  | error e m' =>
    rw [hx] at hm
    exact hback hm

/-- When a frame is left, whether it succeeds or not, the frames below are as they were. -/
theorem runFrame (hstep : step.StaysInside) (f : Frame) (n : NodeId) :
    KeepsFrames (runFrame step f n) := by
  unfold Analysis.runFrame
  dsimp only
  split
  · refine bind (withFrame (.before (.mapM fun b _ => .runEntries hstep b) fun _ => .pure _) _)
      fun returns => ?_
    split
    · exact pure _
    · exact bind (joinNodes _) fun _ => pure _
  · exact throw _

end Spares

end Analysis

namespace Attempt.KeepsFrames

variable {step : Analysis.Stepper} {n : NodeId}

theorem callFunction (hstep : step.StaysInside) (f : FunctionValue) (args : CallArgs) :
    KeepsFrames (Analysis.callFunction step n f args) := by
  unfold Analysis.callFunction
  refine bind (bindArguments ..) fun bound => ?_
  refine bind (checkAnnotated ..) fun _ => ?_
  refine bind get fun m => ?_
  split
  · exact bind (lift (.newUnsolvable n)) fun _ => pure _
  · split
    · exact bind (lift (.newUnsolvable n)) fun _ => pure _
    · refine bind (lift (.newFrame ..)) fun frame => ?_
      refine bind (lift (.enterNode ..)) fun start => ?_
      refine bind (lift (.runFrame hstep ..)) fun r => ?_
      obtain ⟨stop, result⟩ := r
      dsimp only
      split
      · refine bind (lift (.libraryClass _)) fun _ => ?_
        refine bind (lift (.newObject ..)) fun _ => ?_
        refine bind (lift (.fillTypeParam ..)) fun _ => ?_
        refine bind (lift (.variableWith ..)) fun _ => ?_
        exact pure _
      · exact pure _

theorem buildClass (hstep : step.StaysInside) (args : CallArgs) :
    KeepsFrames (Analysis.buildClass step n args) := by
  unfold Analysis.buildClass
  split
  · refine bind get fun m => ?_
    refine bind (lift (.dataAt ..)) fun data => ?_
    refine bind (lift (.textIn ..)) fun name => ?_
    dsimp only
    split
    · exact bind (lift (.newUnsolvable n)) fun _ => pure _
    · refine bind (lift (.newFrame ..)) fun frame => ?_
      refine bind (lift (.enterNode ..)) fun start => ?_
      refine bind (lift (.runFrame hstep ..)) fun r => ?_
      refine bind get fun m => ?_
      refine bind (lift (.makeClass ..)) fun _ => ?_
      exact pure _
  · exact throw _

theorem callSpecial (hstep : step.StaysInside) (form : SpecialForm) (args : CallArgs) :
    KeepsFrames (Analysis.callSpecial step n form args) := by
  unfold Analysis.callSpecial
  split
  · exact bind (lift (.newUnsolvable n)) fun _ => pure _
  · split
    · exact bind (lift (.isInstance ..)) fun _ => pure _
    · exact throw _
  · exact buildClass hstep args

/-- However deep calls are nested, they leave the frames as they are. -/
theorem callValue (fuel : Nat) (n : NodeId) (d : DataId) (b : BindingId) (args : CallArgs) :
    KeepsFrames (Analysis.callValue Analysis.step fuel n d b args) := by
  induction fuel generalizing n d b args with
  | zero => exact Analysis.Spares.map (.throw _)
  | succ fuel ih =>
    have hcall := Analysis.Spares.callEach ih
    have hstep :
        (Analysis.step (Analysis.callEach (Analysis.callValue Analysis.step fuel))).StaysInside :=
      fun i p => (Analysis.Leads.step hcall i p).weaken fun _ _ _ => trivial
    unfold Analysis.callValue
    refine bind (lift (.value d)) fun x => ?_
    cases x with
    | function f => exact callFunction hstep f args
    | native f => exact callLibrary f args
    | method receiver f => exact ih ..
    | ofClass c => exact instantiateClass hcall d c args
    | object o =>
      refine bind (lift (.attributeOf ..)) fun o => ?_
      split
      · exact hcall ..
      · exact bind get fun m => throw _
    | module name members => exact bind get fun m => throw _
    | unknown members => exact bind (lift (.newUnknown n)) fun _ => pure _
    | unsolvable => exact bind (lift (.newUnsolvable n)) fun _ => pure _
    | special form => exact callSpecial hstep form args

end Attempt.KeepsFrames

namespace Analysis

/-- Calls with a bound on their depth leave the frames as they are. -/
theorem callEach_keepsFrames (fuel : Nat) : (callEach (callValue step fuel)).KeepsFrames :=
  Spares.callEach (Attempt.KeepsFrames.callValue fuel)

/-- An instruction leads paths to its target only, however deep calls are nested. -/
theorem stepWithin_leads (fuel : Nat) (i : Instruction) (p : Path) :
    Leads (i.LeadsTo p.regions) (stepWithin fuel i p) :=
  Leads.step (callEach_keepsFrames fuel) i p

end Analysis

end ValueTrace
