import ValueTrace.Proofs.Absorption.Operations
import ValueTrace.Proofs.References.Soundness

/-!
# Values that have been given up absorb what is done with them

Once the analysis has given up on all that can be in a variable, nothing that is done with the
variable fails or leads to a finding, and whatever comes of it has been given up as well. This holds
at every point of a run, at every node, and however deep calls may be nested.
-/

namespace ValueTrace

/-- How many bounds lie on top of the object that the operation takes a slice of. -/
def Op.sliceBounds? : Op → Option Nat
  | .slice0 => some 0
  | .slice1 | .slice2 => some 1
  | .slice3 => some 2
  | _ => none

def Op.callsOperand : Op → Bool
  | .unaryNegative | .unaryPositive | .unaryInvert | .getIter => true
  | _ => false

namespace Machine

def Silently {α : Type} (m : Machine) (x : Analysis α) (Q : α → Machine → Prop) : Prop :=
  ∃ a m', x m = .ok a m' ∧ m'.log = m.log ∧ Q a m'

open Analysis in
/-- Whatever is done with the variable at the node succeeds, says nothing, and gives what has been
given up. -/
structure Absorbs (m : Machine) (call : Caller) (n : NodeId) (v : VarId) : Prop where
  load (name : String) : m.Silently (loadAttribute n v name) fun w m' => m'.GivesUp n w
  load? (name : String) :
    m.Silently (loadAttribute? n v name) fun o m' => ∃ w, o = some w ∧ m'.GivesUp n w
  called (args : CallArgs) :
    m.Silently (callOrReport call n v args) fun r m' => m'.GivesUp r.1 r.2
  method (name : String) (args : List VarId) :
    m.Silently (callMethod call n v name args) fun r m' => m'.GivesUp r.1 r.2
  operator (i : Instruction) (p : Path) (y : VarId) (rest : List VarId) : p.node = n →
    p.stack = y :: v :: rest → i.op.binaryMethod?.isSome ∨ i.op.inplaceMethods?.isSome →
      m.Silently (step call i p) (Quiet.Pushes p rest)
  slice (i : Instruction) (p : Path) (bounds rest : List VarId) : p.node = n →
    p.stack = bounds ++ v :: rest → i.op.sliceBounds? = some bounds.length →
      m.Silently (step call i p) (Quiet.Pushes p rest)
  operand (i : Instruction) (p : Path) (rest : List VarId) : p.node = n → p.stack = v :: rest →
    i.op.callsOperand = true → m.Silently (step call i p) (Quiet.Pushes p rest)
  unpack (i : Instruction) (count : Nat) (p : Path) (rest : List VarId) : p.node = n →
    p.stack = v :: rest → i.op = .unpackSequence → i.arg = some count →
      m.Silently (step call i p) fun q m' => ∃ items, items.length = count ∧
        q = { p with stack := items ++ rest } ∧ ∀ w ∈ items, m'.GivesUp n w
  importFrom (name : String) (p : Path) (rest : List VarId) : p.node = n → p.stack = v :: rest →
    m.Silently (importFrom name p) (Quiet.Pushes p p.stack)

end Machine

namespace Analysis.Quiet

variable {α : Type} {m : Machine} {x : Analysis α} {Q R : α → Machine → Prop} {call : Caller}
  {n : NodeId} {v : VarId}

theorem silently (h : Quiet False m m x Q) (hQ : ∀ a m', Q a m' → R a m') : m.Silently x R := by
  unfold Quiet at h
  cases hr : x m with
  | ok a m' =>
    rw [hr] at h
    exact ⟨a, m', hr, h.1.log, hQ a m' h.2⟩
  | error e m' =>
    rw [hr] at h
    exact h.elim

theorem absorbs (hcall : call.Absorbs) (hm : m.Sound)
    (hslice : ∃ d m', libraryClass "slice" m = .ok d m') (hv : m.GivesUp n v) :
    m.Absorbs call n v where
  load name := (loadAttribute hm hv name).silently fun _ _ h => h
  load? name := (loadAttribute? hm hv name).silently fun _ _ h => h
  called args := by
    refine (callOrReport hcall hm hv args).silently ?_
    rintro _ m' ⟨w, rfl, hw⟩
    exact hw
  method name args := by
    refine (callMethod hcall hm hv name args).silently ?_
    rintro _ m' ⟨w, rfl, hw⟩
    exact hw
  operator i p y rest hn hp hop := by
    subst hn
    have hstep : step call i p = Analysis.runOperator call i.op p := by
      unfold step
      cases hi : i.op <;> first
        | rfl
        | exact subscript_eq call p
        | simp [hi, Op.binaryMethod?, Op.inplaceMethods?] at hop
    rw [hstep]
    exact (runOperator hcall hm hv hp hop).silently fun _ _ h => h
  slice i p bounds rest hn hp hop := by
    subst hn
    have hstep (k : Nat) (hk : i.op.sliceBounds? = some k) :
        step call i p = Analysis.loadSlice call k p := by
      unfold step
      cases hi : i.op <;> rw [hi] at hk <;> cases hk <;> rfl
    rw [hstep _ hop]
    exact (loadSlice hcall hm hv hslice hp).silently fun _ _ h => h
  operand i p rest hn hp hop := by
    subst hn
    unfold step
    cases hi : i.op <;> rw [hi] at hop <;> cases hop
    · exact (unaryOperator hcall hm hv hp "__pos__").silently fun _ _ h => h
    · exact (unaryOperator hcall hm hv hp "__neg__").silently fun _ _ h => h
    · exact (unaryOperator hcall hm hv hp "__invert__").silently fun _ _ h => h
    · exact (getIterator hcall hm hv hp).silently fun _ _ h => h
  unpack i count p rest hn hp hop harg := by
    subst hn
    have hstep : step call i p = Analysis.unpack count p := by
      unfold step argument
      rw [hop, harg]
      rfl
    rw [hstep]
    exact (unpack hm hv hp count).silently fun _ _ h => h
  importFrom name p rest hn hp := by
    subst hn
    exact (importFrom hm hv hp name).silently fun _ _ h => h

end Analysis.Quiet

open Analysis

/-- The class of slices is there at every point. -/
private theorem slice_found {code : Code} {options : Options} (hcode : code.validate = .ok ())
    [DecidablePred fun pt : Point => ∃ d m', libraryClass "slice" pt.machine = .ok d m'] :
    Always (fun pt => ∃ d m', libraryClass "slice" pt.machine = .ok d m') code options := by
  refine always_of_fits hcode fun S es i p m _ _ hfits => ?_
  obtain ⟨d, m', hrun, -⟩ := libraryClass_ok (Agree.needed (n := "slice") (by decide)) hfits
  exact ⟨d, m', hrun⟩

open Classical in
/-- At every point of a run, what can only hold what has been given up absorbs whatever is done with
it. -/
theorem givenUp_absorbed {code : Code} {options : Options} (hcode : code.validate = .ok ()) :
    Always (fun pt => ∀ (n : NodeId) (v : VarId) (depth : Nat), pt.machine.GivesUp n v →
      pt.machine.Absorbs (callEach (callValue step (depth + 1))) n v) code options := by
  refine always_of_sound hcode (slice_found hcode) fun pt hslice hsound _ n v depth hv => ?_
  exact Quiet.absorbs (Quiet.callEach (Quiet.callValue step depth)) hsound hslice hv

/-- `x = undefined_name + 1`, and then `x.y(x)`. -/
def lostName : Code where
  name := "<module>"
  filename := "m.py"
  firstLine := 1
  argCount := 0
  kwonlyArgCount := 0
  flags := 0
  varnames := []
  names := ["undefined_name", "x", "y"]
  consts := [.int 1, .none]
  cellvars := []
  freevars := []
  blocks := [{ id := 0, ops := [
    { index := 0, op := .loadName, arg := some 0, line := 1 },
    { index := 1, op := .loadConst, arg := some 0, line := 1 },
    { index := 2, op := .binaryAdd, line := 1 },
    { index := 3, op := .storeName, arg := some 1, line := 1 },
    { index := 4, op := .loadName, arg := some 1, line := 2 },
    { index := 5, op := .loadAttr, arg := some 2, line := 2 },
    { index := 6, op := .loadName, arg := some 1, line := 2 },
    { index := 7, op := .callFunction, arg := some 1, line := 2 },
    { index := 8, op := .popTop, line := 2 },
    { index := 9, op := .loadConst, arg := some 1, line := 2 },
    { index := 10, op := .returnValue, line := 2 }] }]

/-- Whether something is added to what has been given up, and nothing but that is pushed and nothing
is reported. -/
def Point.addsToLost (pt : Point) (call : Caller) : Bool :=
  match pt.instruction.op, pt.path.stack with
  | .binaryAdd, _ :: x :: _ =>
    match step call pt.instruction pt.path pt.machine with
    | .ok q m' =>
      let pushed := q.stack.head?.map (m'.graph.visibleData · q.node)
      pt.machine.graph.visibleData x pt.path.node = [Machine.unsolvable] &&
        pushed = some [Machine.unsolvable] && m'.log = pt.machine.log
    | .error _ _ => false
  | _, _ => false

theorem lostName_checked :
    analyzeWith (stepTracked (checked fun pt => pt.addsToLost (callEach (callValue step 1)) = false) 1)
      lostName {} = .error strayPoint := by
  unfold analyzeWith Machine.make
  rw [Library.builtins_eq]
  decide +kernel

open Classical in
/-- The program comes to such a point, and all of its points absorb what has been given up. -/
theorem lostName_absorbed : lostName.validate = .ok () ∧
    (¬ Always (fun pt => pt.addsToLost (callEach (callValue step 1)) = false) lostName {}) ∧
    Always (fun pt => ∀ (n : NodeId) (v : VarId) (depth : Nat), pt.machine.GivesUp n v →
      pt.machine.Absorbs (callEach (callValue step (depth + 1))) n v) lostName {} := by
  have hvalid : lostName.validate = .ok () := by decide
  have hoptions : ({} : Options).validate = .ok () := by decide
  exact ⟨hvalid, not_always hvalid hoptions lostName_checked, givenUp_absorbed hvalid⟩

end ValueTrace
