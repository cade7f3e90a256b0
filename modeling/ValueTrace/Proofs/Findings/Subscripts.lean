import ValueTrace.Proofs.Absorption.Variables
import ValueTrace.Proofs.Machine.Steps
import ValueTrace.Proofs.References.Soundness
import ValueTrace.Proofs.Safety.Readable

/-!
# Subscripts that give nothing

The analysis gives up on a subscript if no value on its left gives anything for it. What has been
reported on the way stays in the log, and unless an operand shows nothing at all, the operands are
reported as well.
-/

namespace ValueTrace

namespace Machine

/-- The finding that a report about the present instruction adds. -/
def finding (m : Machine) (kind : FindingKind) (message : String) (vars : List VarId) : Finding :=
  match m.frames with
  | [] => { kind, message, vars }
  | f :: _ => {
    kind, message, vars
    filename := f.code.code.filename
    function := f.name
    line := f.line
    opcode := f.current.elim "" fun i => i.op.mnemonic }

def typeNames (m : Machine) (v : VarId) (n : NodeId) : String :=
  " or ".intercalate ((m.graph.visibleData v n).map m.store.typeName).eraseDups

def unsupported (m : Machine) (n : NodeId) (method : String) (x y : VarId) : Finding :=
  m.finding .unsupportedOperands
    s!"Unsupported operands for {method}: '{m.typeNames x n}' and '{m.typeNames y n}'" [x, y]

def LacksOperand (m : Machine) (n : NodeId) (x y : VarId) : Prop :=
  m.graph.visible x n = [] ∨ m.graph.visible y n = []

instance (m : Machine) (n : NodeId) (x y : VarId) : Decidable (m.LacksOperand n x y) :=
  inferInstanceAs (Decidable (_ ∨ _))

def operandsReported (m : Machine) (n : NodeId) (method : String) (x y : VarId) : FindingLog :=
  if m.LacksOperand n x y then m.log else m.log.report (m.unsupported n method x y)

def givingUp (m : Machine) (n : NodeId) : Machine := { m with
  graph := ((m.graph.newVariable "unsolvable").2.addBinding m.graph.vars.size unsolvable [] n).2 }

end Machine

namespace Analysis

variable {m m₁ m' : Machine} {call : Caller} {n : NodeId} {x y : VarId} {method : String}
  {p : Path} {rest : List VarId} {code : Code} {options : Options}

theorem report_ok (kind : FindingKind) (message : String) (vars : List VarId) :
    report kind message none vars m =
      .ok () { m with log := m.log.report (m.finding kind message vars) } := by
  obtain ⟨_, _, _, _, _, frames, _, _, _, _⟩ := m
  cases frames <;> rfl

/-- An operator that is not supported gives a value that the analysis has given up on. -/
theorem applyOperator_nothing (h : tryOperator call n method x y m = .ok none m₁) :
    applyOperator call n method x y m = .ok (n, m₁.graph.vars.size)
      (Machine.givingUp { m₁ with log := m₁.operandsReported n method x y } n) := by
  have hx : visible x n m₁ = .ok (m₁.graph.visible x n) m₁ := rfl
  have hy : visible y n m₁ = .ok (m₁.graph.visible y n) m₁ := rfl
  have hlacks : ((m₁.graph.visible x n).isEmpty || (m₁.graph.visible y n).isEmpty) = true ↔
      m₁.LacksOperand n x y := by simp [Machine.LacksOperand]
  unfold applyOperator
  rw [bind_eq_of_ok h]
  refine (bind_eq_of_ok hx).trans ((bind_eq_of_ok hy).trans ?_)
  unfold Machine.operandsReported
  by_cases hl : m₁.LacksOperand n x y
  · rw [if_pos (hlacks.mpr hl), if_pos hl]
    rfl
  · have hleft : typeNames x n m₁ = .ok (m₁.typeNames x n) m₁ := rfl
    have hright : typeNames y n m₁ = .ok (m₁.typeNames y n) m₁ := rfl
    rw [if_neg (mt hlacks.mp hl), if_neg hl]
    exact (bind_eq_of_ok hleft).trans ((bind_eq_of_ok hright).trans (bind_eq_of_ok (report_ok ..)))

/-- The right operand of a subscript has no say in it. -/
theorem tryOperator_subscript (h : tryMethod call n x "__getitem__" y m = .ok none m₁) :
    tryOperator call n "__getitem__" x y m = .ok none m₁ := by
  unfold tryOperator
  rw [bind_eq_of_ok h]
  refine (bind_eq_of_ok (get_ok.mpr ⟨rfl, rfl⟩)).trans ?_
  split <;> rfl

/-- A subscript that gives nothing pushes a value that the analysis has given up on. -/
theorem step_failedSubscript {i : Instruction} (hop : i.op = .binarySubscr)
    (hstack : p.stack = y :: x :: rest)
    (h : tryMethod call p.node x "__getitem__" y m = .ok none m₁) :
    step call i p m = .ok { p with stack := m₁.graph.vars.size :: rest } (Machine.givingUp
      { m₁ with log := m₁.operandsReported p.node "__getitem__" x y } p.node) := by
  have hpop : p.popTwo = .ok (x, y, { p with stack := rest }) := by
    unfold Path.popTwo
    rw [hstack]
  rw [step_binarySubscr hop]
  unfold binaryOperator
  rw [bind_eq_of_ok (liftM_ok.mpr ⟨hpop, rfl⟩)]
  exact bind_eq_of_ok (applyOperator_nothing (tryOperator_subscript h))

/-- The variable that is pushed has one binding, and nothing has to hold for it. -/
theorem givingUp_boundBy (hm : m.Sound) (n : NodeId) :
    ∃ b, (m.givingUp n).graph.BoundBy n m.graph.vars.size Machine.unsolvable b [] := by
  have hw := hm.built.wellFormed
  exact (Graph.OnlyBinds.newVariable hw "unsolvable" _).boundBy (hw.newVariable _)
    (by simp [Graph.newVariable]) [] n

end Analysis

namespace FindingLog

variable {l l' : FindingLog} {f : Finding}

/-- If a log has grown and got a finding, it is as before only if neither has done anything. -/
theorem report_eq_iff_of_extends (h : l.Extends l') :
    l'.report f = l ↔ l' = l ∧ f.key ∈ l.seen := by
  constructor
  · intro heq
    obtain rfl : l' = l := ((Extends.report l' f).trans (heq ▸ .refl _)).antisymm h
    exact ⟨rfl, report_eq_self_iff.mp heq⟩
  · rintro ⟨rfl, hmem⟩
    exact report_eq_self_iff.mpr hmem

end FindingLog

open Analysis

/-- The subscript at the point gives nothing: no value on its left has the method, or what the
method gives is not bound. The machine has come to be another one meanwhile. -/
structure Point.FailsSubscript (pt : Point) (call : Caller) (x y : VarId) (rest : List VarId)
    (m₁ : Machine) : Prop where
  op : pt.instruction.op = .binarySubscr
  stack : pt.path.stack = y :: x :: rest
  nothing : tryMethod call pt.path.node x "__getitem__" y pt.machine = .ok none m₁

open Classical in
/-- Where a subscript gives nothing, a value is pushed that the analysis has given up on. The log is
as it was before if and only if nothing has been reported on the way, and there is nothing to be
said of the operands either. -/
theorem failedSubscript_silent_iff {code : Code} {options : Options}
    (hcode : code.validate = .ok ()) : Always (fun pt => ∀ (depth : Nat) (x y : VarId)
      (rest : List VarId) (m₁ : Machine),
      pt.FailsSubscript (callEach (callValue step depth)) x y rest m₁ →
      ∃ v b m', step (callEach (callValue step depth)) pt.instruction pt.path pt.machine =
          .ok { pt.path with stack := v :: rest } m' ∧
        m'.graph.BoundBy pt.path.node v Machine.unsolvable b [] ∧
        (m'.log = pt.machine.log ↔ m₁.log = pt.machine.log ∧ (m₁.LacksOperand pt.path.node x y ∨
          (m₁.unsupported pt.path.node "__getitem__" x y).key ∈ pt.machine.log.seen)))
      code options := by
  have hany : Always (fun _ => True) code options :=
    always_of_fits hcode fun _ _ _ _ _ _ _ _ => trivial
  refine always_of_sound hcode hany fun pt _ hsound hpath depth x y rest m₁ h => ?_
  have hy : pt.machine.extent.HasVar y := hpath.stack y (by simp [h.stack])
  obtain ⟨hm₁, hle, -⟩ := (Follows.tryMethod (callEach_follows depth) hpath.node x "__getitem__"
    hy).left hsound le_rfl h.nothing
  have hlog : pt.machine.log.Extends m₁.log := hle.log
  obtain ⟨b, hb⟩ := givingUp_boundBy hm₁ pt.path.node
  refine ⟨_, b, _, step_failedSubscript h.op h.stack h.nothing, hb, ?_⟩
  change m₁.operandsReported _ _ x y = _ ↔ _
  unfold Machine.operandsReported
  split
  · next hlacks => simp [hlacks]
  · next hlacks => rw [FindingLog.report_eq_iff_of_extends hlog, or_iff_right hlacks]

/-- `x = None[1]`. -/
def noneSubscript : Code where
  name := "<module>"
  filename := "m.py"
  firstLine := 1
  argCount := 0
  kwonlyArgCount := 0
  flags := 0
  varnames := []
  names := ["x"]
  consts := [.none, .int 1]
  cellvars := []
  freevars := []
  blocks := [{ id := 0, ops := [
    { index := 0, op := .loadConst, arg := some 0, line := 1 },
    { index := 1, op := .loadConst, arg := some 1, line := 1 },
    { index := 2, op := .binarySubscr, line := 1 },
    { index := 3, op := .storeName, arg := some 0, line := 1 },
    { index := 4, op := .loadConst, arg := some 0, line := 1 },
    { index := 5, op := .returnValue, line := 1 }] }]

open Classical in
theorem noneSubscript_silent_iff : noneSubscript.validate = .ok () ∧
    Always (fun pt => ∀ (depth : Nat) (x y : VarId) (rest : List VarId) (m₁ : Machine),
      pt.FailsSubscript (callEach (callValue step depth)) x y rest m₁ →
      ∃ v b m', step (callEach (callValue step depth)) pt.instruction pt.path pt.machine =
          .ok { pt.path with stack := v :: rest } m' ∧
        m'.graph.BoundBy pt.path.node v Machine.unsolvable b [] ∧
        (m'.log = pt.machine.log ↔ m₁.log = pt.machine.log ∧ (m₁.LacksOperand pt.path.node x y ∨
          (m₁.unsupported pt.path.node "__getitem__" x y).key ∈ pt.machine.log.seen)))
      noneSubscript {} := by
  have hvalid : noneSubscript.validate = .ok () := by decide
  exact ⟨hvalid, failedSubscript_silent_iff hvalid⟩

/-- Whether the subscript at the point, if it gives nothing, leaves the log as it is. -/
def Point.keepsLog (pt : Point) (call : Caller) : Bool :=
  match pt.instruction.op, pt.path.stack with
  | .binarySubscr, y :: x :: _ =>
    match tryMethod call pt.path.node x "__getitem__" y pt.machine,
      step call pt.instruction pt.path pt.machine with
    | .ok none _, .ok _ m' => m'.log = pt.machine.log
    | _, _ => true
  | _, _ => true

theorem noneSubscript_checked :
    analyzeWith (stepTracked (checked fun pt =>
      pt.keepsLog (callEach (callValue step 1)) = true) 1) noneSubscript {} =
        .error strayPoint := by
  unfold analyzeWith Machine.make
  rw [Library.builtins_eq]
  decide +kernel

/-- The subscript of `None` gives nothing, and it is reported. -/
theorem noneSubscript_not_silent : noneSubscript.validate = .ok () ∧
    ¬ Always (fun pt => pt.keepsLog (callEach (callValue step 1)) = true) noneSubscript {} := by
  have hvalid : noneSubscript.validate = .ok () := by decide
  have hoptions : ({} : Options).validate = .ok () := by decide
  exact ⟨hvalid, not_always hvalid hoptions noneSubscript_checked⟩

end ValueTrace
