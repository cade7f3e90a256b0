import ValueTrace.Proofs.Machine.Steps
import ValueTrace.Proofs.References.Soundness

/-!
# Loading literals

At every point of a run a literal is loaded without fail, and what is put on the stack is the
variable that all who load the literal share. It holds the value of the literal, and nothing else,
just where its first binding can hold and no copy of another value can.
-/

namespace ValueTrace

namespace Analysis

variable {α β σ : Type} {S : Setting} {s : Shape} {x : Analysis α} {f : α → Analysis β}
  {Q : α → Prop} {R : β → Prop} {m m' : Machine}

def Completes (S : Setting) (x : Analysis α) (Q : α → Prop) : Prop :=
  ∀ m, S.Fits m → ∃ a m', x m = .ok a m' ∧ S.Fits m' ∧ Q a

namespace Completes

theorem of_safe (h : Safe S x Q) (hx : ∀ m, ∃ a m', x m = .ok a m') : Completes S x Q := by
  intro m hm
  obtain ⟨a, m', hr⟩ := hx m
  have hleft := h.agrees m hm
  rw [hr] at hleft
  rcases hleft with ⟨m'', hout⟩ | ⟨-, hfits, hQ⟩
  · cases hout
  · exact ⟨a, m', hr, hfits, hQ⟩

theorem pure {a : α} (h : Q a) : Completes S (pure a) Q := fun m hm => ⟨a, m, rfl, hm, h⟩

theorem get : Completes S get S.Fits := fun m hm => ⟨m, m, rfl, hm, hm⟩

theorem bind (hx : Completes S x Q) (hf : ∀ a, Q a → Completes S (f a) R) :
    Completes S (x >>= f) R := by
  intro m hm
  obtain ⟨a, m₁, hx, hm₁, ha⟩ := hx m hm
  obtain ⟨b, m₂, hf, hm₂, hb⟩ := hf a ha m₁ hm₁
  exact ⟨b, m₂, (bind_eq_of_ok hx).trans hf, hm₂, hb⟩

theorem mapM {f : σ → Analysis β} {l : List σ} (h : ∀ a ∈ l, Completes S (f a) fun _ => True) :
    Completes S (l.mapM f) fun _ => True := by
  induction l with
  | nil => exact pure trivial
  | cons a l ih =>
    rw [List.mapM_cons]
    exact bind (h a List.mem_cons_self) fun _ _ =>
      bind (ih fun c hc => h c (List.mem_cons_of_mem a hc)) fun _ _ => pure trivial

theorem forM {f : σ → Analysis Unit} {l : List σ} (h : ∀ a ∈ l, Completes S (f a) fun _ => True) :
    Completes S (l.forM f) fun _ => True := by
  induction l with
  | nil => exact pure trivial
  | cons a l ih =>
    exact bind (h a List.mem_cons_self) fun _ _ => ih fun c hc => h c (List.mem_cons_of_mem a hc)

theorem libraryClass {name : String} (hname : (S.library.class? name).isSome) :
    Completes S (libraryClass name) fun _ => True := by
  intro m hm
  obtain ⟨d, m', hrun, hfound⟩ := libraryClass_ok hname hm
  exact ⟨d, m', hrun, hfound.1, trivial⟩

theorem newObject (cls : DataId) {payload : Option Payload}
    (h : ∀ c, payload = some (.code c) → c.code.validate = .ok ()) :
    Completes S (newObject cls payload) fun _ => True := by
  refine bind get fun _ _ => bind (mapM fun name _ => bind
    (of_safe (Agree.newVariable name) fun m => ⟨_, _, rfl⟩) fun _ _ => pure trivial) fun _ _ =>
      of_safe (Agree.addValue ?_) fun m => ⟨_, _, rfl⟩
  rcases payload with _ | _ | _ | c
  · trivial
  · trivial
  · trivial
  · exact h c rfl

theorem fillTypeParam (d : DataId) (param : String) (items : List VarId) (n : NodeId) :
    Completes S (fillTypeParam d param items n) fun _ => True := by
  unfold Analysis.fillTypeParam
  refine bind get fun m _ => ?_
  split
  · exact forM fun item _ => of_safe (Agree.paste ..) fun m => ⟨_, _, rfl⟩
  · exact pure trivial

theorem tupleObject (items : List VarId) (n : NodeId) :
    Completes S (tupleObject items n) fun _ => True := by
  refine bind (libraryClass (Agree.needed (by decide))) fun _ _ => ?_
  refine bind (newObject _ fun _ h => by cases h) fun _ _ => ?_
  refine bind (fillTypeParam _ _ _ _) fun _ _ => ?_
  exact pure trivial

mutual

theorem constant (place : List Nat) (c : Constant) (hc : c.validate = .ok ()) :
    Completes S (constant place c) fun _ => True := by
  unfold Analysis.constant
  refine bind get fun m _ => ?_
  split
  · exact pure trivial
  · refine bind get fun m _ => bind (libraryClass (Agree.needed (Agree.className_needed _ c)))
      fun cls _ => ?_
    extract_lets finish
    have hfinish (d : DataId) : Completes S (finish d) fun _ => True :=
      bind (of_safe (Agree.variableWith ..) fun m => ⟨_, _, rfl⟩) fun _ _ =>
        bind (of_safe (Agree.share fun _ => rfl) fun m => ⟨_, _, rfl⟩) fun _ _ => pure trivial
    split
    · next items _ =>
      exact bind (constants place 0 items (by simpa [Constant.validate] using hc)) fun _ _ =>
        bind (tupleObject _ _) fun d _ => hfinish d
    · refine bind (newObject cls fun c h => ?_) fun d _ => hfinish d
      cases h
      simpa [Constant.validate] using hc
    · exact bind (newObject cls fun _ h => by cases h) fun d _ => hfinish d
termination_by sizeOf c

theorem constants (place : List Nat) (i : Nat) (cs : List Constant)
    (hcs : Constant.validateAll cs = .ok ()) :
    Completes S (constants place i cs) fun _ => True := by
  cases cs with
  | nil =>
    unfold Analysis.constants
    exact pure trivial
  | cons c cs =>
    rw [Constant.validateAll, Except.bind_eq_ok] at hcs
    obtain ⟨_, hc, hcs⟩ := hcs
    unfold Analysis.constants
    exact bind (constant _ c hc) fun _ _ => bind (constants place _ cs hcs) fun _ _ => pure trivial
termination_by sizeOf cs

end

theorem literalVar (s : String) : Completes S (literalVar (.str s)) fun _ => True :=
  bind (constant [] (.str s) rfl) fun _ _ => pure trivial

end Completes

def Leaves (m : Machine) (x : Analysis α) (L : α → Machine → Prop) : Prop :=
  ∀ a m', x m = .ok a m' → L a m'

namespace Leaves

variable {L : α → Machine → Prop} {N : β → Machine → Prop}

theorem pure {a : α} (h : L a m) : Leaves m (pure a) L := by
  rintro _ _ hr
  obtain ⟨rfl, rfl⟩ := pure_ok.mp hr
  exact h

theorem get_bind {f : Machine → Analysis β} (h : Leaves m (f m) N) : Leaves m (get >>= f) N := by
  intro b m' hr
  obtain ⟨_, _, hget, hr⟩ := bind_ok.mp hr
  obtain ⟨rfl, rfl⟩ := get_ok.mp hget
  exact h b m' hr

theorem bind (h : ∀ a m', Leaves m' (f a) N) : Leaves m (x >>= f) N := by
  intro b m' hr
  obtain ⟨a, m₁, -, hr⟩ := bind_ok.mp hr
  exact h a m₁ b m' hr

/-- A literal is shared once it has been found or made. -/
theorem constant (place : List Nat) (c : Constant) (m : Machine) :
    Leaves m (constant place c) fun r m' => m'.shared.constants[c.key place]? = some r := by
  unfold Analysis.constant
  refine get_bind ?_
  split
  · next known hknown => exact pure hknown
  · refine bind fun _ _ => bind fun cls _ => ?_
    extract_lets finish
    have hfinish (d : DataId) (m : Machine) :
        Leaves m (finish d) fun r m' => m'.shared.constants[c.key place]? = some r := by
      refine bind fun v m' => ?_
      intro r m'' hr
      obtain ⟨_, _, hshare, hr⟩ := bind_ok.mp hr
      obtain ⟨rfl, rfl⟩ := pure_ok.mp hr
      obtain rfl := modify_ok.mp hshare
      exact Std.TreeMap.getElem?_insert_self
    split
    · exact bind fun _ _ => bind fun d m' => hfinish d m'
    · exact bind fun d m' => hfinish d m'
    · exact bind fun d m' => hfinish d m'

end Leaves

/-- What holds wherever the machine fits its frames, and the instruction the code of the innermost
one, holds at every point. -/
theorem always_of_fitsCode {P : Point → Prop} [DecidablePred P] {code : Code} {options : Options}
    (hcode : code.validate = .ok ())
    (hP : ∀ (S : Setting) (es : List Entry) (s : Shape) (hs : s.Valid) (i : Instruction) (p : Path)
      (m : Machine), (S.push s hs).Fits m → i.FitsCode s.code.code → P ⟨es, i, p, m⟩) :
    Always P code options := by
  intro fuel
  rw [analyzeWithin, ← stepTracked_const]
  cases hm : Machine.make options with
  | error e => rw [analyzeWith_of_make_error hm, analyzeWith_of_make_error hm]
  | ok m =>
    have hleft : AgreeWhereEntered options (fun _ => step) (checked P) := by
      intro S es s hs call call' _ _ hcall i p hi hp
      refine ⟨fun m hm => ?_⟩
      unfold checked
      rw [if_pos (hP S es s hs i p m hm hi)]
      exact (Agree.step hcall rfl hi hp).agrees m hm
    have hright : AgreeWhereEntered options (checked P) fun _ => step := by
      intro S es s hs call call' _ _ hcall i p hi hp
      refine ⟨fun m hm => ?_⟩
      unfold checked
      rw [if_pos (hP S es s hs i p m hm hi)]
      exact (Agree.step hcall rfl hi hp).agrees m hm
    rcases analyzeWith_agree_stepTracked hcode hm hleft fuel with hout | ⟨heq, -⟩
    · rcases analyzeWith_agree_stepTracked hcode hm hright fuel with hout' | ⟨heq, -⟩
      · exact hout'.trans hout.symm
      · exact heq.symm
    · exact heq

end Analysis

/-- The literal that the argument of the instruction refers to, and the place where it stands. -/
def Point.literal? (pt : Point) : Option (List Nat × Constant) := do
  let k ← pt.instruction.arg
  let f ← pt.machine.frames.head?
  let c ← f.code.code.consts[k]?
  return (f.code.place ++ [k], c)

def Point.FindsLiteral (pt : Point) : Prop :=
  ∃ place c r m', pt.literal? = some (place, c) ∧ Analysis.constant place c pt.machine = .ok r m'

namespace Analysis

open Classical in
/-- A literal is found or made wherever it is loaded. -/
theorem finds_literal {code : Code} {options : Options} (hcode : code.validate = .ok ()) :
    Always (fun pt => pt.instruction.op = .loadConst → pt.FindsLiteral) code options := by
  refine always_of_fitsCode hcode fun S es s hs i p m hm hi hop => ?_
  dsimp only at hop
  obtain ⟨k, hk⟩ := Option.isSome_iff_exists.mp (hi.arg (by rw [hop]; rfl))
  have hlt : k < s.code.code.consts.length := by
    have htable : CodeTable.ofOp? i.op = some .consts := by rw [hop]; rfl
    have hentry := hi.entry htable
    rwa [hk] at hentry
  obtain ⟨f, fs, hf⟩ : ∃ f fs, m.frames = f :: fs := by
    cases hf : m.frames with
    | nil =>
      have hframes := hm.frames_eq
      rw [hf] at hframes
      cases hframes
    | cons f fs => exact ⟨f, fs, rfl⟩
  have hshape : f.shape = s := by
    have hframes := hm.frames_eq
    rw [hf] at hframes
    exact (List.cons.inj hframes).1
  have hcode : f.code = s.code := congrArg Shape.code hshape
  have hc : s.code.code.consts[k]? = some s.code.code.consts[k] := List.getElem?_eq_getElem hlt
  have hvalid := Agree.validate_of_mem (Code.validate_ok hs.code_ok).2 (List.getElem_mem hlt)
  obtain ⟨r, m', hrun, -⟩ :=
    Completes.constant (S := S.push s hs) (s.code.place ++ [k]) _ hvalid m hm
  refine ⟨_, _, r, m', ?_, hrun⟩
  unfold Point.literal?
  simp [hk, hf, hcode, hc]

/-- Where a literal is found or made, its variable is pushed. -/
theorem step_loadConst {pt : Point} {place : List Nat} {c : Constant} {r : DataId × VarId}
    {m' : Machine} (hop : pt.instruction.op = .loadConst) (hc : pt.literal? = some (place, c))
    (hrun : constant place c pt.machine = .ok r m') (call : Caller) :
    step call pt.instruction pt.path pt.machine = .ok (pt.path.push r.2) m' := by
  unfold Point.literal? at hc
  obtain ⟨k, harg, hc⟩ := Option.bind_eq_some_iff.mp hc
  obtain ⟨f, hf, hc⟩ := Option.bind_eq_some_iff.mp hc
  obtain ⟨c', hget, hc⟩ := Option.bind_eq_some_iff.mp hc
  cases hc
  obtain ⟨fs, hframes⟩ := List.head?_eq_some_iff.mp hf
  have hconst : constAt pt.instruction pt.machine = .ok r.2 m' := by
    unfold constAt
    rw [bind_eq_of_ok (entryAt_ok hframes harg hget),
      bind_eq_of_ok (frame_ok.mpr ⟨⟨fs, hframes⟩, rfl⟩),
      bind_eq_of_ok (argument_ok.mpr ⟨harg, rfl⟩), bind_eq_of_ok hrun]
    rfl
  unfold step
  rw [hop]
  exact bind_eq_of_ok hconst

end Analysis

/-- The variable is the one that all who load the literal share, and the binding is its first one.
Only the value of the literal can be seen in it just where this binding can hold and no copy of
another value can. -/
structure Machine.SharesLiteral (m : Machine) (n : NodeId) (place : List Nat) (c : Constant)
    (d : DataId) (v : VarId) (b : BindingId) : Prop where
  shared : m.shared.constants[c.key place]? = some (d, v)
  literal : m.store.HasLiteral m.graph (c.key place) d v b
  plain : c.isPlain = true → m.store.payload? d = some (.constant c)
  alone_iff : m.graph.visibleData v n = [d] ↔
    m.graph.isVisible b n = true ∧
      ∀ a ∈ m.graph.allBindings v, a ≠ b → m.graph.isVisible a n = false
  /-- Where nothing has been copied to the variable, a walk has to lead back to the root on which
  all conditions are met. -/
  untouched_iff : m.graph.Untouched root v b →
    (m.graph.visibleData v n = [d] ↔ m.graph.Connected root n)

/-- The instruction puts the variable on the stack that all who load its literal share. -/
def Point.LoadsLiteral (pt : Point) : Prop :=
  ∃ place c d v b m', pt.literal? = some (place, c) ∧
    (∀ call, Analysis.step call pt.instruction pt.path pt.machine = .ok (pt.path.push v) m') ∧
    m'.SharesLiteral pt.path.node place c d v b

open Analysis

open Classical in
/-- Wherever a literal is loaded, its own variable is pushed, which shows the value of the literal
alone just where its first binding can hold and no copy of another value can. -/
theorem literal_loaded {code : Code} {options : Options} (hcode : code.validate = .ok ()) :
    Always (fun pt => pt.instruction.op = .loadConst → pt.LoadsLiteral) code options := by
  refine always_of_sound hcode (finds_literal hcode) fun pt hfinds hsound _ hop => ?_
  obtain ⟨place, c, ⟨d, v⟩, m', hc, hrun⟩ := hfinds hop
  have hshared := Leaves.constant place c pt.machine _ _ hrun
  have hsound' : m'.Sound := by
    rcases (Follows.constant place c).follows pt.machine hsound le_rfl with ⟨_, hstray⟩ | ⟨-, hleft⟩
    · rw [hrun] at hstray
      cases hstray
    · rw [hrun] at hleft
      exact hleft.1
  obtain ⟨b, hb⟩ := hsound'.literals _ _ _ hshared
  have hdata := hb.grounded.visibleData_eq_iff (n := pt.path.node) hsound'.built
  refine ⟨place, c, d, v, b, m', hc, step_loadConst hop hc hrun, hshared, hb, hb.payload_eq, hdata,
    fun hfree => hdata.trans ?_⟩
  rw [hfree.isVisible_iff hsound'.built]
  refine and_iff_left fun a ha hne => absurd ?_ hne
  rw [hfree.1] at ha
  exact List.mem_singleton.mp ha

/-- A loop that is entered with the literal `1` on the stack and goes back with the literal `"s"` in
its place. Behind the loop `1` is loaded again. -/
def wornLiteral : Code where
  name := "<module>"
  filename := "m.py"
  firstLine := 1
  argCount := 0
  kwonlyArgCount := 0
  flags := 0
  varnames := []
  names := ["__random__"]
  consts := [.int 1, .str "s"]
  cellvars := []
  freevars := []
  blocks := [{ id := 0, ops := [{ index := 0, op := .loadConst, arg := some 0, line := 1 }] },
    { id := 1, ops := [
      { index := 1, op := .loadName, arg := some 0, line := 1 },
      { index := 2, op := .popJumpIfFalse, arg := some 6, line := 1, target := some 6 }] },
    { id := 2, ops := [
      { index := 3, op := .popTop, line := 1 },
      { index := 4, op := .loadConst, arg := some 1, line := 1 },
      { index := 5, op := .jumpAbsolute, arg := some 1, line := 1, target := some 1 }] },
    { id := 3, ops := [
      { index := 6, op := .loadConst, arg := some 0, line := 1 },
      { index := 7, op := .returnValue, line := 1 }] }]

open Classical in
theorem wornLiteral_loaded : wornLiteral.validate = .ok () ∧
    Always (fun pt => pt.instruction.op = .loadConst → pt.LoadsLiteral) wornLiteral {} := by
  have hvalid : wornLiteral.validate = .ok () := by decide
  exact ⟨hvalid, literal_loaded hvalid⟩

/-- Nothing but the value of the literal can be seen in its variable when it is loaded. -/
def Point.showsLiteral (pt : Point) : Bool :=
  pt.literal?.any fun (place, c) =>
    match constant place c pt.machine with
    | .ok (d, v) m => m.graph.visibleData v pt.path.node == [d]
    | .error .. => false

theorem wornLiteral_checked :
    analyzeWith (stepTracked (checked fun pt =>
      pt.instruction.index = 6 → pt.showsLiteral = true) 0) wornLiteral {} = .error strayPoint := by
  unfold analyzeWith Machine.make
  rw [Library.builtins_eq]
  decide +kernel

/-- The way back has copied the other value to the variable of the literal, so that both can be seen
when the literal is loaded behind the loop. -/
theorem wornLiteral_shows_more : wornLiteral.validate = .ok () ∧
    ¬ Always (fun pt => pt.instruction.index = 6 → pt.showsLiteral = true) wornLiteral {} := by
  have hvalid : wornLiteral.validate = .ok () := by decide
  have hoptions : ({} : Options).validate = .ok () := by decide
  exact ⟨hvalid, not_always hvalid hoptions wornLiteral_checked⟩

end ValueTrace
