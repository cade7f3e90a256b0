import ValueTrace.Proofs.Findings.Rollback
import ValueTrace.Proofs.Graph.Growth
import ValueTrace.Proofs.Machine.Steps
import ValueTrace.Step.Instruction

/-! What an instruction does to the operands of its path and to its regions. An instruction that
lets the path go on takes a number of operands from the top and puts others there; what lies below
stays as it is. -/
namespace ValueTrace

/-- How many operands are taken from the stack, and how many are put there instead. -/
structure StackEffect where
  pops : Nat
  pushes : Nat
  deriving DecidableEq, Repr

def functionOperands (third : Bool) (counts : Nat) : Nat :=
  if third then counts / 65536 + 2 * (counts / 256 % 256) + counts % 256 else counts

def callOperandCount (counts : Nat) : Nat := 2 * (counts / 256 % 256) + counts % 256

/-- The effect of an operation. A few depend on the argument of the instruction, on the version of
the language, or on whether there is nothing on top. -/
def Op.stackEffect (op : Op) (third : Bool) (arg : Nat) (nothing : Bool) : StackEffect :=
  match op with
  | .nop | .popExcept | .printNewline | .deleteName | .deleteGlobal | .deleteFast | .jumpForward
  | .jumpAbsolute | .jumpIfTrue | .jumpIfFalse | .setupLoop | .setupExcept | .setupFinally
  | .popBlock | .breakLoop | .continueLoop => ⟨0, 0⟩
  | .popTop | .printExpr | .printItem | .printNewlineTo | .storeName | .storeFast | .storeGlobal
  | .storeDeref | .storeLocals | .deleteAttr | .listAppend | .setAdd | .popJumpIfTrue
  | .popJumpIfFalse | .jumpIfTrueOrPop | .jumpIfFalseOrPop | .importStar | .returnValue
  | .yieldValue => ⟨1, 0⟩
  | .printItemTo | .storeAttr | .storeMap | .mapAdd | .deleteSubscr => ⟨2, 0⟩
  | .execStmt | .storeSubscr => ⟨3, 0⟩
  | .dupTop | .loadConst | .loadName | .loadGlobal | .loadFast | .loadClosure | .loadDeref
  | .loadLocals | .buildMap | .forIter | .loadBuildClass | .importFrom => ⟨0, 1⟩
  | .unaryNot | .unaryNegative | .unaryPositive | .unaryInvert | .unaryConvert | .loadAttr
  | .getIter => ⟨1, 1⟩
  | .binaryPower | .binaryMultiply | .binaryDivide | .binaryModulo | .binaryAdd | .binarySubtract
  | .binarySubscr | .binaryFloorDivide | .binaryTrueDivide | .binaryLshift | .binaryRshift
  | .binaryAnd | .binaryXor | .binaryOr
  | .inplaceFloorDivide | .inplaceTrueDivide | .inplaceAdd | .inplaceSubtract | .inplaceMultiply
  | .inplaceDivide | .inplaceModulo | .inplacePower | .inplaceLshift | .inplaceRshift | .inplaceAnd
  | .inplaceXor | .inplaceOr | .compareOp | .importName => ⟨2, 1⟩
  | .buildClass => ⟨3, 1⟩
  | .setupWith => ⟨1, 2⟩
  | .rotTwo => ⟨2, 2⟩
  | .rotThree => ⟨3, 3⟩
  | .rotFour => ⟨4, 4⟩
  | .dupTopTwo => ⟨2, 4⟩
  | .dupTopx => ⟨arg, 2 * arg⟩
  | .buildTuple | .buildList | .buildSet | .buildSlice => ⟨arg, 1⟩
  | .unpackSequence => ⟨1, arg⟩
  | .raiseVarargs => ⟨arg, 0⟩
  | .slice0 => ⟨1, 1⟩
  | .slice1 | .slice2 => ⟨2, 1⟩
  | .slice3 => ⟨3, 1⟩
  | .storeSlice0 => ⟨2, 0⟩
  | .storeSlice1 | .storeSlice2 => ⟨3, 0⟩
  | .storeSlice3 => ⟨4, 0⟩
  | .deleteSlice0 => ⟨1, 0⟩
  | .deleteSlice1 | .deleteSlice2 => ⟨2, 0⟩
  | .deleteSlice3 => ⟨3, 0⟩
  | .withCleanup => if nothing then ⟨2, 1⟩ else ⟨4, 3⟩
  | .endFinally => if nothing then ⟨1, 0⟩ else ⟨3, 0⟩
  | .callFunction => ⟨callOperandCount arg + 1, 1⟩
  | .callFunctionVar | .callFunctionKw => ⟨callOperandCount arg + 2, 1⟩
  | .callFunctionVarKw => ⟨callOperandCount arg + 3, 1⟩
  | .makeFunction => ⟨functionOperands third arg + (if third then 2 else 1), 1⟩
  | .makeClosure => ⟨functionOperands third arg + (if third then 3 else 2), 1⟩

def Machine.nothingOnTop (m : Machine) (p : Path) : Bool :=
  match p.stack with
  | v :: _ => (m.graph.visibleData v p.node).all m.store.isNone
  | [] => true

/-- The topmost operands of a path have been replaced by so many others. -/
structure Path.Replaces (p : Path) (pops pushes : Nat) (q : Path) : Prop where
  pops_le : pops ≤ p.stack.length
  stack : ∃ vs, vs.length = pushes ∧ q.stack = vs ++ p.stack.drop pops

/-- The instruction has entered a region, of one of these kinds and with the present height. -/
def Instruction.Enters (i : Instruction) (kinds : List RegionKind) (height : Nat)
    (before after : List Region) : Prop :=
  ∃ kind ∈ kinds, ∃ handler, i.target = some handler ∧ after = ⟨kind, handler, height⟩ :: before

/-- The regions that a path of this height was in, and those that it is in after the instruction.
The kind of a context depends on the version of the language. Its height includes the way out,
which has taken the place of the context. -/
def Instruction.Reshapes (i : Instruction) (height : Nat) (before after : List Region) : Prop :=
  match i.op with
  | .setupLoop => i.Enters [.loop] height before after
  | .setupExcept => i.Enters [.handled] height before after
  | .setupFinally => i.Enters [.cleanup] height before after
  | .setupWith => i.Enters [.cleanup, .context] height before after
  | .popBlock => ∃ r, before = r :: after
  | _ => after = before

/-- What an instruction does to a path. Nothing is said of the operands of a path that ends. -/
structure Path.Advances (p : Path) (i : Instruction) (e : StackEffect) (q : Path) : Prop where
  replaces : q.stop = none → p.Replaces e.pops e.pushes q
  regions : i.Reshapes p.stack.length p.regions q.regions
  /-- A loop is continued by one operation only. -/
  continued : q.stop = some .continued → p.stop = some .continued ∨ i.op = .continueLoop
  /-- Of the operations that control does not go on from, plain jumps do not stop the path. -/
  jumped : q.stop = none → i.op.isTerminator = true → i.op = .jumpForward ∨ i.op = .jumpAbsolute

/-- The topmost operands have been replaced, and the path is in the regions that it was in. -/
structure Path.Trades (p : Path) (pops pushes : Nat) (q : Path) : Prop
    extends p.Replaces pops pushes q where
  regions : q.regions = p.regions
  steady : q.stop = some .continued → p.stop = some .continued

namespace Path.Trades

variable {p q r : Path} {a b c : Nat}

theorem refl (p : Path) : p.Trades 0 0 p := ⟨⟨Nat.zero_le _, [], rfl, rfl⟩, rfl, id⟩

theorem congr (h : p.Trades a b q) (hs : r.stack = q.stack) (hr : r.regions = q.regions)
    (hstop : r.stop = some .continued → q.stop = some .continued) : p.Trades a b r :=
  ⟨⟨h.pops_le, hs ▸ h.stack⟩, hr.trans h.regions, fun hc => h.steady (hstop hc)⟩

theorem cast {a' b' : Nat} (h : p.Trades a b q) (ha : a = a') (hb : b = b') :
    p.Trades a' b' q := ha ▸ hb ▸ h

theorem withNode (h : p.Trades a b q) (n : NodeId) : p.Trades a b { q with node := n } :=
  h.congr rfl rfl id

/-- What has been popped, one time after the other. -/
theorem trans (h : p.Trades a 0 q) (h' : q.Trades b c r) : p.Trades (a + b) c r := by
  obtain ⟨⟨ha, vs, hvs, hq⟩, hreg, hstop⟩ := h
  obtain ⟨⟨hb, ws, hws, hr⟩, hreg', hstop'⟩ := h'
  obtain rfl := List.eq_nil_of_length_eq_zero hvs
  rw [List.nil_append] at hq
  refine ⟨⟨?_, ws, hws, by rw [hr, hq, List.drop_drop]⟩, hreg'.trans hreg,
    fun hc => hstop (hstop' hc)⟩
  rw [hq, List.length_drop] at hb
  omega

theorem push (h : p.Trades a b q) (v : VarId) : p.Trades a (b + 1) (q.push v) := by
  obtain ⟨⟨ha, vs, hvs, hq⟩, hreg, hstop⟩ := h
  refine ⟨⟨ha, v :: vs, by simp [hvs], ?_⟩, hreg, hstop⟩
  change v :: q.stack = _
  rw [hq, List.cons_append]

theorem pushAll (h : p.Trades a b q) (vs : List VarId) :
    p.Trades a (b + vs.length) (q.pushAll vs) := by
  induction vs generalizing b q with
  | nil => exact h
  | cons v vs ih => exact (ih (h.push v)).cast rfl (by simp only [List.length_cons]; omega)

theorem of_drop (ha : a ≤ p.stack.length) :
    p.Trades a 0 { p with stack := p.stack.drop a } := ⟨⟨ha, [], rfl, rfl⟩, rfl, id⟩

end Path.Trades

namespace Path

variable {p q : Path} {n : Nat} {v x y z : VarId} {vs : List VarId}

theorem pop_ok (h : p.pop = .ok (v, q)) :
    p.Trades 1 0 q ∧ p.stack = v :: q.stack ∧ q.node = p.node := by
  unfold pop at h
  cases hs : p.stack with
  | nil =>
    rw [hs] at h
    cases h
  | cons w stack =>
    rw [hs] at h
    cases h
    exact ⟨⟨⟨by simp [hs], [], rfl, by simp [hs]⟩, rfl, id⟩, rfl, rfl⟩

theorem discard_ok (h : p.discard = .ok q) : p.Trades 1 0 q := by
  unfold discard at h
  cases hp : p.pop with
  | error e =>
    rw [hp] at h
    cases h
  | ok r =>
    rw [hp] at h
    cases h
    exact (pop_ok hp).1

theorem popN_ok (h : p.popN n = .ok (vs, q)) : p.Trades n 0 q ∧ vs.length = n := by
  unfold popN at h
  split_ifs at h with hn
  cases h
  have hn : n ≤ p.stack.length := Nat.le_of_not_lt hn
  exact ⟨.of_drop hn, by simp [hn]⟩

theorem popTwo_ok (h : p.popTwo = .ok (x, y, q)) : p.Trades 2 0 q := by
  unfold popTwo at h
  split at h
  · next hs =>
    cases h
    exact ⟨⟨by simp [hs], [], rfl, by simp [hs]⟩, rfl, id⟩
  · cases h

theorem popThree_ok (h : p.popThree = .ok (x, y, z, q)) : p.Trades 3 0 q := by
  unfold popThree at h
  split at h
  · next hs =>
    cases h
    exact ⟨⟨by simp [hs], [], rfl, by simp [hs]⟩, rfl, id⟩
  · cases h

theorem discardN_ok (h : p.discardN n = .ok q) : p.Trades n 0 q := by
  unfold discardN at h
  cases hp : p.popN n with
  | error e =>
    rw [hp] at h
    cases h
  | ok r =>
    rw [hp] at h
    cases h
    exact (popN_ok hp).1

theorem rotate_ok (h : p.rotate n = .ok q) : p.Trades n n q := by
  unfold rotate at h
  cases hp : p.popN n with
  | error e =>
    rw [hp] at h
    cases h
  | ok r =>
    rw [hp] at h
    cases h
    obtain ⟨hr, hvs⟩ := popN_ok hp
    refine (hr.pushAll _).cast rfl ?_
    rw [← hvs]
    cases hl : r.1.getLast? with
    | none => simp [List.getLast?_eq_none_iff.mp hl]
    | some w =>
      have hne : r.1 ≠ [] := by
        rintro hnil
        rw [hnil] at hl
        cases hl
      have hpos := List.length_pos_iff.mpr hne
      simp only [Option.toList_some, List.length_append, List.length_singleton,
        List.length_dropLast]
      omega

theorem duplicate_ok (h : p.duplicate n = .ok q) : p.Trades n (2 * n) q := by
  unfold duplicate at h
  cases hp : p.popN n with
  | error e =>
    rw [hp] at h
    cases h
  | ok r =>
    rw [hp] at h
    cases h
    obtain ⟨hr, hvs⟩ := popN_ok hp
    exact ((hr.pushAll _).pushAll _).cast rfl (by omega)

/-! Operands that are there can be taken. -/

variable {rest : List VarId}

theorem pop_eq (h : p.stack = x :: rest) : p.pop = .ok (x, { p with stack := rest }) := by
  unfold pop
  rw [h]

theorem popTwo_eq (h : p.stack = y :: x :: rest) :
    p.popTwo = .ok (x, y, { p with stack := rest }) := by
  unfold popTwo
  rw [h]

theorem popThree_eq (h : p.stack = z :: y :: x :: rest) :
    p.popThree = .ok (x, y, z, { p with stack := rest }) := by
  unfold popThree
  rw [h]

theorem popN_eq (h : p.stack = vs.reverse ++ rest) (hn : n = vs.length) :
    p.popN n = .ok (vs, { p with stack := rest }) := by
  subst hn
  unfold popN
  rw [h, if_neg (by simp), ← List.length_reverse, List.take_left, List.drop_left,
    List.reverse_reverse]

theorem peek_eq (h : p.stack[n]? = some x) : p.peek (n + 1) = .ok x := by
  unfold peek
  dsimp only
  rw [h]
  rfl

end Path

namespace Analysis

variable {α β : Type} {m : Machine} {x : Analysis α} {f : α → Analysis β} {P : α → Prop}
  {Q : β → Prop}

def Yields (m : Machine) (x : Analysis α) (P : α → Prop) : Prop := ∀ a m', x m = .ok a m' → P a

namespace Yields

theorem any (x : Analysis α) : Yields m x fun _ => True := fun _ _ _ => trivial

theorem pure {a : α} (h : P a) : Yields m (pure a) P := fun _ _ hx => (pure_ok.mp hx).1 ▸ h

theorem throw (e : Failure) : Yields m (throw e : Analysis α) P :=
  fun _ _ hx => (throw_ok.mp hx).elim

theorem bind (hx : Yields m x P) (hf : ∀ a, P a → ∀ {m}, Yields m (f a) Q) :
    Yields m (x >>= f) Q := by
  intro b m' h
  obtain ⟨a, m₁, ha, hb⟩ := bind_ok.mp h
  exact hf a (hx a m₁ ha) b m' hb

theorem skip (hf : ∀ a {m}, Yields m (f a) Q) : Yields m (x >>= f) Q :=
  bind (any x) fun a _ => hf a

theorem weaken {P' : α → Prop} (h : Yields m x P) (hP : ∀ a, P a → P' a) : Yields m x P' :=
  fun a m' hx => hP a (h a m' hx)

theorem ofExcept {z : Except Failure α} (h : ∀ a, z = .ok a → P a) : Yields m (liftM z) P :=
  fun a _ hx => h a (liftM_ok.mp hx).1

theorem get {f : Machine → Analysis β} (hf : Yields m (f m) Q) : Yields m (get >>= f) Q :=
  fun b m' h => hf b m' ((bind_eq_of_ok (get_ok.mpr ⟨rfl, rfl⟩)).symm.trans h)

theorem lift {z : Except Failure α} (hf : ∀ a, z = .ok a → Yields m (f a) Q) :
    Yields m (liftM z >>= f) Q := by
  intro b m' h
  obtain ⟨a, m₁, ha, hb⟩ := bind_ok.mp h
  obtain ⟨hz, rfl⟩ := liftM_ok.mp ha
  exact hf a hz b m' hb

theorem isAllNone {f : Bool → Analysis β} {v : VarId} {n : NodeId}
    (hf : Yields m (f ((m.graph.visibleData v n).all m.store.isNone)) Q) :
    Yields m (isAllNone v n >>= f) Q := by
  have hread : Analysis.isAllNone v n m =
      .ok ((m.graph.visibleData v n).all m.store.isNone) m := rfl
  exact fun b m' h => hf b m' ((bind_eq_of_ok hread).symm.trans h)

theorem argument {i : Instruction} {f : Nat → Analysis β} (hf : Yields m (f (i.arg.getD 0)) Q) :
    Yields m (argument i >>= f) Q := by
  unfold Analysis.argument
  cases harg : i.arg with
  | none =>
    intro b m' h
    obtain ⟨_, _, ht, _⟩ := bind_ok.mp h
    exact (throw_ok.mp ht).elim
  | some n =>
    rw [harg] at hf
    exact hf

theorem target {i : Instruction} {f : Nat → Analysis β}
    (hf : ∀ dest, i.target = some dest → Yields m (f dest) Q) :
    Yields m (target i >>= f) Q := by
  unfold Analysis.target
  cases ht : i.target with
  | none =>
    intro b m' h
    obtain ⟨_, _, ht, _⟩ := bind_ok.mp h
    exact (throw_ok.mp ht).elim
  | some dest => exact hf dest ht

variable {p q : Path} {a b : Nat} {call : Caller} {i : Instruction}

theorem pop (h : p.Trades a 0 q) : Yields m (liftM q.pop) fun r => p.Trades (a + 1) 0 r.2 :=
  ofExcept fun _ hr => h.trans (Path.pop_ok hr).1

theorem discard (h : p.Trades a 0 q) : Yields m (liftM q.discard) (p.Trades (a + 1) 0) :=
  ofExcept fun _ hr => h.trans (Path.discard_ok hr)

theorem popN (h : p.Trades a 0 q) (n : Nat) :
    Yields m (liftM (q.popN n)) fun r => p.Trades (a + n) 0 r.2 ∧ r.1.length = n :=
  ofExcept fun _ hr => ⟨h.trans (Path.popN_ok hr).1, (Path.popN_ok hr).2⟩

theorem popTwo (h : p.Trades a 0 q) :
    Yields m (liftM q.popTwo) fun r => p.Trades (a + 2) 0 r.2.2 :=
  ofExcept fun _ hr => h.trans (Path.popTwo_ok hr)

theorem popThree (h : p.Trades a 0 q) :
    Yields m (liftM q.popThree) fun r => p.Trades (a + 3) 0 r.2.2.2 :=
  ofExcept fun _ hr => h.trans (Path.popThree_ok hr)

theorem discardN (h : p.Trades a 0 q) (n : Nat) :
    Yields m (liftM (q.discardN n)) (p.Trades (a + n) 0) :=
  ofExcept fun _ hr => h.trans (Path.discardN_ok hr)

theorem forward (h : p.Trades a b q) : Yields m (grow q.forward) (p.Trades a b) := by
  intro r m' hg
  obtain ⟨g, hf, -⟩ := grow_ok.mp hg
  obtain ⟨rfl, -⟩ := Graph.forward_ok hf
  exact h.congr rfl rfl id

/-- What has been computed goes on top. -/
theorem pushed (h : p.Trades a b q) (x : Analysis VarId) :
    Yields m (do return q.push (← x)) (p.Trades a (b + 1)) :=
  skip fun v => pure (h.push v)

/-- The path has gone on to the node after a call, with the result on top. -/
theorem withResult (h : p.Trades a b q) (r : NodeId × VarId) :
    p.Trades a (b + 1) ({ q with node := r.1 }.push r.2) :=
  (h.withNode r.1).push r.2

theorem storeName (ns : NamespaceId) (name : String) (p : Path) :
    Yields m (storeName ns name p) (p.Trades 1 0) :=
  bind (pop (.refl p)) fun _ h => skip fun _ => forward h

theorem storeCell (cell : VarId) (p : Path) : Yields m (storeCell cell p) (p.Trades 1 0) :=
  bind (pop (.refl p)) fun _ h => skip fun _ => forward h

theorem storeLocals (p : Path) : Yields m (storeLocals p) (p.Trades 1 0) := by
  refine bind (pop (.refl p)) fun _ h => ?_
  refine skip fun _ => ?_
  refine skip fun _ => ?_
  refine skip fun _ => ?_
  refine skip fun _ => ?_
  exact pure h

theorem loadLocals (p : Path) : Yields m (loadLocals p) (p.Trades 0 1) := by
  refine skip fun _ => ?_
  refine skip fun _ => ?_
  refine skip fun _ => ?_
  refine skip fun _ => ?_
  refine skip fun _ => ?_
  exact pushed (.refl p) _

theorem binaryOperator (method : String) (p : Path) :
    Yields m (binaryOperator call method p) (p.Trades 2 1) :=
  bind (popTwo (.refl p)) fun _ h => skip fun r => pure (withResult h r)

theorem subscript (call : Caller) (p : Path) : Yields m (subscript call p) (p.Trades 2 1) := by
  rw [subscript_eq]
  exact binaryOperator _ p

theorem inplaceOperator (inplace binary : String) (p : Path) :
    Yields m (inplaceOperator call inplace binary p) (p.Trades 2 1) := by
  refine bind (popTwo (.refl p)) fun r h => skip fun o => ?_
  split
  · exact pure (withResult h _)
  · exact skip fun r => pure (withResult h r)

theorem unaryOperator (method : String) (p : Path) :
    Yields m (unaryOperator call method p) (p.Trades 1 1) :=
  bind (pop (.refl p)) fun _ h => skip fun r => pure (withResult h r)

theorem unaryNot (p : Path) : Yields m (unaryNot p) (p.Trades 1 1) := by
  refine bind (pop (.refl p)) fun _ h => ?_
  refine skip fun v => ?_
  refine skip fun _ => ?_
  refine skip fun _ => ?_
  exact pure (h.push v)

theorem unaryConvert (p : Path) : Yields m (unaryConvert p) (p.Trades 1 1) :=
  bind (discard (.refl p)) fun _ h => skip fun _ => pushed h _

theorem compareOperands (number : Nat) (p : Path) :
    Yields m (compareOperands call number p) (p.Trades 2 1) := by
  unfold Analysis.compareOperands
  refine bind (popTwo (.refl p)) fun r h => ?_
  obtain ⟨x, y, q⟩ := r
  cases Comparison.ofNat? number with
  | none => exact throw _
  | some c =>
    dsimp only
    split
    · refine skip fun o => ?_
      split
      · next n result => exact pure (withResult h (n, result))
      · exact skip fun _ => pushed h _
    · split
      · exact pushed h _
      · exact pushed h _
      · exact pushed h _

theorem buildTuple (count : Nat) (p : Path) : Yields m (buildTuple count p) (p.Trades count 1) :=
  bind (popN (.refl p) count) fun _ h => skip fun _ => (pushed h.1 _).weaken fun _ h =>
    h.cast (Nat.zero_add _) rfl

theorem buildContainer (cls : String) (count : Nat) (p : Path) :
    Yields m (buildContainer cls count p) (p.Trades count 1) := by
  refine bind (popN (.refl p) count) fun _ h => ?_
  refine skip fun _ => ?_
  refine skip fun _ => ?_
  refine skip fun _ => ?_
  exact (pushed h.1 _).weaken fun _ h => h.cast (Nat.zero_add _) rfl

theorem buildMap (p : Path) : Yields m (buildMap p) (p.Trades 0 1) :=
  skip fun _ => skip fun _ => pushed (.refl p) _

theorem buildSlice (count : Nat) (p : Path) : Yields m (buildSlice count p) (p.Trades count 1) :=
  bind (discardN (.refl p) count) fun _ h => (pushed h _).weaken fun _ h =>
    h.cast (Nat.zero_add _) rfl

theorem storeItem (h : p.Trades a b q) (obj key v : VarId) :
    Yields m (storeItem call obj key v q) (p.Trades a b) :=
  skip fun _ => pure (h.congr rfl rfl id)

theorem addEntry (depth : Analysis Nat) (p : Path) :
    Yields m (addEntry call depth p) (p.Trades 2 0) := by
  refine bind (popTwo (.refl p)) fun _ h => ?_
  refine skip fun _ => ?_
  refine skip fun _ => ?_
  exact storeItem h _ _ _

theorem addItem (method : String) (depth : Analysis Nat) (p : Path) :
    Yields m (addItem call method depth p) (p.Trades 1 0) := by
  refine bind (pop (.refl p)) fun _ h => ?_
  refine skip fun _ => ?_
  refine skip fun _ => ?_
  refine skip fun _ => ?_
  exact pure (h.congr rfl rfl id)

theorem storeSubscript (p : Path) : Yields m (storeSubscript call p) (p.Trades 3 0) :=
  bind (popThree (.refl p)) fun _ h => bind (storeItem h _ _ _) fun _ h => forward h

theorem deleteSubscript (p : Path) : Yields m (deleteSubscript call p) (p.Trades 2 0) :=
  bind (popTwo (.refl p)) fun _ h => skip fun _ => pure (h.congr rfl rfl id)

theorem loadSlice (bounds : Nat) (p : Path) :
    Yields m (loadSlice call bounds p) (p.Trades (bounds + 1) 1) := by
  refine bind (discardN (.refl p) bounds) fun _ h => ?_
  refine bind (pop h) fun _ h => ?_
  refine skip fun _ => ?_
  refine skip fun r => ?_
  exact pure ((withResult h r).cast (by omega) rfl)

theorem storeSlice (bounds : Nat) (p : Path) :
    Yields m (storeSlice call bounds p) (p.Trades (bounds + 2) 0) := by
  refine bind (discardN (.refl p) bounds) fun _ h => ?_
  refine bind (pop h) fun _ h => ?_
  refine bind (pop h) fun _ h => ?_
  refine skip fun _ => ?_
  exact (storeItem h _ _ _).weaken fun _ h => h.cast (by omega) rfl

theorem deleteSlice (bounds : Nat) (p : Path) :
    Yields m (deleteSlice call bounds p) (p.Trades (bounds + 1) 0) := by
  refine bind (discardN (.refl p) bounds) fun _ h => ?_
  refine bind (pop h) fun _ h => ?_
  refine skip fun _ => ?_
  refine skip fun _ => ?_
  exact pure (Path.Trades.congr (h.cast (by omega) rfl) rfl rfl id)

private theorem mapM_length {σ τ : Type} (f : σ → Analysis τ) (l : List σ) :
    Yields m (l.mapM f) fun out => out.length = l.length := by
  induction l generalizing m with
  | nil => exact pure rfl
  | cons a l ih =>
    rw [List.mapM_cons]
    exact skip fun b => bind ih fun bs hbs => pure (by simp [hbs])

theorem unpack (count : Nat) (p : Path) : Yields m (unpack count p) (p.Trades 1 count) := by
  refine bind (pop (.refl p)) fun _ h => ?_
  refine bind (mapM_length _ _) fun outputs hout => ?_
  refine skip fun _ => ?_
  refine skip fun _ => ?_
  refine pure ((h.pushAll outputs.reverse).cast rfl ?_)
  rw [List.length_reverse, hout, List.length_range, Nat.zero_add]

theorem jump (p : Path) : Yields m (jump i p) (p.Trades 0 0) := by
  refine skip fun _ => ?_
  refine bind (forward (.refl p)) fun _ h => ?_
  refine skip fun _ => ?_
  exact pure h

theorem getIterator (p : Path) : Yields m (getIterator call p) (p.Trades 1 1) := by
  unfold Analysis.getIterator
  refine bind (pop (.refl p)) fun r h => skip fun o => ?_
  split
  · exact skip fun r => pure (withResult h r)
  · refine skip fun o => ?_
    split
    · exact pushed h _
    · exact pushed h _

theorem nextItem (p : Path) : Yields m (nextItem call i p) (p.Trades 0 1) := by
  refine skip fun _ => ?_
  refine skip fun _ => ?_
  refine skip fun _ => ?_
  refine skip fun _ => ?_
  refine skip fun _ => ?_
  refine skip fun r => ?_
  exact pure (withResult (.refl p) r)

theorem returnValue (p : Path) :
    Yields m (returnValue p) fun q => p.Trades 1 0 q ∧ q.stop.isSome := by
  refine bind (pop (.refl p)) fun _ h => ?_
  refine skip fun _ => ?_
  refine skip fun _ => ?_
  exact pure ⟨h.congr rfl rfl nofun, rfl⟩

theorem yieldValue (p : Path) : Yields m (yieldValue p) (p.Trades 1 0) := by
  refine bind (pop (.refl p)) fun _ h => ?_
  refine skip fun _ => ?_
  refine skip fun _ => ?_
  exact pure (h.congr rfl rfl nofun)

theorem raise (count : Nat) (p : Path) :
    Yields m (raise count p) fun q => p.Trades count 0 q ∧ q.stop.isSome := by
  unfold Analysis.raise
  split
  · next hcount =>
    have h : p.Trades count 0 p := (Path.Trades.refl p).cast hcount.symm rfl
    split
    all_goals refine skip fun e => ?_
    all_goals exact pure ⟨h.congr rfl rfl nofun, rfl⟩
  · refine bind (popN (.refl p) count) fun _ h => ?_
    refine skip fun _ => ?_
    refine skip fun m => ?_
    intro _
    have h := h.1.cast (Nat.zero_add count) rfl
    split
    · exact pure ⟨h.congr rfl rfl nofun, rfl⟩
    · exact pure ⟨h.congr rfl rfl fun hc => (by split at hc <;> cases hc), rfl⟩

theorem callOperands (counts : Nat) (star starStar : Option VarId) (h : p.Trades a 0 q) :
    Yields m (callOperands call counts star starStar q)
      (p.Trades (a + (callOperandCount counts + 1)) 1) := by
  unfold Analysis.callOperands
  refine bind (popN h _) fun _ h => ?_
  refine skip fun _ => ?_
  refine bind (popN h.1 _) fun r h => ?_
  refine bind (pop h.1) fun s h => ?_
  obtain ⟨func, t⟩ := s
  have h : p.Trades (a + (callOperandCount counts + 1)) 0 t :=
    h.cast (by unfold callOperandCount; omega) rfl
  intro m
  cases star with
  | none => exact skip fun _ => skip fun r => pure (withResult h r)
  | some v => exact skip fun _ => skip fun r => pure (withResult h r)

theorem popIf (present : Bool) (h : p.Trades a 0 q) :
    Yields m (callWith.popIf present q) fun r => p.Trades (a + present.toNat) 0 r.2 := by
  unfold callWith.popIf
  cases present with
  | true => exact bind (pop h) fun _ h => pure h
  | false => exact pure h

theorem callWith (hasStar hasStarStar : Bool) (p : Path) :
    Yields m (callWith call i hasStar hasStarStar p)
      (p.Trades (callOperandCount (i.arg.getD 0) + 1 + hasStar.toNat + hasStarStar.toNat) 1) :=
  argument (bind (popIf hasStarStar (.refl p)) fun _ h => bind (popIf hasStar h) fun _ h =>
    (callOperands _ _ _ h).weaken fun _ h => h.cast (by omega) rfl)

theorem popAnnotated (count : Nat) (h : p.Trades a 0 q) :
    Yields m (popAnnotated count q) fun r => p.Trades (a + count) 0 r.2 := by
  unfold Analysis.popAnnotated
  split
  · next hcount => exact pure (h.cast (by rw [hcount, Nat.add_zero]) rfl)
  · refine bind (pop h) fun _ h => ?_
    refine bind (popN h _) fun _ h => ?_
    refine skip fun _ => ?_
    refine skip fun _ => ?_
    refine skip fun _ => ?_
    exact pure (h.1.cast (by omega) rfl)

/-- Below its code a function has as many operands as the version of the language says. -/
theorem popFunctionParts (counts : Nat) (hasClosure : Bool) (h : p.Trades a 0 q) :
    Yields m (popFunctionParts counts hasClosure q) fun r =>
      p.Trades (a + (functionOperands m.options.isThird counts + hasClosure.toNat)) 0 r.2 := by
  unfold Analysis.popFunctionParts
  refine get ?_
  extract_lets third finish
  have hfinish (r : List VarId × Path) (hr : p.Trades (a + hasClosure.toNat) 0 r.2) {m : Machine} :
      Yields m (finish r) fun r =>
        p.Trades (a + (functionOperands third counts + hasClosure.toNat)) 0 r.2 := by
    dsimp only [finish]
    unfold functionOperands
    split
    · refine bind (popAnnotated _ hr) fun _ h => ?_
      refine bind (popN h _) fun _ h => ?_
      refine skip fun _ => ?_
      refine bind (popN h.1 _) fun _ h => ?_
      exact pure (h.1.cast (by omega) rfl)
    · exact bind (popN hr _) fun _ h => pure (h.1.cast (by omega) rfl)
  cases hasClosure with
  | true =>
    exact bind (pop h) fun _ h => skip fun _ =>
      bind (P := fun r : List VarId × Path => p.Trades (a + 1) 0 r.2) (pure h) hfinish
  | false => exact bind (P := fun r : List VarId × Path => p.Trades a 0 r.2) (pure h) hfinish

theorem makeFunction (hasClosure : Bool) (p : Path) :
    Yields m (makeFunction i hasClosure p)
      (p.Trades (functionOperands m.options.isThird (i.arg.getD 0) +
        (1 + hasClosure.toNat + m.options.isThird.toNat)) 1) := by
  unfold Analysis.makeFunction
  refine argument (get ?_)
  extract_lets finish
  have hfinish {a : Nat} {q : Path} (hq : p.Trades a 0 q) : Yields m (finish q)
      (p.Trades (a + (functionOperands m.options.isThird (i.arg.getD 0) +
        (1 + hasClosure.toNat))) 1) := by
    refine lift fun r hr => ?_
    have hr := hq.trans (Path.pop_ok hr).1
    refine bind (popFunctionParts _ _ hr) fun s hs => ?_
    have hs : p.Trades (a + (functionOperands m.options.isThird (i.arg.getD 0) +
      (1 + hasClosure.toNat))) 0 s.2 := hs.cast (by omega) rfl
    refine fun {m} => skip fun m => skip fun d => ?_
    intro _
    dsimp only
    split
    · exact pushed hs _
    · exact skip fun _ => skip fun _ => pushed hs _
  cases hthird : m.options.isThird with
  | true =>
    rw [hthird] at hfinish
    exact lift fun q hq => (hfinish (Path.discard_ok hq)).weaken fun _ h =>
      h.cast (by simp only [Bool.toNat_true]; omega) rfl
  | false =>
    rw [hthird] at hfinish
    exact (hfinish (.refl p)).weaken fun _ h => h.cast (by simp only [Bool.toNat_false]; omega) rfl

theorem buildClassFromParts (p : Path) : Yields m (buildClassFromParts p) (p.Trades 3 1) := by
  refine bind (popThree (.refl p)) fun _ h => ?_
  refine skip fun _ => ?_
  refine skip fun _ => ?_
  refine skip fun _ => ?_
  refine skip fun _ => ?_
  exact pushed h _

theorem importName (name : String) (p : Path) : Yields m (importName name p) (p.Trades 2 1) := by
  refine bind (popTwo (.refl p)) fun _ h => ?_
  refine skip fun _ => ?_
  refine skip fun _ => ?_
  refine skip fun _ => ?_
  exact pushed h _

theorem importFrom (name : String) (p : Path) : Yields m (importFrom name p) (p.Trades 0 1) := by
  unfold Analysis.importFrom
  refine skip fun _ => skip fun result => skip fun _ => skip fun found => ?_
  intro _
  split
  · exact pure ((Path.Trades.refl p).push result)
  · exact skip fun _ => skip fun _ => pushed (.refl p) _

theorem importStar (p : Path) : Yields m (importStar p) (p.Trades 1 0) := by
  refine bind (pop (.refl p)) fun _ h => ?_
  refine skip fun _ => ?_
  refine skip fun _ => ?_
  refine skip fun _ => ?_
  refine skip fun _ => ?_
  exact forward h

/-- The operands are replaced if the path goes on. -/
private abbrev GoesOn (p : Path) (pops pushes : Nat) (q : Path) : Prop :=
  q.regions = p.regions ∧ (q.stop = none → p.Replaces pops pushes q) ∧
    (q.stop = some .continued → p.stop = some .continued)

theorem loadName (scope : Scope) (name : String) (p : Path) :
    Yields m (loadName scope name p) (GoesOn p 0 1) := by
  have hpushed (v : VarId) : GoesOn p 0 1 (p.push v) :=
    have h := (Path.Trades.refl p).push v
    ⟨h.regions, fun _ => h.toReplaces, h.steady⟩
  unfold Analysis.loadName
  refine skip fun f => skip fun o => ?_
  intro _
  split
  · exact pure (hpushed _)
  · split
    · refine skip fun _ => ?_
      refine skip fun _ => ?_
      refine skip fun _ => ?_
      exact pure ⟨rfl, (fun h => by cases h), fun h => by cases h⟩
    · refine skip fun o => ?_
      split
      · exact pure (hpushed _)
      · exact skip fun _ => skip fun _ => pure (hpushed _)

theorem jumpIf (sense : Bool) (tested : Tested) (p : Path) :
    Yields m (jumpIf i sense tested p) (GoesOn p (if tested = .keep then 0 else 1) 0) := by
  generalize hk : (if tested = .keep then 0 else 1) = k
  unfold Analysis.jumpIf
  refine skip fun dest => skip fun v => skip fun m => skip fun sides => ?_
  intro _
  obtain ⟨yes, no⟩ := sides
  dsimp -zeta only
  generalize (if sense then (yes, no) else (no, yes)) = sides
  obtain ⟨taken, other⟩ := sides
  dsimp -zeta only
  extract_lets carryOn fallThrough branch
  have hcarryOn (q : Path) (hq : p.Trades k 0 q) {m : Machine} :
      Yields m (carryOn q) (GoesOn p k 0) := by
    dsimp only [carryOn]
    split
    · exact pure ⟨hq.regions, nofun, nofun⟩
    · have hr : p.Trades k 0 (q.restrict other) := by
        cases other with
        | unrestricted | holds b => exact hq.congr rfl rfl id
        | unsatisfiable => exact hq.congr rfl rfl nofun
      exact (forward hr).weaken fun _ h => ⟨h.regions, fun _ => h.toReplaces, h.steady⟩
  have hfallThrough (u : Unit) {m : Machine} :
      Yields m (fallThrough u) (GoesOn p k 0) := by
    dsimp only [fallThrough]
    split
    · next hkeep =>
      rw [if_pos hkeep] at hk
      exact bind (P := p.Trades k 0) (pure ((Path.Trades.refl p).cast hk rfl)) hcarryOn
    · next hkeep =>
      rw [if_neg hkeep] at hk
      exact bind (discard (.refl p)) fun q hq => hcarryOn q (hq.cast hk rfl)
  split
  · split
    · refine skip fun q => ?_
      refine skip fun r => ?_
      refine skip fun u => ?_
      exact hfallThrough u
    · refine skip fun q => ?_
      refine skip fun r => ?_
      refine skip fun u => ?_
      exact hfallThrough u
  · exact hfallThrough ()

theorem leaveContext (p : Path) : Yields m (leaveContext call p)
    (p.Trades (if m.nothingOnTop p then 2 else 4) (if m.nothingOnTop p then 1 else 3)) := by
  unfold Analysis.leaveContext
  refine lift fun v hv => isAllNone ?_
  have htop : (m.graph.visibleData v p.node).all m.store.isNone = m.nothingOnTop p := by
    unfold Path.top Path.peek at hv
    unfold Machine.nothingOnTop
    cases hs : p.stack with
    | nil =>
      rw [hs] at hv
      cases hv
    | cons w stack =>
      rw [hs] at hv
      cases hv
      rfl
  rw [htop]
  split
  · exact bind (popTwo (.refl p)) fun r h => skip fun n => pure ((h.withNode n.1).push r.2.1)
  · refine bind (popThree (.refl p)) fun r h => ?_
    refine bind (pop h) fun s h => ?_
    refine skip fun n => ?_
    exact pure ((h.withNode n.1).pushAll [r.1, r.2.1, r.2.2.1])

theorem endCleanup (p : Path) :
    Yields m (endCleanup p) (p.Trades (if m.nothingOnTop p then 1 else 3) 0) := by
  unfold Analysis.endCleanup
  refine lift fun r hr => isAllNone ?_
  obtain ⟨v, q⟩ := r
  obtain ⟨h, hs, hnode⟩ := Path.pop_ok hr
  have htop : (m.graph.visibleData v q.node).all m.store.isNone = m.nothingOnTop p := by
    unfold Machine.nothingOnTop
    rw [hs, hnode]
  rw [htop]
  split
  · exact pure h
  · exact discardN h 2

/-- Most instructions leave the regions alone. -/
private theorem plain {x : Analysis Path} {e : StackEffect}
    (h : Yields m x (p.Trades e.pops e.pushes))
    (hi : ∀ l, i.Reshapes p.stack.length l l)
    (ht : i.op.isTerminator = true → i.op = .jumpForward ∨ i.op = .jumpAbsolute) :
    Yields m x (p.Advances i e) :=
  h.weaken fun _ h =>
    ⟨fun _ => h.toReplaces, h.regions ▸ hi _, fun hc => .inl (h.steady hc), fun _ => ht⟩

private theorem goesOn {x : Analysis Path} {e : StackEffect}
    (h : Yields m x (GoesOn p e.pops e.pushes)) (hi : ∀ l, i.Reshapes p.stack.length l l)
    (ht : i.op.isTerminator = true → i.op = .jumpForward ∨ i.op = .jumpAbsolute) :
    Yields m x (p.Advances i e) :=
  h.weaken fun _ h => ⟨h.2.1, h.1 ▸ hi _, fun hc => .inl (h.2.2 hc), fun _ => ht⟩

private theorem stops {x : Analysis Path} {e : StackEffect}
    (h : Yields m x fun q => p.Trades e.pops e.pushes q ∧ q.stop.isSome)
    (hi : ∀ l, i.Reshapes p.stack.length l l) : Yields m x (p.Advances i e) :=
  h.weaken fun _ ⟨h, hstop⟩ => ⟨fun _ => h.toReplaces, h.regions ▸ hi _,
    fun hc => .inl (h.steady hc), fun hgo => by simp [hgo] at hstop⟩

private theorem reshapes {x : Analysis Path} {e : StackEffect}
    (h : Yields m x fun q => p.Replaces e.pops e.pushes q ∧
      i.Reshapes p.stack.length p.regions q.regions ∧
        (q.stop = some .continued → p.stop = some .continued))
    (ht : i.op.isTerminator = true → i.op = .jumpForward ∨ i.op = .jumpAbsolute) :
    Yields m x (p.Advances i e) :=
  h.weaken fun _ h => ⟨fun _ => h.1, h.2.1, fun hc => .inl (h.2.2 hc), fun _ => ht⟩

private theorem setupContext (p : Path) : Yields m (setupContext call i p) fun q =>
    p.Replaces 1 2 q ∧ i.Enters [.cleanup, .context] p.stack.length p.regions q.regions ∧
      (q.stop = some .continued → p.stop = some .continued) := by
  refine target fun dest ht => bind (ofExcept fun _ h => Path.pop_ok h) fun r h => skip fun exit =>
    skip fun _ => skip fun _ => skip fun m' => skip fun entered => ?_
  intro _
  obtain ⟨h, hs, -⟩ := h
  have hpushed := (h.push exit).push entered.2
  refine pure ⟨⟨hpushed.pops_le, hpushed.stack⟩, ⟨if m'.options.isThird then .cleanup else .context,
    ?_, dest, ht, ?_⟩, hpushed.steady⟩
  · split <;> decide
  · change (⟨_, dest, r.2.stack.length + 1⟩ : Region) :: r.2.regions = _
    rw [h.regions, hs]
    rfl

private theorem leave (p : Path) : Yields m (do return (← p.leave).2) fun q =>
    p.Replaces 0 0 q ∧ (∃ r, p.regions = r :: q.regions) ∧
      (q.stop = some .continued → p.stop = some .continued) := by
  refine lift fun r hr => pure ?_
  unfold Path.leave at hr
  split at hr
  · next region regions hregions =>
    cases hr
    exact ⟨⟨Nat.zero_le _, [], rfl, rfl⟩, ⟨region, hregions⟩, id⟩
  · cases hr

theorem step (i : Instruction) (p : Path) : Yields m (step call i p)
    (p.Advances i (i.op.stackEffect m.options.isThird (i.arg.getD 0) (m.nothingOnTop p))) := by
  have hsame := Path.Trades.refl p
  have hunchanged (kind : RegionKind) (handler : Nat) : p.Replaces 0 0 (p.enter kind handler) :=
    ⟨hsame.pops_le, hsame.stack⟩
  obtain ⟨k, op, arg, line, t⟩ := i
  unfold Analysis.step
  cases op with
  -- operands
  | nop | popExcept | printNewline => exact plain (pure hsame) (fun _ => rfl) nofun
  | popTop => exact plain (discard hsame) (fun _ => rfl) nofun
  | dupTop => exact plain (pushed hsame _) (fun _ => rfl) nofun
  | dupTopx =>
    exact plain (argument (ofExcept fun _ h => Path.duplicate_ok h)) (fun _ => rfl) nofun
  | dupTopTwo => exact plain (ofExcept fun _ h => Path.duplicate_ok h) (fun _ => rfl) nofun
  | rotTwo | rotThree | rotFour =>
    exact plain (ofExcept fun _ h => Path.rotate_ok h) (fun _ => rfl) nofun
  | loadConst => exact plain (pushed hsame _) (fun _ => rfl) nofun
  | printExpr | printItem | printNewlineTo | printItemTo | execStmt =>
    exact plain (discardN hsame _) (fun _ => rfl) nofun
  -- names
  | loadName | loadGlobal | loadFast =>
    exact goesOn (skip fun _ => loadName _ _ p) (fun _ => rfl) nofun
  | storeName | storeGlobal | storeFast =>
    exact plain (skip fun _ => skip fun _ => storeName _ _ p) (fun _ => rfl) nofun
  | deleteName | deleteGlobal | deleteFast =>
    exact plain (skip fun _ => pure hsame) (fun _ => rfl) nofun
  | loadClosure => exact plain (pushed hsame _) (fun _ => rfl) nofun
  | loadDeref => exact plain (skip fun _ => pushed hsame _) (fun _ => rfl) nofun
  | storeDeref => exact plain (skip fun _ => storeCell _ p) (fun _ => rfl) nofun
  | loadLocals => exact plain (loadLocals p) (fun _ => rfl) nofun
  | storeLocals => exact plain (storeLocals p) (fun _ => rfl) nofun
  -- operators
  | unaryNot => exact plain (unaryNot p) (fun _ => rfl) nofun
  | unaryNegative | unaryPositive | unaryInvert =>
    exact plain (unaryOperator _ p) (fun _ => rfl) nofun
  | unaryConvert => exact plain (unaryConvert p) (fun _ => rfl) nofun
  | compareOp => exact plain (skip fun _ => compareOperands _ p) (fun _ => rfl) nofun
  | binarySubscr => exact plain (subscript _ p) (fun _ => rfl) nofun
  | binaryPower | binaryMultiply | binaryDivide | binaryModulo | binaryAdd | binarySubtract
  | binaryFloorDivide | binaryTrueDivide | binaryLshift | binaryRshift
  | binaryAnd | binaryXor | binaryOr => exact plain (binaryOperator _ p) (fun _ => rfl) nofun
  | inplaceFloorDivide | inplaceTrueDivide | inplaceAdd | inplaceSubtract | inplaceMultiply
  | inplaceDivide | inplaceModulo | inplacePower | inplaceLshift | inplaceRshift | inplaceAnd
  | inplaceXor | inplaceOr => exact plain (inplaceOperator _ _ p) (fun _ => rfl) nofun
  -- attributes
  | loadAttr =>
    exact plain (skip fun _ => bind (pop hsame) fun _ h => pushed h _) (fun _ => rfl) nofun
  | storeAttr =>
    exact plain (skip fun _ => bind (popTwo hsame) fun _ h => skip fun _ => forward h)
      (fun _ => rfl) nofun
  | deleteAttr => exact plain (skip fun _ => discard hsame) (fun _ => rfl) nofun
  -- containers
  | buildTuple => exact plain (argument (buildTuple _ p)) (fun _ => rfl) nofun
  | buildList | buildSet => exact plain (argument (buildContainer _ _ p)) (fun _ => rfl) nofun
  | buildMap => exact plain (buildMap p) (fun _ => rfl) nofun
  | buildSlice => exact plain (argument (buildSlice _ p)) (fun _ => rfl) nofun
  | storeMap | mapAdd => exact plain (addEntry _ p) (fun _ => rfl) nofun
  | listAppend | setAdd => exact plain (addItem _ _ p) (fun _ => rfl) nofun
  | storeSubscr => exact plain (storeSubscript p) (fun _ => rfl) nofun
  | deleteSubscr => exact plain (deleteSubscript p) (fun _ => rfl) nofun
  | unpackSequence => exact plain (argument (unpack _ p)) (fun _ => rfl) nofun
  | slice0 | slice1 | slice2 | slice3 => exact plain (loadSlice _ p) (fun _ => rfl) nofun
  | storeSlice0 | storeSlice1 | storeSlice2 | storeSlice3 =>
    exact plain (storeSlice _ p) (fun _ => rfl) nofun
  | deleteSlice0 | deleteSlice1 | deleteSlice2 | deleteSlice3 =>
    exact plain (deleteSlice _ p) (fun _ => rfl) nofun
  -- branches and loops
  | jumpForward => exact plain (jump p) (fun _ => rfl) fun _ => .inl rfl
  | jumpAbsolute => exact plain (jump p) (fun _ => rfl) fun _ => .inr rfl
  | jumpIfTrue | jumpIfFalse | popJumpIfTrue | popJumpIfFalse | jumpIfTrueOrPop
  | jumpIfFalseOrPop => exact goesOn (jumpIf _ _ p) (fun _ => rfl) nofun
  | getIter => exact plain (getIterator p) (fun _ => rfl) nofun
  | forIter => exact plain (nextItem p) (fun _ => rfl) nofun
  -- regions, exceptions and returns
  | setupLoop =>
    exact reshapes (target fun dest ht => pure
      ⟨hunchanged _ _, ⟨.loop, by simp, dest, ht, rfl⟩, id⟩) nofun
  | setupExcept =>
    exact reshapes (target fun dest ht => skip fun _ => skip fun _ => pure
      ⟨hunchanged _ _, ⟨.handled, by simp, dest, ht, rfl⟩, id⟩) nofun
  | setupFinally =>
    exact reshapes (target fun dest ht => skip fun _ => skip fun _ => pure
      ⟨hunchanged _ _, ⟨.cleanup, by simp, dest, ht, rfl⟩, id⟩) nofun
  | setupWith => exact reshapes (setupContext p) nofun
  | popBlock => exact reshapes (leave p) nofun
  | breakLoop => exact stops (pure ⟨hsame.congr rfl rfl nofun, rfl⟩) fun _ => rfl
  | continueLoop => exact pure ⟨nofun, rfl, fun _ => .inr rfl, nofun⟩
  | withCleanup =>
    refine plain ((leaveContext p).weaken fun _ h => h.cast ?_ ?_) (fun _ => rfl) nofun
    all_goals simp only [Op.stackEffect]; split <;> rfl
  | endFinally =>
    refine plain ((endCleanup p).weaken fun _ h => h.cast ?_ ?_) (fun _ => rfl) nofun
    all_goals simp only [Op.stackEffect]; split <;> rfl
  | raiseVarargs =>
    exact stops (argument (raise _ p)) fun _ => rfl
  | returnValue => exact stops (returnValue p) fun _ => rfl
  | yieldValue => exact plain (yieldValue p) (fun _ => rfl) nofun
  -- calls, functions and classes
  | callFunction | callFunctionVar | callFunctionKw | callFunctionVarKw =>
    exact plain (callWith _ _ p) (fun _ => rfl) nofun
  | makeFunction | makeClosure =>
    refine plain ((makeFunction _ p).weaken fun _ h => h.cast ?_ rfl) (fun _ => rfl) nofun
    simp only [Op.stackEffect]
    cases m.options.isThird <;> rfl
  | buildClass => exact plain (buildClassFromParts p) (fun _ => rfl) nofun
  | loadBuildClass => exact plain (pushed hsame _) (fun _ => rfl) nofun
  -- imports
  | importName => exact plain (skip fun _ => importName _ p) (fun _ => rfl) nofun
  | importFrom => exact plain (skip fun _ => importFrom _ p) (fun _ => rfl) nofun
  | importStar => exact plain (importStar p) (fun _ => rfl) nofun

end Yields

/-- Whether there is nothing on top matters at the end of a cleanup and of a context only. -/
theorem stackEffect_congr {op : Op} {third : Bool} {arg : Nat} (h : op ≠ .withCleanup)
    (h' : op ≠ .endFinally) (a b : Bool) :
    op.stackEffect third arg a = op.stackEffect third arg b := by
  cases op with
  | withCleanup => exact absurd rfl h
  | endFinally => exact absurd rfl h'
  | _ => rfl

/-- An instruction after which the path goes on has replaced the topmost operands by others, as many
as its operation, its argument and the version of the language say, and has entered or left a region
only where that is what the operation is for. -/
theorem step_replaces {call : Caller} {i : Instruction} {p q : Path} {m' : Machine}
    (h : step call i p m = .ok q m') (hq : q.stop = none) :
    let e := i.op.stackEffect m.options.isThird (i.arg.getD 0) (m.nothingOnTop p)
    p.Replaces e.pops e.pushes q ∧ i.Reshapes p.stack.length p.regions q.regions ∧
      (i.op ≠ .withCleanup → i.op ≠ .endFinally →
        ∀ b, i.op.stackEffect m.options.isThird (i.arg.getD 0) b = e) :=
  have ha := Yields.step i p q m' h
  ⟨ha.replaces hq, ha.regions, fun hw he b => stackEffect_congr hw he b _⟩

/-- A function with a default by position, one by keyword and one annotation is made above one more
operand and inside a loop. -/
theorem makeFunction_replaces :
    let i : Instruction := { index := 9, op := .makeFunction, arg := some 0x20101 }
    let p : Path := { node := 0, stack := [1, 2, 3, 4, 5, 6, 7, 8], regions := [⟨.loop, 40, 1⟩] }
    let m : Machine := { options := { major := 3, minor := 6 } }
    ∃ q m', step (fun _ _ _ => throw (.notCallable "")) i p m = .ok q m' ∧ q.stop = none ∧
      p.Replaces 7 1 q ∧ q.regions = p.regions := by
  intro i p m
  obtain ⟨q, m', hrun, hq⟩ : ∃ q m', step (fun _ _ _ => throw (.notCallable "")) i p m = .ok q m' ∧
    q.stop = none := ⟨_, _, rfl, rfl⟩
  obtain ⟨h, hr, -⟩ := step_replaces hrun hq
  have heffect : i.op.stackEffect m.options.isThird (i.arg.getD 0) (m.nothingOnTop p) = ⟨7, 1⟩ := by
    decide
  rw [heffect] at h
  exact ⟨q, m', hrun, hq, h, hr⟩

end Analysis

end ValueTrace
