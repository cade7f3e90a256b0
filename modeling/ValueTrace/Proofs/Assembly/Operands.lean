import ValueTrace.Proofs.Assembly.Blocks

/-!
# What operands refer to

An operand is emitted as a place in a table. Tables grow at their ends, so the place keeps its entry.
Cells and free variables share one numbering in which the cells come first: a place of a free
variable is right for as long as no cell is added.
-/

namespace ValueTrace

namespace Assembler

/-- An operand that is given by what it refers to, with the operation. -/
inductive Operand where
  | withName (op : Op) (name : String)
  | withLocal (op : Op) (name : String)
  | withCell (op : Op) (name : String)
  | loadConst (c : Constant)

namespace Operand

/-- The call that emits the instruction with this operand. -/
def call : Operand → Call
  | withName op name => .step (.withName op name)
  | withLocal op name => .step (.withLocal op name)
  | withCell op name => .step (.withCell op name)
  | loadConst c => .step (.loadConst c)

def op : Operand → Op
  | withName op _ | withLocal op _ | withCell op _ => op
  | loadConst _ => .loadConst

/-- The argument of an instruction refers to the operand. A constant may be another one that is
the same. -/
def MeantBy (code : Code) (i : Instruction) : Operand → Prop
  | withName _ name => i.arg.bind (code.names[·]?) = some name
  | withLocal _ name => i.arg.bind (code.varnames[·]?) = some name
  | withCell _ name => i.arg.bind code.cellName? = some name
  | loadConst c => ∃ k, i.arg.bind (code.consts[·]?) = some k ∧ (k = c ∨ k.same c)

end Operand

def IsNewCell (a : Assembler) (name : String) : Prop :=
  name ∉ a.code.cellvars ∧ name ∉ a.code.freevars

/-- The operand is a free variable, and a later call adds a cell. -/
def Operand.DisplacedBy (a : Assembler) (after : List Call) : Operand → Prop
  | withCell _ name => name ∉ a.code.cellvars ∧ name ∈ a.code.freevars ∧
      ∃ op new, .step (.withCell op new) ∈ after ∧ a.IsNewCell new
  | _ => False

/-- The tables of an assembler that has gone on from another one. -/
structure Enlarges (a b : Assembler) : Prop where
  names : a.code.names <+: b.code.names
  varnames : a.code.varnames <+: b.code.varnames
  consts : a.code.consts <+: b.code.consts
  cellvars : ∃ new, b.code.cellvars = a.code.cellvars ++ new ∧ ∀ name ∈ new, name ∉ a.code.freevars
  freevars : b.code.freevars = a.code.freevars

variable {a b c : Assembler} {calls before after : List Call} {x : Call} {s : Script} {code : Code}
  {name : String} {o : Operand} {i : Instruction} {k : Nat}

theorem getElem?_of_isPrefix {α : Type} {l l' : List α} {e : α} (h : l <+: l') (hk : l[k]? = some e) :
    l'[k]? = some e := by
  obtain ⟨rest, rfl⟩ := h
  exact (List.getElem?_append_left (List.getElem?_eq_some_iff.mp hk).1).trans hk

theorem isPrefix_intern (table : List String) (name : String) : table <+: (intern table name).2 := by
  unfold intern
  split
  · exact List.prefix_rfl
  · exact List.prefix_append _ _

/-- The place of a name holds it. -/
theorem getElem?_intern (table : List String) (name : String) :
    (intern table name).2[(intern table name).1]? = some name := by
  unfold intern
  split
  next i hi =>
    obtain ⟨hlt, hname, -⟩ := List.idxOf?_eq_some_iff.mp hi
    exact List.getElem?_eq_some_iff.mpr ⟨hlt, hname⟩
  next => simp

/-- The place of a constant holds it, or one that is the same. -/
theorem getElem?_constIndex (a : Assembler) (c : Constant) :
    ∃ k, (a.constIndex c).2.code.consts[(a.constIndex c).1]? = some k ∧ (k = c ∨ k.same c) := by
  unfold constIndex
  split
  next i hi =>
    obtain ⟨hlt, hsame, -⟩ := List.findIdx?_eq_some_iff_getElem.mp hi
    exact ⟨_, List.getElem?_eq_getElem hlt, .inr hsame⟩
  next => exact ⟨c, by simp [modifyCode], .inl rfl⟩

namespace Enlarges

theorem refl (a : Assembler) : a.Enlarges a :=
  ⟨List.prefix_rfl, List.prefix_rfl, List.prefix_rfl, ⟨[], by simp, nofun⟩, rfl⟩

theorem trans (h : a.Enlarges b) (h' : b.Enlarges c) : a.Enlarges c := by
  obtain ⟨new, hnew, hfree⟩ := h.cellvars
  obtain ⟨new', hnew', hfree'⟩ := h'.cellvars
  refine ⟨h.names.trans h'.names, h.varnames.trans h'.varnames, h.consts.trans h'.consts,
    ⟨new ++ new', by rw [hnew', hnew, List.append_assoc], fun name hname => ?_⟩,
    h'.freevars.trans h.freevars⟩
  rcases List.mem_append.mp hname with hname | hname
  · exact hfree name hname
  · exact h.freevars ▸ hfree' name hname

theorem of_code (h : b.code = a.code) : a.Enlarges b := by
  obtain ⟨hn, hv, hc, hcells, hf⟩ := refl a
  exact ⟨h ▸ hn, h ▸ hv, h ▸ hc, h ▸ hcells, h ▸ hf⟩

theorem constIndex (a : Assembler) (k : Constant) : a.Enlarges (a.constIndex k).2 := by
  unfold Assembler.constIndex
  split
  · exact refl a
  · exact ⟨List.prefix_rfl, List.prefix_rfl, List.prefix_append _ _, (refl a).cellvars, rfl⟩

theorem cellOp (a : Assembler) (op : Op) (name : String) : a.Enlarges (a.cellOp op name) := by
  rcases cellOp_cases a op name with ⟨_, _, h⟩ | ⟨_, _, _, h⟩ | ⟨_, hfree, h⟩
  · exact h ▸ of_code rfl
  · exact h ▸ of_code rfl
  · rw [h]
    refine ⟨List.prefix_rfl, List.prefix_rfl, List.prefix_rfl, ⟨[name], rfl, ?_⟩, rfl⟩
    exact List.forall_mem_singleton.mpr hfree

theorem call (a : Assembler) (x : Call) : a.Enlarges (a.call x) := by
  cases x with
  | newLabel => exact of_code rfl
  | step s =>
    cases s with
    | line _ | bind _ | plain _ | withArg _ _ | jump _ _ => exact of_code rfl
    | constant k => exact constIndex a k
    | loadConst k => exact (constIndex a k).trans (of_code rfl)
    | withCell op name => exact cellOp a op name
    | withName op name =>
      exact ⟨isPrefix_intern _ name, List.prefix_rfl, List.prefix_rfl, (refl a).cellvars, rfl⟩
    | withLocal op name =>
      exact ⟨List.prefix_rfl, isPrefix_intern _ name, List.prefix_rfl, (refl a).cellvars, rfl⟩

theorem perform (a : Assembler) (calls : List Call) : a.Enlarges (a.perform calls) := by
  induction calls generalizing a with
  | nil => exact refl a
  | cons x calls ih => exact (call a x).trans (ih (a.call x))

end Enlarges

/-- A cell is added for a name that is neither a cell nor free. -/
theorem cellvars_cellOp_of_new (op : Op) (hnew : a.IsNewCell name) :
    (a.cellOp op name).code.cellvars = a.code.cellvars ++ [name] := by
  rcases cellOp_cases a op name with ⟨k, hk, -⟩ | ⟨-, k, hk, -⟩ | ⟨-, -, h⟩
  · exact absurd (List.mem_of_getElem? hk) hnew.1
  · rw [List.idxOf?_eq_none_iff.mpr hnew.2] at hk
    cases hk
  · rw [h]
    rfl

theorem cellvars_call (h : ∀ op name, x = .step (.withCell op name) → ¬ a.IsNewCell name) :
    (a.call x).code.cellvars = a.code.cellvars := by
  cases x with
  | newLabel => rfl
  | step s =>
    cases s with
    | line _ | bind _ | plain _ | withArg _ _ | withName _ _ | withLocal _ _ | jump _ _ => rfl
    | constant k | loadConst k =>
      change (a.constIndex k).2.code.cellvars = _
      unfold constIndex
      split <;> rfl
    | withCell op name =>
      change (a.cellOp op name).code.cellvars = _
      rcases cellOp_cases a op name with ⟨_, _, hcase⟩ | ⟨_, _, _, hcase⟩ | ⟨hcell, hfree, _⟩
      · exact hcase ▸ rfl
      · exact hcase ▸ rfl
      · exact absurd ⟨hcell, hfree⟩ (h op name rfl)

/-- The cells stay as they are if and only if none is added. -/
theorem cellvars_perform_iff : (a.perform calls).code.cellvars = a.code.cellvars ↔
    ¬ ∃ op new, .step (.withCell op new) ∈ calls ∧ a.IsNewCell new := by
  induction calls generalizing a with
  | nil => simp [perform]
  | cons x calls ih =>
    rw [perform_cons]
    by_cases hx : ∃ op new, x = .step (.withCell op new) ∧ a.IsNewCell new
    · obtain ⟨op, new, rfl, hnew⟩ := hx
      refine iff_of_false (fun heq => ?_) (not_not.mpr ⟨op, new, List.mem_cons_self, hnew⟩)
      obtain ⟨more, hmore, -⟩ := (Enlarges.perform (a.cellOp op new) calls).cellvars
      have hlength := congrArg List.length (hmore.symm.trans heq)
      rw [cellvars_cellOp_of_new op hnew] at hlength
      simp at hlength
    · have hcells : (a.call x).code.cellvars = a.code.cellvars :=
        cellvars_call fun op name hop hnew => hx ⟨op, name, hop, hnew⟩
      have hsame (name : String) : (a.call x).IsNewCell name ↔ a.IsNewCell name := by
        rw [IsNewCell, IsNewCell, hcells, (Enlarges.call a x).freevars]
      rw [← hcells, ih]
      refine not_congr (exists₂_congr fun op new => ?_)
      rw [hsame, List.mem_cons]
      refine and_congr_left fun hnew => (or_iff_right fun heq => ?_).symm
      exact hx ⟨op, new, heq.symm, hnew⟩

/-- A free variable is at its place in the numbering for as long as no cell is added. -/
theorem getElem?_displaced {cells new free : List String} (hfree : free.idxOf? name = some k)
    (hnew : ∀ n ∈ new, n ∉ free) :
    (cells ++ new ++ free)[cells.length + k]? = some name ↔ new = [] := by
  obtain ⟨hlt, hname, hfirst⟩ := List.idxOf?_eq_some_iff.mp hfree
  rw [List.append_assoc, List.getElem?_append_right (Nat.le_add_right _ _), Nat.add_sub_cancel_left]
  constructor
  · intro h
    by_contra hne
    rcases Nat.lt_or_ge k new.length with hk | hk
    · -- The place has become that of a new cell.
      rw [List.getElem?_append_left hk] at h
      exact hnew name (List.mem_of_getElem? h) (hname ▸ List.getElem_mem hlt)
    · -- The place has become that of an earlier free variable.
      rw [List.getElem?_append_right hk] at h
      have hpos := List.length_pos_iff.mpr hne
      obtain ⟨hlt', heq⟩ := List.getElem?_eq_some_iff.mp h
      exact hfirst (k - new.length) (by omega) heq
  · rintro rfl
    exact List.getElem?_eq_some_iff.mpr ⟨hlt, hname⟩

/-- The place of a cell or free variable is right for as long as it is not displaced. -/
theorem cellName?_cellOp_iff {op : Op} {p : PendingOp}
    (hp : (a.cellOp op name).pending = p :: a.pending) :
    p.arg.bind ((a.cellOp op name).perform after).code.cellName? = some name ↔
      ¬ (Operand.withCell op name).DisplacedBy a after := by
  rcases cellOp_cases a op name with ⟨k, hk, h⟩ | ⟨hcell, k, hk, h⟩ | ⟨hcell, hfree, h⟩
  · rw [h] at hp ⊢
    obtain rfl : _ = p := (List.cons.inj hp).1
    obtain ⟨new, hcells, -⟩ := (Enlarges.perform (a.emit op (some k) none) after).cellvars
    refine iff_of_true ?_ fun hd => hd.1 (List.mem_of_getElem? hk)
    change (_ ++ _ : List String)[k]? = some name
    rw [hcells, List.append_assoc]
    exact getElem?_of_isPrefix (List.prefix_append _ _) hk
  · rw [h] at hp ⊢
    obtain rfl : _ = p := (List.cons.inj hp).1
    let a' := a.emit op (some (a.code.cellvars.length + k)) none
    obtain ⟨-, -, -, ⟨new, hcells, hnew⟩, hfree⟩ := Enlarges.perform a' after
    have hmem : name ∈ a.code.freevars := by
      by_contra hnot
      rw [List.idxOf?_eq_none_iff.mpr hnot] at hk
      cases hk
    have hstay : new = [] ↔ (a'.perform after).code.cellvars = a'.code.cellvars := by
      rw [hcells]
      exact List.append_right_eq_self.symm
    change (_ ++ _ : List String)[a.code.cellvars.length + k]? = some name ↔ _
    rw [hfree, hcells]
    refine (getElem?_displaced hk hnew).trans (hstay.trans (cellvars_perform_iff.trans ?_))
    exact not_congr (and_iff_right hcell |>.trans (and_iff_right hmem)).symm
  · rw [h] at hp ⊢
    obtain rfl : _ = p := (List.cons.inj hp).1
    obtain ⟨new, hcells, -⟩ := (Enlarges.perform _ after).cellvars
    refine iff_of_true ?_ fun hd => hfree hd.2.1
    change (_ ++ _ : List String)[a.code.cellvars.length]? = some name
    rw [hcells, List.append_assoc]
    exact getElem?_of_isPrefix (List.prefix_append _ _) (by simp [modifyCode, emit])

theorem Operand.op?_call (o : Operand) : o.call.op? = some o.op := by cases o <;> rfl

theorem Operand.label?_call (o : Operand) : o.call.label? = none := by cases o <;> rfl

/-- The argument that is emitted for an operand refers to it, unless a later cell displaces it. -/
theorem meantBy_iff {i : Instruction} {p : PendingOp}
    (hp : (a.call o.call).pending = p :: a.pending) (harg : i.arg = p.arg) :
    o.MeantBy ((a.call o.call).perform after).code i ↔ ¬ o.DisplacedBy a after := by
  have hgrown := Enlarges.perform (a.call o.call) after
  cases o with
  | withName op name =>
    refine iff_of_true ?_ id
    obtain rfl : _ = p := (List.cons.inj hp).1
    rw [Operand.MeantBy, harg]
    exact getElem?_of_isPrefix hgrown.names (getElem?_intern a.code.names name)
  | withLocal op name =>
    refine iff_of_true ?_ id
    obtain rfl : _ = p := (List.cons.inj hp).1
    rw [Operand.MeantBy, harg]
    exact getElem?_of_isPrefix hgrown.varnames (getElem?_intern a.code.varnames name)
  | withCell op name =>
    rw [Operand.MeantBy, harg]
    exact cellName?_cellOp_iff hp
  | loadConst c =>
    refine iff_of_true ?_ id
    obtain rfl : _ = p := (List.cons.inj hp).1
    obtain ⟨k, hk, hsame⟩ := getElem?_constIndex a c
    exact ⟨k, harg ▸ getElem?_of_isPrefix hgrown.consts hk, hsame⟩

/-- In code that is built, the argument of each instruction that was emitted for a name, a local
variable or a constant refers to it. For a cell or free variable it does so exactly if the operand
was not a free variable when a later call added a cell. -/
theorem operand_meant_iff (h : s.build = .ok code) (hcalls : s.calls = before ++ o.call :: after) :
    ∃ i, code.ops[positionAfter before]? = some i ∧ i.op = o.op ∧
      (o.MeantBy code i ↔ ¬ o.DisplacedBy (s.behind before) after) := by
  obtain ⟨i, hi, -, hop, -, harg⟩ := instruction_of_call h hcalls o.op?_call
  rw [o.label?_call] at harg
  obtain ⟨-, p, hp, harg⟩ := harg
  refine ⟨i, hi, hop, ?_⟩
  rw [← meantBy_iff hp harg]
  obtain ⟨ops, -, -, rfl, -⟩ := build_ok h
  rw [hcalls, behind_append, perform_cons]
  cases o <;> rfl

/-- A function that loads a free variable and stores what it finds in a cell. -/
def captured : Script where
  opening := .function "inner" []
  modifiers := [.freevars ["y"]]
  calls := [.step (.withCell .loadDeref "y"), .step (.withCell .storeDeref "x"),
    .step (.loadConst .none), .step (.plain .returnValue)]

/-- What comes of the function: both instructions refer to the first place. -/
def capturedCode : Code where
  name := "inner"
  filename := ""
  firstLine := 1
  argCount := 0
  kwonlyArgCount := 0
  flags := 19
  varnames := []
  names := []
  consts := [.none]
  cellvars := ["x"]
  freevars := ["y"]
  blocks := [⟨0, [⟨0, .loadDeref, some 0, 1, none⟩, ⟨1, .storeDeref, some 0, 1, none⟩,
    ⟨2, .loadConst, some 0, 1, none⟩, ⟨3, .returnValue, none, 1, none⟩]⟩]

theorem captured_meant : captured.build = .ok capturedCode ∧
    ∃ i, capturedCode.ops[1]? = some i ∧ i.op = .storeDeref ∧
      (Operand.withCell .storeDeref "x").MeantBy capturedCode i := by
  have hbuild : captured.build = .ok capturedCode := rfl
  have hcalls : captured.calls = [.step (.withCell .loadDeref "y")] ++
      (Operand.withCell .storeDeref "x").call ::
        [.step (.loadConst .none), .step (.plain .returnValue)] := rfl
  obtain ⟨i, hi, hop, hmeant⟩ := operand_meant_iff hbuild hcalls
  refine ⟨hbuild, i, hi, hop, hmeant.mpr ?_⟩
  rintro ⟨-, hfree, -⟩
  exact absurd hfree (by decide)

/-- The place of the free variable has become that of the cell. -/
theorem captured_displaced : ∃ code i, captured.build = .ok code ∧ code.ops[0]? = some i ∧
    i.arg.bind code.cellName? = some "x" ∧
    ¬ (Operand.withCell .loadDeref "y").MeantBy code i := by
  refine ⟨capturedCode, ⟨0, .loadDeref, some 0, 1, none⟩, rfl, rfl, rfl, ?_⟩
  intro hmeant
  exact absurd (Option.some.inj hmeant) (by decide)

end Assembler

end ValueTrace
