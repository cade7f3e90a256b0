import ValueTrace.Proofs.Assembly.Scripts
import ValueTrace.Proofs.Flow.Reached

/-!
# Assembled code and its blocks

The blocks of assembled code are a partition of the emitted instructions: a new one starts exactly
at the first instruction, at targets, and behind jumps and terminators. Only a jump to a label that
was never bound is an unbound label.
-/

namespace ValueTrace

variable {leads : Instruction → Bool} {i j : Instruction} {ops current run : List Instruction}
  {k : Nat}

namespace Block

def IsRun (leads : Instruction → Bool) (run : List Instruction) : Prop :=
  ∃ i rest, run = i :: rest ∧ leads i ∧ ∀ j ∈ rest, ¬ leads j

theorem IsRun.ne_nil (h : IsRun leads run) : run ≠ [] := by
  obtain ⟨i, rest, rfl, -⟩ := h
  exact List.cons_ne_nil i rest

theorem isRun_singleton (h : leads i) : IsRun leads [i] := ⟨i, [], rfl, h, nofun⟩

theorem IsRun.append (h : IsRun leads run) (hi : ¬ leads i) : IsRun leads (run ++ [i]) := by
  obtain ⟨first, rest, rfl, hfirst, hrest⟩ := h
  refine ⟨first, rest ++ [i], rfl, hfirst, fun j hj => ?_⟩
  rcases List.mem_append.mp hj with hj | hj
  · exact hrest j hj
  · exact List.mem_singleton.mp hj ▸ hi

/-- Cutting leaves every instruction at its place. -/
theorem flatten_go (leads : Instruction → Bool) (current ops : List Instruction) :
    (cut.go leads current ops).flatten = current.reverse ++ ops := by
  induction ops generalizing current with
  | nil => cases current <;> simp [cut.go]
  | cons i ops ih =>
    rw [cut.go]
    split
    · simp [ih]
    · simp [ih]

/-- Behind a run that has begun there are only runs. -/
theorem isRun_go (h : IsRun leads current.reverse) : ∀ r ∈ cut.go leads current ops, IsRun leads r := by
  induction ops generalizing current with
  | nil =>
    intro r hr
    rw [cut.go] at hr
    split at hr
    · cases hr
    · exact List.mem_singleton.mp hr ▸ h
  | cons i ops ih =>
    intro r hr
    have hne : current ≠ [] := fun hnil => h.ne_nil (by rw [hnil, List.reverse_nil])
    rw [cut.go] at hr
    split at hr
    next hi =>
      rcases List.mem_cons.mp hr with rfl | hr
      · exact h
      · have hrun : IsRun leads [i].reverse := isRun_singleton (by simp_all)
        exact ih hrun r hr
    next hi =>
      have hrun : IsRun leads (i :: current).reverse := by
        rw [List.reverse_cons]
        exact h.append (by simp_all)
      exact ih hrun r hr

theorem map_ops_cut (leads : Instruction → Bool) (ops : List Instruction) :
    (cut leads ops).map (·.ops) = cut.go leads [] ops := by
  simp [cut, Function.comp_def]

/-- Blocks are counted from zero. -/
theorem map_id_partition (ops : List Instruction) :
    (partition ops).map (·.id) = List.range (partition ops).length := by
  simp [partition, cut, Function.comp_def, List.range_eq_range']

/-- The blocks have all instructions in order. -/
theorem flatMap_partition (ops : List Instruction) : (partition ops).flatMap (·.ops) = ops := by
  rw [List.flatMap_def, partition, map_ops_cut, flatten_go]
  rfl

theorem mem_leaders : k ∈ leaders ops ↔ k = 0 ∨ (∃ i ∈ ops, i.target = some k) ∨
    ∃ i ∈ ops, i.index + 1 = k ∧ (i.op.hasTarget ∨ i.op.isTerminator) := by
  have hbehind (i : Instruction) : k ∈ (if i.op.hasTarget || i.op.isTerminator then [i.index + 1]
      else []) ↔ i.index + 1 = k ∧ (i.op.hasTarget ∨ i.op.isTerminator) := by
    rw [← Bool.or_eq_true]
    split_ifs with h <;> simp [h, eq_comm]
  simp only [leaders, List.mem_cons, List.mem_flatMap, List.mem_append, Option.mem_toList, hbehind]
  simp only [and_or_left, exists_or]

/-- Only the first instruction of a block is at a place where blocks start. -/
theorem isRun_partition (hfirst : ∀ i, ops.head? = some i → i.index = 0) {b : Block}
    (hb : b ∈ partition ops) : IsRun (fun i => (leaders ops).contains i.index) b.ops := by
  have hmem := List.mem_map_of_mem (f := (·.ops)) hb
  rw [partition, map_ops_cut] at hmem
  cases ops with
  | nil => simp [cut.go] at hmem
  | cons i ops =>
    rw [cut.go, if_neg (by simp)] at hmem
    refine isRun_go (isRun_singleton ?_) b.ops hmem
    rw [hfirst i rfl]
    simp [leaders]

end Block

def CodeError.isUnbound : CodeError → Bool
  | .unboundLabel _ _ => true
  | _ => false

def IgnoresLabels {α : Type} (x : Except CodeError α) : Prop :=
  ∀ e, x = .error e → e.isUnbound = false

namespace IgnoresLabels

variable {α β : Type} {x y : Except CodeError α} {e : CodeError}

theorem ok (a : α) : IgnoresLabels (.ok a : Except CodeError α) := nofun

theorem error (h : e.isUnbound = false) : IgnoresLabels (.error e : Except CodeError α) := by
  intro e' he
  cases he
  exact h

theorem bind {f : α → Except CodeError β} (hx : IgnoresLabels x) (hf : ∀ a, IgnoresLabels (f a)) :
    IgnoresLabels (x >>= f) := by
  intro e h
  cases x with
  | error e' =>
    cases h
    exact hx e rfl
  | ok a => exact hf a e h

theorem mapM {f : α → Except CodeError β} {l : List α} (h : ∀ a, IgnoresLabels (f a)) :
    IgnoresLabels (l.mapM f) := by
  induction l with
  | nil => exact ok []
  | cons a l ih =>
    rw [List.mapM_cons]
    exact bind (h a) fun b => bind ih fun bs => ok _

theorem forM {f : α → Except CodeError Unit} {l : List α} (h : ∀ a, IgnoresLabels (f a)) :
    IgnoresLabels (l.forM f) := by
  induction l with
  | nil => exact ok ()
  | cons a l ih => exact bind (h a) fun _ => ih

/-- One condition is checked before all else. -/
theorem guard {c : Prop} [Decidable c] {f : Unit → Except CodeError α} (h : e.isUnbound = false)
    (hf : IgnoresLabels (f ())) :
    IgnoresLabels (if c then (throw e : Except CodeError Unit) >>= f else f ()) := by
  split_ifs
  · exact error h
  · exact hf

end IgnoresLabels

theorem Code.checkOp_ignoresLabels (c : Code) (starts : List Nat) (expected : Nat)
    (i : Instruction) : IgnoresLabels (c.checkOp starts expected i) := by
  unfold checkOp
  refine .guard rfl (.guard rfl (.guard rfl ?_))
  dsimp only
  split
  · split_ifs
    · exact .error rfl
    · exact .ok _
  · exact .ok _

theorem Code.checkSelf_ignoresLabels (c : Code) : IgnoresLabels c.checkSelf := by
  unfold checkSelf
  refine .guard rfl (.bind (.mapM fun b => ?_) fun starts => ?_)
  · split
    · exact .ok _
    · exact .error rfl
  · exact .forM fun (i, expected) => c.checkOp_ignoresLabels starts expected i

mutual

theorem Code.validate_ignoresLabels : ∀ c : Code, IgnoresLabels c.validate
  | ⟨_, _, _, _, _, _, _, _, consts, _, _, _⟩ =>
    .bind (Code.checkSelf_ignoresLabels _) fun _ => Constant.validateAll_ignoresLabels consts

theorem Constant.validate_ignoresLabels : ∀ c : Constant, IgnoresLabels c.validate
  | .code c => Code.validate_ignoresLabels c
  | .tuple items => Constant.validateAll_ignoresLabels items
  | .none | .bool _ | .int _ | .float _ | .complex _ _ | .str _ | .unicode _ | .bytes _
  | .ellipsis => .ok ()

theorem Constant.validateAll_ignoresLabels :
    ∀ cs : List Constant, IgnoresLabels (Constant.validateAll cs)
  | [] => .ok ()
  | c :: cs => .bind (Constant.validate_ignoresLabels c) fun _ =>
    Constant.validateAll_ignoresLabels cs

end

namespace Assembler

variable {a : Assembler} {code : Code} {s : Script} {before after : List Call} {x : Call} {b : Block}

theorem resolve_error_iff {p : PendingOp} {e : CodeError} : a.resolve p k = .error e ↔
    ∃ label, p.label = some label ∧ a.position? label = none ∧ e = .unboundLabel a.code.name label := by
  unfold resolve
  cases hlabel : p.label with
  | none => simp
  | some label => cases hpos : a.position? label <;> simp [hpos, eq_comm]

/-- Building finds an unbound label if an instruction has a label that is not bound. -/
theorem build_unbound_iff : (∃ e, a.build = .error e ∧ e.isUnbound) ↔
    ∃ p ∈ a.emitted, ∃ label, p.label = some label ∧ a.position? label = none := by
  constructor
  · rintro ⟨e, he, hunbound⟩
    rcases Except.bind_eq_error.mp he with hops | ⟨ops, -, he⟩
    · obtain ⟨⟨p, k⟩, hp, he⟩ := Except.exists_of_mapM_error hops
      obtain ⟨label, hlabel, hpos, -⟩ := resolve_error_iff.mp he
      exact ⟨p, (List.mem_zipIdx hp).2.2 ▸ List.getElem_mem _, label, hlabel, hpos⟩
    · have hvalid := Code.validate_ignoresLabels { a.code with blocks := Block.partition ops }
      rw [IgnoresLabels.bind hvalid (fun _ => .ok _) e he] at hunbound
      cases hunbound
  · rintro ⟨p, hp, label, hlabel, hpos⟩
    obtain ⟨k, hk, rfl⟩ := List.mem_iff_getElem.mp hp
    have herror := (resolve_error_iff (k := k)).mpr ⟨label, hlabel, hpos, rfl⟩
    have hat : a.emitted.zipIdx[k]? = some (a.emitted[k], k) := by simp [hk]
    cases hbuild : a.build with
    | error e =>
      refine ⟨e, rfl, ?_⟩
      rcases Except.bind_eq_error.mp hbuild with hops | ⟨ops, hops, -⟩
      · obtain ⟨⟨p, k⟩, -, he⟩ := Except.exists_of_mapM_error hops
        obtain ⟨label, -, -, rfl⟩ := resolve_error_iff.mp he
        rfl
      · obtain ⟨i, -, hi⟩ := (Except.getElem?_of_mapM hops).2 k _ hat
        cases herror.symm.trans hi
    | ok code =>
      obtain ⟨ops, -, hops, -⟩ := build_ok hbuild
      obtain ⟨i, -, hi⟩ := hops k _ (List.getElem?_eq_getElem hk)
      cases herror.symm.trans hi

/-- Code that has been assembled by a script, as its calls and labels have it. -/
structure Script.Assembles (s : Script) (code : Code) : Prop where
  /-- There are as many instructions as calls that emit one. -/
  length : code.ops.length = positionAfter s.calls
  /-- Each stands at its position, with the operation of the call and the line that was set last. A
  jump has the position that its label was bound to last as target and as argument. -/
  instruction : ∀ before x after op, s.calls = before ++ x :: after → x.op? = some op →
    ∃ i, code.ops[positionAfter before]? = some i ∧ i.index = positionAfter before ∧ i.op = op ∧
      i.line = before.foldl Call.lineFrom s.prepared.line ∧
      match x.label? with
      | none => i.target = none ∧
          ∃ p, ((s.behind before).call x).pending = p :: (s.behind before).pending ∧ i.arg = p.arg
      | some label => ∃ pos, BoundLast s.calls label pos ∧ i.target = some pos ∧ i.arg = some pos
  /-- Blocks are counted from zero. -/
  ids : code.blocks.map (·.id) = List.range code.blocks.length
  /-- No block is empty. -/
  nonempty : ∀ b ∈ code.blocks, b.ops ≠ []
  /-- Blocks start at the first instruction, at targets, and behind jumps and terminators. -/
  starts : ∀ k < code.ops.length, (∃ b ∈ code.blocks, b.start? = some k) ↔
    k = 0 ∨ (∃ i ∈ code.ops, i.target = some k) ∨
      ∃ i ∈ code.ops, i.index + 1 = k ∧ (i.op.hasTarget ∨ i.op.isTerminator)
  /-- Jumps and terminators are the last instructions of blocks. -/
  last : ∀ b ∈ code.blocks, ∀ i ∈ b.ops, i.op.hasTarget ∨ i.op.isTerminator → b.last? = some i
  /-- Targets are the first instructions of blocks. -/
  first : ∀ b ∈ code.blocks, ∀ i ∈ b.ops, (∃ j ∈ code.ops, j.target = some i.index) →
    b.start? = some i.index

/-- Code that has been built is valid, and its blocks are cut where blocks start. -/
theorem build_blocks (h : a.build = .ok code) : code.checkSelf = .ok () ∧
    code.blocks = Block.partition code.ops ∧ ∀ b ∈ code.blocks,
      Block.IsRun (fun i => (Block.leaders code.ops).contains i.index) b.ops := by
  obtain ⟨ops, -, -, rfl, hvalid⟩ := build_ok h
  have hself := (Code.validate_ok hvalid).1
  have hops : Code.ops { a.code with blocks := Block.partition ops } = ops :=
    Block.flatMap_partition ops
  refine ⟨hself, by rw [hops], fun b hb => ?_⟩
  rw [hops]
  refine Block.isRun_partition (fun i hi => ?_) hb
  rw [List.head?_eq_getElem?] at hi
  exact Code.index_of_getElem? hself (hops.symm ▸ hi)

/-- A run starts at its instruction that leads. -/
theorem start?_of_leads (h : Block.IsRun leads b.ops) (hi : i ∈ b.ops) (hleads : leads i) :
    b.start? = some i.index := by
  obtain ⟨first, rest, hops, -, hrest⟩ := h
  rw [hops] at hi
  rcases List.mem_cons.mp hi with rfl | hi
  · simp [Block.start?, hops]
  · exact absurd hleads (hrest i hi)

theorem exists_block (hi : i ∈ code.ops) : ∃ b ∈ code.blocks, i ∈ b.ops := List.mem_flatMap.mp hi

theorem instruction_of_call (h : s.build = .ok code) {op : Op}
    (hcalls : s.calls = before ++ x :: after) (hop : x.op? = some op) :
    ∃ i, code.ops[positionAfter before]? = some i ∧ i.index = positionAfter before ∧ i.op = op ∧
      i.line = before.foldl Call.lineFrom s.prepared.line ∧
      match x.label? with
      | none => i.target = none ∧
          ∃ p, ((s.behind before).call x).pending = p :: (s.behind before).pending ∧ i.arg = p.arg
      | some label => ∃ pos, BoundLast s.calls label pos ∧ i.target = some pos ∧
          i.arg = some pos := by
  obtain ⟨p, hp, hpop, hline, hlabel⟩ := call_pending_of_emits (a := s.behind before) (x := x)
    (by rw [Call.emits, hop]; rfl)
  obtain ⟨ops, -, hat, rfl, -⟩ := build_ok h
  obtain ⟨i, hi, hresolve⟩ := hat _ p (emitted_of_call hcalls hp)
  obtain ⟨hindex, hiop, hiline, htarget⟩ := resolve_ok hresolve
  refine ⟨i, ?_, hindex, ?_, ?_, ?_⟩
  · rw [← hi]
    exact congrArg (·[positionAfter before]?) (Block.flatMap_partition ops)
  · exact hiop.trans (Option.some.inj (hpop.symm.trans hop))
  · rw [hiline, hline, Script.behind, perform_line]
  · rw [hlabel] at htarget
    cases hx : x.label? with
    | none =>
      rw [hx] at htarget
      exact ⟨htarget.2, p, hp, htarget.1⟩
    | some label =>
      rw [hx] at htarget
      obtain ⟨pos, hpos, harg, htarget⟩ := htarget
      exact ⟨pos, position?_behind_iff.mp hpos, htarget, harg⟩

theorem assembles (h : s.build = .ok code) : s.Assembles code := by
  obtain ⟨hself, hblocks, hruns⟩ := build_blocks h
  have hstarts {b : Block} (hb : b ∈ code.blocks) {i : Instruction} (hi : i ∈ b.ops)
      (hleads : i.index ∈ Block.leaders code.ops) : b.start? = some i.index :=
    start?_of_leads (hruns b hb) hi (List.contains_iff_mem.mpr hleads)
  refine ⟨?_, fun before x after op => instruction_of_call h, ?_, fun b hb => (hruns b hb).ne_nil,
    fun k hk => ?_, fun b hb i hi hjumps => ?_, fun b hb i hi htarget => ?_⟩
  · obtain ⟨ops, hlength, -, rfl, -⟩ := build_ok h
    rw [← length_behind_pending s s.calls]
    refine (congrArg List.length (Block.flatMap_partition ops)).trans (hlength.trans ?_)
    exact List.length_reverse
  · rw [hblocks]
    exact Block.map_id_partition code.ops
  · have hat : code.ops[k]? = some code.ops[k] := List.getElem?_eq_getElem hk
    have hindex := Code.index_of_getElem? hself hat
    rw [← Block.mem_leaders]
    constructor
    · rintro ⟨b, hb, hstart⟩
      obtain ⟨i, rest, hops, hleads, -⟩ := hruns b hb
      obtain rfl : i.index = k := by simpa [Block.start?, hops] using hstart
      exact List.contains_iff_mem.mp hleads
    · intro hk
      obtain ⟨b, hb, hi⟩ := exists_block (List.mem_of_getElem? hat)
      exact ⟨b, hb, hindex ▸ hstarts hb hi (hindex.symm ▸ hk)⟩
  · -- What follows a jump leads, so it does not stand behind the jump in the same block.
    obtain ⟨pre, post, hops⟩ := List.append_of_mem hi
    cases post with
    | nil => simp [Block.last?, hops]
    | cons j post =>
      have hnext : i.index + 1 = j.index := (Code.index_eq_next hself hb hops).symm
      have hleads : j.index ∈ Block.leaders code.ops :=
        Block.mem_leaders.mpr (.inr (.inr ⟨i, Code.mem_ops hb hi, hnext, hjumps⟩))
      obtain ⟨first, rest, hrun, -, hrest⟩ := hruns b hb
      refine absurd (List.contains_iff_mem.mpr hleads) (hrest j ?_)
      have htail : rest = (pre ++ i :: j :: post).tail := by rw [← hops, hrun, List.tail_cons]
      rw [htail]
      cases pre <;> simp
  · obtain ⟨j, hj, htarget⟩ := htarget
    exact hstarts hb hi (Block.mem_leaders.mpr (.inr (.inl ⟨j, hj, htarget⟩)))

/-- A script fails for an unbound label if and only if it jumps to a label that none of its calls
binds. Code that it builds has its instructions in order, each label resolved, in blocks that are
cut exactly where blocks have to start. -/
theorem build_exact (s : Script) :
    ((∃ e, s.build = .error e ∧ e.isUnbound) ↔
      ∃ x ∈ s.calls, ∃ label, x.label? = some label ∧ ¬ ∃ pos, BoundLast s.calls label pos) ∧
    ∀ code, s.build = .ok code → s.Assembles code := by
  refine ⟨?_, fun code => assembles⟩
  have hpos (label : Nat) : (¬ ∃ pos, BoundLast s.calls label pos) ↔
      (s.behind s.calls).position? label = none := by
    simp only [← position?_behind_iff (s := s), Option.eq_none_iff_forall_ne_some, not_exists]
  rw [Script.build, build_unbound_iff]
  simp only [hpos]
  constructor
  · rintro ⟨p, hp, label, hlabel, hnone⟩
    obtain ⟨x, hx, hxlabel⟩ := mem_emitted_label_iff.mp ⟨p, hp, hlabel⟩
    exact ⟨x, hx, label, hxlabel, hnone⟩
  · rintro ⟨x, hx, label, hlabel, hnone⟩
    obtain ⟨p, hp, hplabel⟩ := mem_emitted_label_iff.mpr ⟨x, hx, hlabel⟩
    exact ⟨p, hp, label, hplabel, hnone⟩

/-- A loop with two jumps in a row. Its exit is bound twice. -/
def retryLoop : Script where
  opening := .module "retry.py"
  modifiers := [.firstLine 3]
  calls := [.newLabel, .newLabel, .step (.bind 1), .step (.bind 0), .step (.withName .loadName "c"),
    .step (.jump .popJumpIfFalse 1), .step (.jump .jumpAbsolute 0), .step (.line 4),
    .step (.bind 1), .step (.loadConst .none), .step (.plain .returnValue)]

/-- What comes of the loop. -/
def retryCode : Code where
  name := "<module>"
  filename := "retry.py"
  firstLine := 3
  argCount := 0
  kwonlyArgCount := 0
  flags := 0
  varnames := []
  names := ["c"]
  consts := [.none]
  cellvars := []
  freevars := []
  blocks := [
    ⟨0, [⟨0, .loadName, some 0, 3, none⟩, ⟨1, .popJumpIfFalse, some 3, 3, some 3⟩]⟩,
    ⟨1, [⟨2, .jumpAbsolute, some 0, 3, some 0⟩]⟩,
    ⟨2, [⟨3, .loadConst, some 0, 4, none⟩, ⟨4, .returnValue, none, 4, none⟩]⟩]

theorem retryLoop_assembles :
    retryLoop.build = .ok retryCode ∧ retryLoop.Assembles retryCode := by
  have hbuild : retryLoop.build = .ok retryCode := rfl
  exact ⟨hbuild, (build_exact retryLoop).2 retryCode hbuild⟩

end Assembler

end ValueTrace
