import Mathlib.Data.List.Basic
import Mathlib.Data.List.Induction
import Mathlib.Tactic.Common
import ValueTrace.Bytecode.Assembler
import ValueTrace.Proofs.Success

/-!
# Scripts for an assembler

All that can be asked of an assembler: it is opened, its code is modified, then instructions are
emitted one by one. What has been emitted stays, the tables only grow at their ends, and a label is
where the last call has bound it.
-/

namespace ValueTrace

namespace Except

variable {ε α β : Type} {f : α → Except ε β} {l : List α}

theorem bind_eq_error {x : Except ε α} {g : α → Except ε β} {e : ε} :
    (x >>= g) = .error e ↔ x = .error e ∨ ∃ a, x = .ok a ∧ g a = .error e := by
  cases x <;> simp [bind, Except.bind]

/-- Steps that all succeed give their results in order. -/
theorem getElem?_of_mapM {r : List β} (h : l.mapM f = .ok r) : r.length = l.length ∧
    ∀ (k : Nat) (a : α), l[k]? = some a → ∃ b, r[k]? = some b ∧ f a = .ok b := by
  induction l generalizing r with
  | nil =>
    cases h
    exact ⟨rfl, nofun⟩
  | cons a l ih =>
    rw [List.mapM_cons] at h
    obtain ⟨b, hb, h⟩ := Except.bind_eq_ok.mp h
    obtain ⟨r, hr, h⟩ := Except.bind_eq_ok.mp h
    cases h
    obtain ⟨hlength, hat⟩ := ih hr
    refine ⟨by simp [hlength], fun k c hc => ?_⟩
    cases k with
    | zero =>
      cases hc
      exact ⟨b, rfl, hb⟩
    | succ k => exact hat k c hc

theorem exists_of_mapM_error {e : ε}
    (h : l.mapM f = .error e) : ∃ a ∈ l, f a = .error e := by
  induction l with
  | nil => cases h
  | cons a l ih =>
    rw [List.mapM_cons] at h
    cases ha : f a with
    | error e' =>
      rw [ha] at h
      cases h
      exact ⟨a, List.mem_cons_self, ha⟩
    | ok b =>
      rw [ha] at h
      cases hl : l.mapM f with
      | error e' =>
        rw [hl] at h
        cases h
        obtain ⟨c, hc, he⟩ := ih hl
        exact ⟨c, List.mem_cons_of_mem a hc, he⟩
      | ok bs =>
        rw [hl] at h
        cases h

end Except

namespace Assembler

/-- How an assembler is opened. -/
inductive Opening where
  | module (filename : String)
  | function (name : String) (params : List String)
  | classBody (name : String)

def Opening.assembler : Opening → Assembler
  | .module filename => Assembler.module filename
  | .function name params => Assembler.function name params
  | .classBody name => Assembler.classBody name

/-- A change to the code before any instruction. -/
inductive Modifier where
  | filename (s : String)
  | firstLine (n : Nat)
  | flag (flag : UInt32)
  | kwonly (names : List String)
  | varargs (name : String)
  | varkw (name : String)
  | cellvars (names : List String)
  | freevars (names : List String)

/-- Make a change. -/
def change (a : Assembler) : Modifier → Assembler
  | .filename s => a.filename s
  | .firstLine n => a.firstLine n
  | .flag flag => a.flag flag
  | .kwonly names => a.kwonly names
  | .varargs name => a.varargs name
  | .varkw name => a.varkw name
  | .cellvars names => a.cellvars names
  | .freevars names => a.freevars names

/-- A call once the code has been modified. -/
inductive Call where
  | newLabel
  | step (s : Step)

namespace Call

def isNewLabel : Call → Bool
  | newLabel => true
  | step _ => false

/-- The operation of the instruction that the call emits. -/
def op? : Call → Option Op
  | newLabel | step (.line _) | step (.bind _) | step (.constant _) => none
  | step (.loadConst _) => some .loadConst
  | step (.plain op) | step (.withArg op _) | step (.withName op _) | step (.withLocal op _)
  | step (.withCell op _) | step (.jump op _) => some op

def emits (x : Call) : Bool := x.op?.isSome

def label? : Call → Option Nat
  | step (.jump _ label) => some label
  | _ => none

def binds (label : Nat) : Call → Bool
  | step (.bind l) => l == label
  | _ => false

def lineFrom (line : Nat) : Call → Nat
  | step (.line n) => n
  | _ => line

end Call

def call (a : Assembler) : Call → Assembler
  | .newLabel => a.newLabel
  | .step s => a.step s

def perform (a : Assembler) (calls : List Call) : Assembler := calls.foldl call a

/-- An opening, the modifiers, and the calls behind them. -/
structure Script where
  opening : Opening
  modifiers : List Modifier
  calls : List Call

namespace Script

def prepared (s : Script) : Assembler := s.modifiers.foldl change s.opening.assembler

def behind (s : Script) (calls : List Call) : Assembler := s.prepared.perform calls

def build (s : Script) : Except CodeError Code := (s.behind s.calls).build

end Script

def positionAfter (calls : List Call) : Nat := calls.countP Call.emits

/-- The label is there when one of the calls binds it, no later one does, and the instruction that
comes next has the position. -/
def BoundLast (calls : List Call) (label pos : Nat) : Prop :=
  ∃ before after, calls = before ++ .step (.bind label) :: after ∧
    label < before.countP Call.isNewLabel ∧ (∀ c ∈ after, ¬ c.binds label) ∧
    pos = positionAfter before

variable {a b c : Assembler} {calls before after : List Call} {x : Call} {s : Script}
  {label pos : Nat}

theorem perform_cons : a.perform (x :: calls) = (a.call x).perform calls := rfl

theorem perform_append : a.perform (before ++ after) = (a.perform before).perform after :=
  List.foldl_append

theorem constIndex_snd (k : Constant) : (a.constIndex k).2.pending = a.pending ∧
    (a.constIndex k).2.labels = a.labels ∧ (a.constIndex k).2.line = a.line := by
  unfold constIndex
  split <;> exact ⟨rfl, rfl, rfl⟩

/-- An instruction on a cell refers to a cell, to a free variable, or to a cell that is new. -/
theorem cellOp_cases (a : Assembler) (op : Op) (name : String) :
    (∃ k, a.code.cellvars[k]? = some name ∧ a.cellOp op name = a.emit op (some k) none) ∨
    (name ∉ a.code.cellvars ∧ ∃ k, a.code.freevars.idxOf? name = some k ∧
      a.cellOp op name = a.emit op (some (a.code.cellvars.length + k)) none) ∨
    (name ∉ a.code.cellvars ∧ name ∉ a.code.freevars ∧
      a.cellOp op name = (a.modifyCode fun c => { c with cellvars := c.cellvars ++ [name] }).emit op
        (some a.code.cellvars.length) none) := by
  unfold cellOp
  cases hcell : a.code.cellvars.idxOf? name with
  | some k =>
    obtain ⟨hlt, hname, -⟩ := List.idxOf?_eq_some_iff.mp hcell
    exact .inl ⟨k, List.getElem?_eq_some_iff.mpr ⟨hlt, hname⟩, rfl⟩
  | none =>
    have hnotcell := List.idxOf?_eq_none_iff.mp hcell
    cases hfree : a.code.freevars.idxOf? name with
    | some k => exact .inr (.inl ⟨hnotcell, k, rfl, rfl⟩)
    | none => exact .inr (.inr ⟨hnotcell, List.idxOf?_eq_none_iff.mp hfree, rfl⟩)

theorem cellOp_emits (a : Assembler) (op : Op) (name : String) : ∃ i,
    (a.cellOp op name).pending = ⟨op, some i, a.line, none⟩ :: a.pending ∧
      (a.cellOp op name).labels = a.labels ∧ (a.cellOp op name).line = a.line := by
  rcases cellOp_cases a op name with ⟨_, _, h⟩ | ⟨_, _, _, h⟩ | ⟨_, _, h⟩ <;>
    exact h ▸ ⟨_, rfl, rfl, rfl⟩

/-- A call emits one instruction, with the line of the moment, or none. -/
theorem call_pending (a : Assembler) (x : Call) :
    match x.op? with
    | none => (a.call x).pending = a.pending
    | some op => ∃ arg, (a.call x).pending = ⟨op, arg, a.line, x.label?⟩ :: a.pending := by
  cases x with
  | newLabel => rfl
  | step s =>
    cases s with
    | line _ | bind _ => rfl
    | constant k => exact (constIndex_snd k).1
    | plain op => exact ⟨none, rfl⟩
    | withArg op n => exact ⟨some n, rfl⟩
    | withName op name | withLocal op name => exact ⟨some _, rfl⟩
    | jump op label => exact ⟨some 0, rfl⟩
    | loadConst k =>
      obtain ⟨hpending, -, hline⟩ := constIndex_snd (a := a) k
      refine ⟨some (a.constIndex k).1, ?_⟩
      rw [← hpending, ← hline]
      rfl
    | withCell op name =>
      obtain ⟨i, hpending, -, -⟩ := cellOp_emits a op name
      exact ⟨some i, hpending⟩

theorem call_pending_of_emits (h : x.emits) :
    ∃ p, (a.call x).pending = p :: a.pending ∧ x.op? = some p.op ∧ p.line = a.line ∧
      p.label = x.label? := by
  obtain ⟨op, hop⟩ := Option.isSome_iff_exists.mp h
  have hx := call_pending a x
  rw [hop] at hx
  obtain ⟨arg, hx⟩ := hx
  exact ⟨_, hx, hop, rfl, rfl⟩

theorem call_pending_of_not_emits (h : ¬ x.emits) : (a.call x).pending = a.pending := by
  have hx := call_pending a x
  rwa [Option.not_isSome_iff_eq_none.mp h] at hx

theorem call_line (a : Assembler) (x : Call) : (a.call x).line = x.lineFrom a.line := by
  cases x with
  | newLabel => rfl
  | step s =>
    cases s with
    | line _ | bind _ | plain _ | withArg _ _ | withName _ _ | withLocal _ _ | jump _ _ => rfl
    | constant k | loadConst k => exact (constIndex_snd k).2.2
    | withCell op name =>
      obtain ⟨_, -, -, hline⟩ := cellOp_emits a op name
      exact hline

theorem perform_line (a : Assembler) (calls : List Call) :
    (a.perform calls).line = calls.foldl Call.lineFrom a.line := by
  induction calls generalizing a with
  | nil => rfl
  | cons x calls ih => rw [perform_cons, ih, call_line, List.foldl_cons]

theorem length_perform_pending (a : Assembler) (calls : List Call) :
    (a.perform calls).pending.length = a.pending.length + positionAfter calls := by
  induction calls generalizing a with
  | nil => rfl
  | cons x calls ih =>
    rw [perform_cons, ih, positionAfter, positionAfter, List.countP_cons]
    split_ifs with hx
    · obtain ⟨p, hp, -⟩ := call_pending_of_emits (a := a) hx
      rw [hp, List.length_cons]
      omega
    · rw [call_pending_of_not_emits hx, Nat.add_zero]

/-- Instructions that have been emitted stay. -/
theorem suffix_perform_pending (a : Assembler) (calls : List Call) :
    a.pending <:+ (a.perform calls).pending := by
  induction calls generalizing a with
  | nil => exact List.suffix_rfl
  | cons x calls ih =>
    refine List.IsSuffix.trans ?_ (ih (a.call x))
    by_cases hx : x.emits
    · obtain ⟨p, hp, -⟩ := call_pending_of_emits (a := a) hx
      exact hp ▸ List.suffix_cons p _
    · exact call_pending_of_not_emits hx ▸ List.suffix_rfl

theorem call_labels (a : Assembler) (x : Call) : (a.call x).labels = match x with
    | .newLabel => a.labels.push none
    | .step (.bind l) => a.labels.setIfInBounds l (some a.pending.length)
    | _ => a.labels := by
  cases x with
  | newLabel => rfl
  | step s =>
    cases s with
    | line _ | bind _ | plain _ | withArg _ _ | withName _ _ | withLocal _ _ | jump _ _ => rfl
    | constant k | loadConst k => exact (constIndex_snd k).2.1
    | withCell op name =>
      obtain ⟨_, -, hlabels, -⟩ := cellOp_emits a op name
      exact hlabels

theorem size_perform_labels (a : Assembler) (calls : List Call) :
    (a.perform calls).labels.size = a.labels.size + calls.countP Call.isNewLabel := by
  induction calls generalizing a with
  | nil => rfl
  | cons x calls ih =>
    rw [perform_cons, ih, call_labels, List.countP_cons]
    cases x with
    | newLabel => simp [Call.isNewLabel]; omega
    | step s => cases s <;> simp [Call.isNewLabel]

/-- Only a call that binds the label changes its position. -/
theorem position?_call (h : ¬ x.binds label) : (a.call x).position? label = a.position? label := by
  unfold position?
  rw [call_labels]
  cases x with
  | newLabel => grind
  | step s => cases s <;> grind [Call.binds]

theorem position?_perform (h : ∀ x ∈ calls, ¬ x.binds label) :
    (a.perform calls).position? label = a.position? label := by
  induction calls generalizing a with
  | nil => rfl
  | cons x calls ih =>
    obtain ⟨hx, hcalls⟩ := List.forall_mem_cons.mp h
    rw [perform_cons, ih hcalls, position?_call hx]

theorem position?_bind : (a.call (.step (.bind label))).position? label =
    if label < a.labels.size then some a.pending.length else none := by
  unfold position?
  rw [call_labels]
  split_ifs with h
  · simp [h]
  · rw [Array.getElem?_eq_none (by simpa using h), Option.join_none]

theorem prepared_fresh (s : Script) : s.prepared.pending = [] ∧ s.prepared.labels = #[] := by
  have hopen : s.opening.assembler.pending = [] ∧ s.opening.assembler.labels = #[] := by
    cases s.opening <;> exact ⟨rfl, rfl⟩
  unfold Script.prepared
  generalize s.opening.assembler = a at hopen ⊢
  induction s.modifiers generalizing a with
  | nil => exact hopen
  | cons m modifiers ih =>
    refine ih (a.change m) ?_
    cases m <;> exact hopen

theorem behind_append : s.behind (before ++ after) = (s.behind before).perform after :=
  perform_append

theorem length_behind_pending (s : Script) (calls : List Call) :
    (s.behind calls).pending.length = positionAfter calls := by
  rw [Script.behind, length_perform_pending, (prepared_fresh s).1, List.length_nil, Nat.zero_add]

theorem size_behind_labels (s : Script) (calls : List Call) :
    (s.behind calls).labels.size = calls.countP Call.isNewLabel := by
  rw [Script.behind, size_perform_labels, (prepared_fresh s).2]
  simp

/-- A label is where it was bound last. -/
theorem position?_behind_iff :
    (s.behind calls).position? label = some pos ↔ BoundLast calls label pos := by
  constructor
  · intro h
    -- The last call that binds the label, if there is one.
    induction calls using List.reverseRecOn with
    | nil =>
      rw [Script.behind, perform, List.foldl_nil, position?, (prepared_fresh s).2] at h
      simp at h
    | append_singleton calls x ih =>
      rw [behind_append, perform_cons, perform, List.foldl_nil] at h
      by_cases hx : x.binds label
      · obtain rfl : x = .step (.bind label) := by
          cases x with
          | newLabel => cases hx
          | step s => cases s <;> simp_all [Call.binds]
        rw [position?_bind, size_behind_labels, length_behind_pending] at h
        split_ifs at h with hlt
        exact ⟨calls, [], rfl, hlt, nofun, (Option.some.inj h).symm⟩
      · rw [position?_call hx] at h
        obtain ⟨before, after, rfl, hlt, hafter, rfl⟩ := ih h
        refine ⟨before, after ++ [x], by simp, hlt, fun c hc => ?_, rfl⟩
        rcases List.mem_append.mp hc with hc | hc
        · exact hafter c hc
        · exact List.mem_singleton.mp hc ▸ hx
  · rintro ⟨before, after, rfl, hlt, hafter, rfl⟩
    rw [behind_append, perform_cons, position?_perform hafter, position?_bind, size_behind_labels,
      length_behind_pending, if_pos hlt]

/-- The instruction that a call emits stays at its position. -/
theorem emitted_of_call (hcalls : s.calls = before ++ x :: after) {p : PendingOp}
    (hp : ((s.behind before).call x).pending = p :: (s.behind before).pending) :
    (s.behind s.calls).emitted[positionAfter before]? = some p := by
  have hsuffix : p :: (s.behind before).pending <:+ (s.behind s.calls).pending := by
    rw [← hp, hcalls, behind_append, perform_cons]
    exact suffix_perform_pending _ after
  obtain ⟨later, hlater⟩ := hsuffix
  rw [emitted, ← hlater, ← length_behind_pending s before]
  simp

/-- Instructions that are still to get a target are those of calls that jump. -/
theorem mem_emitted_label_iff : (∃ p ∈ (s.behind calls).emitted, p.label = some label) ↔
    ∃ x ∈ calls, x.label? = some label := by
  induction calls using List.reverseRecOn with
  | nil =>
    rw [emitted, Script.behind, perform, List.foldl_nil, (prepared_fresh s).1]
    simp
  | append_singleton calls x ih =>
    have hbehind : s.behind (calls ++ [x]) = (s.behind calls).call x := behind_append
    simp only [emitted, List.mem_reverse] at ih ⊢
    simp only [hbehind, List.mem_append, or_and_right, exists_or, List.mem_singleton,
      exists_eq_left]
    by_cases hx : x.emits
    · obtain ⟨p, hp, -, -, hlabel⟩ := call_pending_of_emits (a := s.behind calls) hx
      rw [hp, List.exists_mem_cons_iff, ih, hlabel, or_comm]
    · rw [call_pending_of_not_emits hx, ih]
      have hnone : x.label? = none := by
        cases x with
        | newLabel => rfl
        | step s => cases s <;> simp_all [Call.emits, Call.op?, Call.label?]
      simp [hnone]

/-- What building takes: each instruction can be finished, and the whole is valid. -/
theorem build_ok {code : Code} (h : a.build = .ok code) : ∃ ops : List Instruction,
    ops.length = a.emitted.length ∧
      (∀ k p, a.emitted[k]? = some p → ∃ i, ops[k]? = some i ∧ a.resolve p k = .ok i) ∧
      code = { a.code with blocks := Block.partition ops } ∧ code.validate = .ok () := by
  obtain ⟨ops, hops, h⟩ := Except.bind_eq_ok.mp h
  obtain ⟨⟨⟩, hvalid, h⟩ := Except.bind_eq_ok.mp h
  cases h
  obtain ⟨hlength, hat⟩ := Except.getElem?_of_mapM hops
  refine ⟨ops, by simpa using hlength, fun k p hp => ?_, rfl, hvalid⟩
  exact hat k (p, k) (by simp [hp])

theorem resolve_ok {p : PendingOp} {k : Nat} {i : Instruction} (h : a.resolve p k = .ok i) :
    i.index = k ∧ i.op = p.op ∧ i.line = p.line ∧
      match p.label with
      | none => i.arg = p.arg ∧ i.target = none
      | some label => ∃ pos, a.position? label = some pos ∧ i.arg = some pos ∧ i.target = some pos := by
  unfold resolve at h
  cases hlabel : p.label with
  | none =>
    rw [hlabel] at h
    cases h
    exact ⟨rfl, rfl, rfl, rfl, rfl⟩
  | some label =>
    rw [hlabel] at h
    cases hpos : a.position? label with
    | none => simp [hpos] at h
    | some pos =>
      simp only [hpos] at h
      cases h
      exact ⟨rfl, rfl, rfl, pos, hpos, rfl, rfl⟩

end Assembler

end ValueTrace
