import ValueTrace.Proofs.Graph.Growth
import ValueTrace.Proofs.Safety.Lookups
import ValueTrace.Step.Branch

/-!
# Paths through code that has passed its check

An instruction of such code has the argument and the target that it asks for, and the argument stays
within its table. So nothing unexpected happens when a path is led on.
-/

namespace ValueTrace

def Path.Steady (p : Path) : Prop := p.stop ≠ some .continued

/-- The instruction has what its operation asks for in this code. -/
structure Instruction.FitsCode (i : Instruction) (c : Code) : Prop where
  arg : i.op.hasArg = true → i.arg.isSome
  target : i.op.hasTarget = true → i.target.isSome
  entry : ∀ {table}, CodeTable.ofOp? i.op = some table → i.arg.getD 0 < table.size c

/-- What an instruction leaves of a path. Only an instruction with a target can continue a loop. -/
def Instruction.Leads (i : Instruction) (p : Path) : Prop :=
  p.stop = some .continued → i.target.isSome

namespace Code

variable {c : Code}

theorem validate_ok (h : c.validate = .ok ()) :
    c.checkSelf = .ok () ∧ Constant.validateAll c.consts = .ok () := by
  obtain ⟨⟩ := c
  rw [Code.validate, Except.bind_eq_ok] at h
  obtain ⟨_, hself, hconsts⟩ := h
  exact ⟨hself, hconsts⟩

theorem checkOp_ok {starts : List Nat} {expected : Nat} {i : Instruction}
    (h : c.checkOp starts expected i = .ok ()) : i.FitsCode c := by
  unfold checkOp at h
  simp only [bind, Except.bind] at h
  split at h
  · cases h
  split at h
  · cases h
  next harg =>
  split at h
  · cases h
  next htarget =>
  refine ⟨fun ha => ?_, fun ht => ?_, fun {table} hentry => ?_⟩
  · simpa [ha, Option.isSome_iff_ne_none] using harg
  · rw [ht] at htarget
    cases hi : i.target with
    | none => simp [hi] at htarget
    | some t => rfl
  · rw [hentry] at h
    simp only at h
    split at h
    · cases h
    · omega

theorem fitsCode (h : c.checkSelf = .ok ()) {i : Instruction} (hi : i ∈ c.ops) : i.FitsCode c := by
  unfold checkSelf at h
  simp only [bind, Except.bind] at h
  split at h
  · cases h
  split at h
  · cases h
  obtain ⟨k, hk, rfl⟩ := List.mem_iff_getElem.mp hi
  refine checkOp_ok (forM_eq_ok.mp h (c.ops[k], k) ?_)
  simp [List.mem_zipIdx_iff_getElem?, hk]

theorem firstOp?_isSome (h : c.checkSelf = .ok ()) : c.firstOp?.isSome := by
  unfold checkSelf at h
  simp only [bind, Except.bind] at h
  split at h
  · cases h
  next hblocks =>
  split at h
  · cases h
  next starts hstarts =>
  unfold blockStarts at hstarts
  cases hb : c.blocks with
  | nil => simp [hb] at hblocks
  | cons b bs =>
    rw [hb, List.mapM_cons, Except.bind_eq_ok] at hstarts
    obtain ⟨k, hk, -⟩ := hstarts
    split at hk
    · next hstart =>
      unfold Block.start? at hstart
      cases hops : b.ops with
      | nil => simp [hops] at hstart
      | cons i is => simp [firstOp?, hb, hops]
    · cases hk

end Code

namespace Analysis.Agree

variable {S : Setting} {s : Shape} {i : Instruction} {p : Path}

theorem pop (hp : p.Steady) : Safe S (liftM p.pop) fun r => r.2.Steady := by
  unfold Path.pop
  cases p.stack with
  | nil => exact throw trivial
  | cons v stack => exact pure hp

theorem discard (hp : p.Steady) : Safe S (liftM p.discard) Path.Steady := by
  unfold Path.discard Path.pop
  cases p.stack with
  | nil => exact throw trivial
  | cons v stack => exact pure hp

theorem popN (n : Nat) (hp : p.Steady) : Safe S (liftM (p.popN n)) fun r => r.2.Steady := by
  unfold Path.popN
  split
  · exact throw trivial
  · exact pure hp

theorem popTwo (hp : p.Steady) : Safe S (liftM p.popTwo) fun r => r.2.2.Steady := by
  unfold Path.popTwo
  split
  · exact pure hp
  · exact throw trivial

theorem popThree (hp : p.Steady) : Safe S (liftM p.popThree) fun r => r.2.2.2.Steady := by
  unfold Path.popThree
  split
  · exact pure hp
  · exact throw trivial

theorem peek (n : Nat) : Safe S (liftM (p.peek n)) fun _ => True := by
  unfold Path.peek
  cases n with
  | zero => exact throw trivial
  | succ n =>
    dsimp only
    cases p.stack[n]? with
    | none => exact throw trivial
    | some v => exact pure trivial

theorem top : Safe S (liftM p.top) fun _ => True := peek 1

end Analysis.Agree

namespace Path

variable {p : Path}

@[simp] theorem stop_pushAll (vs : List VarId) : (p.pushAll vs).stop = p.stop := by
  unfold pushAll
  induction vs generalizing p with
  | nil => rfl
  | cons v vs ih => exact ih

theorem Steady.pushAll (hp : p.Steady) (vs : List VarId) : (p.pushAll vs).Steady := by
  unfold Steady
  rwa [stop_pushAll]

theorem Steady.restrict (hp : p.Steady) (c : Condition) : (p.restrict c).Steady := by
  cases c with
  | unsatisfiable => exact fun h => by cases h
  | unrestricted | holds _ => exact hp

end Path

namespace Frame.Waits

variable {f : Frame} {p : Path}

theorem insert (hf : f.Waits) (hp : p.stop = none) (k : Nat) :
    Frame.Waits { f with entries := f.entries.insert k p } := by
  refine ⟨fun {j q} hq => ?_, hf.raised⟩
  dsimp only at hq
  rw [Std.TreeMap.getElem?_insert] at hq
  split at hq
  · cases hq
    exact hp
  · exact hf.entry hq

theorem insertRaised (hf : f.Waits) (hp : p.stop = none) (k : Nat) :
    Frame.Waits { f with raisedEntries := f.raisedEntries.insert k p } := by
  refine ⟨hf.entry, fun {j q} hq => ?_⟩
  dsimp only at hq
  rw [Std.TreeMap.getElem?_insert] at hq
  split at hq
  · cases hq
    exact hp
  · exact hf.raised hq

end Frame.Waits

namespace Op

variable {op : Op}

theorem hasArg_of_usesName (h : op.usesName = true) : op.hasArg = true := by
  cases op <;> first | rfl | cases h

theorem hasArg_of_usesLocal (h : op.usesLocal = true) : op.hasArg = true := by
  cases op <;> first | rfl | cases h

theorem hasArg_of_usesCell (h : op.usesCell = true) : op.hasArg = true := by
  cases op <;> first | rfl | cases h

theorem hasArg_of_usesConst (h : op.usesConst = true) : op.hasArg = true := by
  cases op <;> first | rfl | cases h

theorem table_of_usesLocal (h : op.usesLocal = true) : CodeTable.ofOp? op = some .locals := by
  cases op <;> first | rfl | cases h

theorem table_of_usesCell (h : op.usesCell = true) : CodeTable.ofOp? op = some .cells := by
  cases op <;> first | rfl | cases h

theorem table_of_usesConst (h : op.usesConst = true) : CodeTable.ofOp? op = some .consts := by
  cases op <;> first | rfl | cases h

end Op

namespace Analysis.Agree

variable {S : Setting} {s : Shape} {i : Instruction} {p : Path} {α : Type}

theorem discardN (n : Nat) (hp : p.Steady) : Safe S (liftM (p.discardN n)) Path.Steady := by
  unfold Path.discardN Path.popN
  split
  · exact throw trivial
  · exact pure hp

theorem rotate (n : Nat) (hp : p.Steady) : Safe S (liftM (p.rotate n)) Path.Steady := by
  unfold Path.rotate Path.popN
  split
  · exact throw trivial
  · refine pure (Path.Steady.pushAll ?_ _)
    exact hp

theorem duplicate (n : Nat) (hp : p.Steady) : Safe S (liftM (p.duplicate n)) Path.Steady := by
  unfold Path.duplicate Path.popN
  split
  · exact throw trivial
  · refine pure (Path.Steady.pushAll (Path.Steady.pushAll ?_ _) _)
    exact hp

theorem leave (hp : p.Steady) : Safe S (liftM p.leave) fun r => r.2.Steady := by
  unfold Path.leave
  cases p.regions with
  | nil => exact throw trivial
  | cons r regions => exact pure hp

theorem argument (hi : i.FitsCode s.code.code) (harg : i.op.hasArg = true) :
    Safe S (argument i) fun n => i.arg = some n := by
  obtain ⟨n, hn⟩ := Option.isSome_iff_exists.mp (hi.arg harg)
  unfold Analysis.argument
  rw [hn]
  exact pure rfl

theorem target (hi : i.FitsCode s.code.code) (ht : i.op.hasTarget = true) :
    Safe S (target i) fun _ => True := by
  obtain ⟨n, hn⟩ := Option.isSome_iff_exists.mp (hi.target ht)
  unfold Analysis.target
  rw [hn]
  exact pure trivial

theorem ne_nil_of_head? (hs : S.frames.head? = some s) : S.frames ≠ [] := by
  rintro h
  rw [h] at hs
  cases hs

theorem entryAt {table : CodeTable} {entries : Frame → List α} {Q : α → Prop}
    (hs : S.frames.head? = some s) (hi : i.FitsCode s.code.code) (harg : i.op.hasArg = true)
    (htable : CodeTable.ofOp? i.op = some table)
    (hentries : ∀ f : Frame, f.shape = s →
      (entries f).length = table.size s.code.code ∧ ∀ a ∈ entries f, Q a) :
    Safe S (entryAt table entries i) Q := by
  refine bind (argument hi harg) fun n hn => bind (frame (ne_nil_of_head? hs)) fun f hf => ?_
  obtain ⟨hlength, hQ⟩ := hentries f (Option.some.inj (hf.1.symm.trans hs))
  have hlt : n < (entries f).length := by
    have hentry := hi.entry htable
    rw [hn] at hentry
    rw [hlength]
    exact hentry
  rw [List.getElem?_eq_getElem hlt]
  exact pure (hQ _ (List.getElem_mem hlt))

theorem nameAt (hs : S.frames.head? = some s) (hi : i.FitsCode s.code.code)
    (hop : i.op.usesName = true) : Safe S (nameAt i) fun _ => True := by
  refine entryAt hs hi (Op.hasArg_of_usesName hop) (by simp [CodeTable.ofOp?, hop]) ?_
  rintro f rfl
  exact ⟨rfl, fun _ _ => trivial⟩

theorem localAt (hs : S.frames.head? = some s) (hi : i.FitsCode s.code.code)
    (hop : i.op.usesLocal = true) : Safe S (localAt i) fun _ => True := by
  refine entryAt hs hi (Op.hasArg_of_usesLocal hop) (Op.table_of_usesLocal hop) ?_
  rintro f rfl
  exact ⟨rfl, fun _ _ => trivial⟩

theorem cellAt (hs : S.frames.head? = some s) (hi : i.FitsCode s.code.code)
    (hop : i.op.usesCell = true) : Safe S (cellAt i) fun _ => True := by
  refine entryAt hs hi (Op.hasArg_of_usesCell hop) (Op.table_of_usesCell hop) ?_
  rintro f rfl
  exact ⟨(S.valid _ (List.mem_of_mem_head? hs)).cells_eq, fun _ _ => trivial⟩

theorem validate_of_mem {cs : List Constant} (h : Constant.validateAll cs = .ok ()) {c : Constant}
    (hc : c ∈ cs) : c.validate = .ok () := by
  induction cs with
  | nil => cases hc
  | cons d cs ih =>
    rw [Constant.validateAll, Except.bind_eq_ok] at h
    obtain ⟨_, hd, h⟩ := h
    rcases List.mem_cons.mp hc with rfl | hc
    · exact hd
    · exact ih h hc

theorem constAt (hs : S.frames.head? = some s) (hi : i.FitsCode s.code.code)
    (hop : i.op.usesConst = true) : Safe S (constAt i) fun _ => True := by
  have harg := Op.hasArg_of_usesConst hop
  have hvalid := (S.valid _ (List.mem_of_mem_head? hs)).code_ok
  refine bind (entryAt (Q := fun c => c.validate = .ok ()) hs hi harg
    (Op.table_of_usesConst hop) ?_) fun c hc => ?_
  · rintro f rfl
    exact ⟨rfl, fun c hc => validate_of_mem (Code.validate_ok hvalid).2 hc⟩
  · refine bind (frame (ne_nil_of_head? hs)) fun _ _ => ?_
    refine bind (argument hi harg) fun _ _ => ?_
    refine bind (constant _ c hc) fun _ _ => ?_
    exact pure trivial

theorem forward (hp : p.Steady) : Safe S (grow p.forward) Path.Steady := by
  refine ofGrowth fun g q g' h => ?_
  obtain ⟨rfl, -⟩ := Graph.forward_ok h
  exact hp

theorem isExpected_checkCompatible {a b : Path} {k : Nat} {e : Failure}
    (h : a.checkCompatible b k = .error e) : e.IsExpected := by
  unfold Path.checkCompatible at h
  split at h
  · cases h
    trivial
  · split at h
    · cases h
      trivial
    · cases h

theorem stop_joinTo {p existing q : Path} {g g' : Graph} (h : p.joinTo existing g = .ok q g') :
    q.stop = none := by
  unfold Path.joinTo at h
  obtain ⟨n, _, -, h⟩ := bind_ok.mp h
  obtain ⟨_, _, -, h⟩ := bind_ok.mp h
  obtain ⟨_, _, -, h⟩ := bind_ok.mp h
  obtain ⟨stack, _, -, h⟩ := bind_ok.mp h
  obtain ⟨rfl, -⟩ := pure_ok.mp h
  rfl

theorem merge (p existing : Path) (k : Nat) :
    Safe S (Analysis.lift (p.merge existing k)) fun q => q.stop = none := by
  unfold Path.merge
  cases hc : existing.checkCompatible p k with
  | error e =>
    refine ofGraph (fun g q g' h => by cases h) fun g e' g' h => ?_
    cases h
    exact isExpected_checkCompatible hc
  | ok u =>
    have hbind (g : Graph) : (MonadExcept.ofExcept (.ok u) >>= fun _ => (p.joinTo existing).run :
        EStateM Failure Graph Path) g = (p.joinTo existing).run g :=
      bind_eq_of_ok (ofExcept_ok.mpr ⟨rfl, rfl⟩)
    refine ofGraph (fun g q g' h => ?_) fun g e g' h => ?_
    · rw [hbind] at h
      exact stop_joinTo (Graph.Growth.run_ok h)
    · rw [hbind] at h
      exact Graph.Growth.run_error h

theorem storeJump (hS : S.frames ≠ []) (k : Nat) (p : Path) :
    Safe S (storeJump k p) fun _ => True := by
  unfold Analysis.storeJump
  refine bind (frame hS) fun f hf => ?_
  dsimp -zeta only
  extract_lets finish
  have hfinish (p : Path) (hp : p.stop = none) : Safe S (finish p) fun _ => True :=
    modifyFrame (fun _ => rfl) fun _ hf => hf.insert hp k
  split
  · split
    · exact bind (ofExcept (fun _ _ => trivial) fun _ => isExpected_checkCompatible) fun _ _ =>
        bind (ofGrowth fun _ _ _ _ => trivial) fun _ _ => forM fun _ _ => paste ..
    · exact pure trivial
  · split
    · exact bind (merge ..) fun p hp => hfinish p hp
    · exact hfinish _ rfl

theorem storeRaised (hS : S.frames ≠ []) (k : Nat) (p : Path) :
    Safe S (storeRaised k p) fun _ => True := by
  unfold Analysis.storeRaised
  refine bind (frame hS) fun f _ => ?_
  have hfinish (p : Path) (hp : p.stop = none) : Safe S (Analysis.modifyFrame fun f =>
      { f with raisedEntries := f.raisedEntries.insert k p }) fun _ => True :=
    modifyFrame (fun _ => rfl) fun _ hf => hf.insertRaised hp k
  split
  · exact pure trivial
  · split
    · exact bind (merge ..) fun p hp => hfinish p hp
    · exact hfinish _ rfl

theorem pushException (hp : p.Steady) : Safe S (pushException p) Path.Steady := by
  unfold Analysis.pushException
  extract_lets finish
  have hfinish (e : Raised) : Safe S (finish e) Path.Steady := by
    refine pure (Path.Steady.pushAll ?_ _)
    exact hp
  split
  · exact hfinish _
  · refine bind (plainObject (needed (by decide))) fun _ _ => ?_
    refine bind (variableWith ..) fun _ _ => ?_
    refine bind (newUnknown _) fun _ _ => ?_
    refine bind (newUnknown _) fun _ _ => ?_
    exact hfinish _

/-- Only a path that continues a loop asks for the target of the instruction. -/
theorem unwind (hS : S.frames ≠ []) (hp : i.Leads p)
    (regions : List Region) : Safe S (unwind i p regions) fun _ => True := by
  have hraised (h : p.stop = some .raised) {q : Path} (hq : q.stop = p.stop) : q.Steady := by
    unfold Path.Steady
    rw [hq, h]
    exact fun h => by cases h
  induction regions with
  | nil => exact pure trivial
  | cons r regions ih =>
    unfold Analysis.unwind
    dsimp only
    split
    · next hstop _ =>
      obtain ⟨k, hk⟩ := Option.isSome_iff_exists.mp (hp hstop)
      rw [hk]
      exact storeJump hS ..
    · exact storeJump hS ..
    · next hstop _ => exact bind (pushException (hraised hstop rfl)) fun _ _ => storeJump hS ..
    · next hstop _ => exact bind (pushException (hraised hstop rfl)) fun _ _ => storeRaised hS ..
    · next hstop _ => exact bind (pushException (hraised hstop rfl)) fun _ _ => storeRaised hS ..
    · exact ih

end Analysis.Agree

end ValueTrace
