import ValueTrace.Proofs.Flow.Calls
import ValueTrace.Proofs.Machine.Operands

/-!
# Where an instruction leads

What waits in a frame are paths, each at the first instruction of a block. An instruction leads
paths to its target only, in the regions that its own path is in. Apart from that it leaves all
frames as they are, if what it calls does.
-/

namespace ValueTrace

def Frame.WaitsAt (f : Frame) (k : Nat) (p : Path) : Prop :=
  f.entries[k]? = some p ∨ f.raisedEntries[k]? = some p

/-- The frame has changed, but what waits in it has waited before or has been led to where it may be
led. -/
def Frame.Leads (D : Nat → Path → Prop) (f g : Frame) : Prop :=
  ∀ k p, g.WaitsAt k p → f.WaitsAt k p ∨ D k p

/-- The innermost frame has led paths on, and the others are as they were. -/
inductive LeadsInnermost (D : Nat → Path → Prop) : List Frame → List Frame → Prop where
  | nil : LeadsInnermost D [] []
  | cons {f g : Frame} (h : f.Leads D g) (fs : List Frame) : LeadsInnermost D (f :: fs) (g :: fs)

variable {D D' : Nat → Path → Prop} {f g h : Frame} {p q : Path} {i : Instruction} {k : Nat}

namespace Frame

theorem WaitsAt.insert {k' : Nat}
    (h : Frame.WaitsAt { f with entries := f.entries.insert k p } k' q) :
    f.WaitsAt k' q ∨ k' = k ∧ q = p := by
  unfold WaitsAt at h
  dsimp only at h
  rw [Std.TreeMap.getElem?_insert] at h
  split at h
  · next hk =>
    rcases h with h | h
    · cases h
      exact .inr ⟨(Std.compare_eq_iff_eq.mp hk).symm, rfl⟩
    · exact .inl (.inr h)
  · exact .inl h

theorem WaitsAt.insertRaised {k' : Nat}
    (h : Frame.WaitsAt { f with raisedEntries := f.raisedEntries.insert k p } k' q) :
    f.WaitsAt k' q ∨ k' = k ∧ q = p := by
  unfold WaitsAt at h
  dsimp only at h
  rw [Std.TreeMap.getElem?_insert] at h
  split at h
  · next hk =>
    rcases h with h | h
    · exact .inl (.inl h)
    · cases h
      exact .inr ⟨(Std.compare_eq_iff_eq.mp hk).symm, rfl⟩
  · exact .inl h

namespace Leads

theorem of_same (hentries : g.entries = f.entries) (hraised : g.raisedEntries = f.raisedEntries) :
    f.Leads D g := by
  intro k p hp
  unfold WaitsAt at hp ⊢
  rw [hentries, hraised] at hp
  exact .inl hp

theorem refl (f : Frame) : f.Leads D f := of_same rfl rfl

theorem trans (hfg : f.Leads D g) (hgh : g.Leads D h) : f.Leads D h := by
  intro k p hp
  rcases hgh k p hp with hp | hp
  · exact hfg k p hp
  · exact .inr hp

theorem weaken (h : f.Leads D g) (hD : ∀ k p, D k p → D' k p) : f.Leads D' g :=
  fun k p hp => (h k p hp).imp_right (hD k p)

end Leads

end Frame

namespace LeadsInnermost

variable {fs fs' fs'' : List Frame}

theorem refl (fs : List Frame) : LeadsInnermost D fs fs := by
  cases fs with
  | nil => exact .nil
  | cons f fs => exact .cons (.refl f) fs

theorem trans (h : LeadsInnermost D fs fs') (h' : LeadsInnermost D fs' fs'') :
    LeadsInnermost D fs fs'' := by
  cases h with
  | nil => exact h'
  | cons hf fs =>
    cases h' with
    | cons hg => exact .cons (hf.trans hg) fs

theorem tail_eq (h : LeadsInnermost D fs fs') : fs'.tail = fs.tail := by
  cases h <;> rfl

theorem weaken (h : LeadsInnermost D fs fs') (hD : ∀ k p, D k p → D' k p) :
    LeadsInnermost D' fs fs' := by
  cases h with
  | nil => exact .nil
  | cons hf fs => exact .cons (hf.weaken hD) fs

end LeadsInnermost

namespace Analysis

variable {α β : Type} {x : Analysis α} {f : α → Analysis β} {P : α → Prop} {m m' : Machine}

/-- Whether it succeeds or not, the step leads paths of the innermost frame to nowhere else, and it
leaves the options as they were. -/
structure Leads (D : Nat → Path → Prop) (x : Analysis α) : Prop where
  leads : ∀ m, match x m with
    | .ok _ m' | .error _ m' => LeadsInnermost D m.frames m'.frames ∧ m'.options = m.options

namespace Leads

theorem of_ok (h : Leads D x) {a : α} (hx : x m = .ok a m') :
    LeadsInnermost D m.frames m'.frames := by
  have hm := h.leads m
  rw [hx] at hm
  exact hm.1

theorem of_keeps (h : KeepsFrames x) : Leads D x := by
  refine ⟨fun m => ?_⟩
  have hm := h.eq m
  have hsame {m' : Machine} (heq : m'.standing = m.standing) :
      LeadsInnermost D m.frames m'.frames ∧ m'.options = m.options := by
    obtain ⟨hframes, hoptions⟩ : m'.frames = m.frames ∧ m'.options = m.options :=
      Prod.ext_iff.mp heq
    exact ⟨hframes ▸ .refl _, hoptions⟩
  cases hx : x m with
  | ok a m' =>
    rw [hx] at hm
    exact hsame hm
  | error e m' =>
    rw [hx] at hm
    exact hsame hm

theorem weaken (h : Leads D x) (hD : ∀ k p, D k p → D' k p) : Leads D' x := by
  refine ⟨fun m => ?_⟩
  have hm := h.leads m
  cases hx : x m with
  | ok a m' =>
    rw [hx] at hm
    exact hm.imp_left (·.weaken hD)
  | error e m' =>
    rw [hx] at hm
    exact hm.imp_left (·.weaken hD)

/-- What comes next may rely on what has been computed. -/
theorem bind_of (hx : Leads D x) (hP : ∀ {m}, Yields m x P) (hf : ∀ a, P a → Leads D (f a)) :
    Leads D (x >>= f) := by
  refine ⟨fun m => ?_⟩
  have hm := hx.leads m
  change match EStateM.bind x f m with
    | .ok _ m' | .error _ m' => LeadsInnermost D m.frames m'.frames ∧ m'.options = m.options
  unfold EStateM.bind
  cases h : x m with
  | error e m₁ =>
    rw [h] at hm
    exact hm
  | ok a m₁ =>
    rw [h] at hm
    have ha := (hf a (hP a m₁ h)).leads m₁
    dsimp only
    cases hb : f a m₁ with
    | ok b m₂ =>
      rw [hb] at ha
      exact ⟨hm.1.trans ha.1, ha.2.trans hm.2⟩
    | error e m₂ =>
      rw [hb] at ha
      exact ⟨hm.1.trans ha.1, ha.2.trans hm.2⟩

theorem bind (hx : Leads D x) (hf : ∀ a, Leads D (f a)) : Leads D (x >>= f) :=
  bind_of hx (.any x) fun a _ => hf a

/-- What leaves the frames as they are, before and after. -/
theorem after (hx : KeepsFrames x) (hf : ∀ a, Leads D (f a)) : Leads D (x >>= f) :=
  bind (of_keeps hx) hf

theorem after_of (hx : KeepsFrames x) (hP : ∀ {m}, Yields m x P) (hf : ∀ a, P a → Leads D (f a)) :
    Leads D (x >>= f) := bind_of (of_keeps hx) hP hf

theorem before (hx : Leads D x) (hf : ∀ a, KeepsFrames (f a)) : Leads D (x >>= f) :=
  bind hx fun a => of_keeps (hf a)

theorem modifyFrame {h : Frame → Frame} (hh : ∀ f : Frame, f.Leads D (h f)) :
    Leads D (modifyFrame h) := by
  refine ⟨fun m => ?_⟩
  change LeadsInnermost D m.frames (m.frames.modifyHead h) ∧ m.options = m.options
  refine ⟨?_, rfl⟩
  cases m.frames with
  | nil => exact .nil
  | cons f fs => exact .cons (hh f) fs

end Leads

def To (k : Nat) (rs : List Region) (k' : Nat) (p : Path) : Prop :=
  k' = k ∧ p.regions = rs ∧ p.stop = none

theorem merge_regions {existing : Path} :
    Yields m (lift (p.merge existing k)) fun q => q.regions = p.regions ∧ q.stop = none := by
  intro q m' h
  obtain ⟨g, h, -⟩ := lift_ok.mp h
  obtain ⟨_, g₁, hc, h⟩ := bind_ok.mp h
  obtain ⟨hc, rfl⟩ := ofExcept_ok.mp hc
  have hsame : existing.regions = p.regions := by
    unfold Path.checkCompatible at hc
    split at hc
    · cases hc
    · split at hc
      · cases hc
      · next hne => exact not_not.mp hne
  have hjoin : p.joinTo existing m.graph = .ok q g := by
    unfold Graph.Growth.run at h
    split at h
    · next hjoin =>
      cases h
      exact hjoin
    · cases h
  unfold Path.joinTo at hjoin
  obtain ⟨n, _, -, hjoin⟩ := bind_ok.mp hjoin
  obtain ⟨_, _, -, hjoin⟩ := bind_ok.mp hjoin
  obtain ⟨_, _, -, hjoin⟩ := bind_ok.mp hjoin
  obtain ⟨stack, _, -, hjoin⟩ := bind_ok.mp hjoin
  obtain ⟨rfl, -⟩ := pure_ok.mp hjoin
  exact ⟨hsame, rfl⟩

theorem pushException_regions : Yields m (pushException p) fun q => q.regions = p.regions := by
  unfold pushException
  extract_lets finish
  have hfinish (e : Raised) {m : Machine} :
      Yields m (finish e) fun q => q.regions = p.regions := .pure rfl
  split
  · exact .skip hfinish
  · exact .skip fun _ => .skip fun _ => .skip fun _ => .skip fun _ => .skip hfinish

namespace Leads

theorem storeJump (k : Nat) (p : Path) : Leads (To k p.regions) (storeJump k p) := by
  unfold Analysis.storeJump
  refine after .frame fun f => ?_
  dsimp -zeta only
  extract_lets finish
  have hfinish (q : Path) (hq : q.regions = p.regions ∧ q.stop = none) :
      Leads (To k p.regions) (finish q) :=
    modifyFrame fun f k' r hr => hr.insert.imp_right fun ⟨hk, hr⟩ => ⟨hk, hr ▸ hq⟩
  split
  · split
    · exact of_keeps (.bind (.liftM _) fun _ => .bind (.grow _) fun _ => .forM fun _ _ => .paste ..)
    · exact of_keeps (.pure _)
  · split
    · exact after_of (.lift _) merge_regions hfinish
    · exact after_of (P := fun q => q.regions = p.regions ∧ q.stop = none) (.pure _)
        (.pure ⟨rfl, rfl⟩) hfinish

theorem storeRaised (k : Nat) (p : Path) : Leads (To k p.regions) (storeRaised k p) := by
  unfold Analysis.storeRaised
  refine after .frame fun f => ?_
  extract_lets finish
  have hfinish (q : Path) (hq : q.regions = p.regions ∧ q.stop = none) :
      Leads (To k p.regions) (finish q) :=
    modifyFrame fun f k' r hr => hr.insertRaised.imp_right fun ⟨hk, hr⟩ => ⟨hk, hr ▸ hq⟩
  split
  · exact of_keeps (.pure _)
  · split
    · exact after_of (.lift _) merge_regions hfinish
    · exact after_of (P := fun q => q.regions = p.regions ∧ q.stop = none) (.pure _)
        (.pure ⟨rfl, rfl⟩) hfinish

/-- An exception, or a jump out of a loop, leads to the handler of a region that the path is in, or
to the target of the instruction if the loop is continued. -/
theorem unwind (i : Instruction) (p : Path) (l : List Region) :
    Leads (fun k q => (∀ r ∈ q.regions, r ∈ l) ∧ q.stop = none ∧
      (p.stop = some .continued ∧ i.target = some k ∨ ∃ r ∈ l, r.handler = k)) (unwind i p l) := by
  induction l with
  | nil => exact of_keeps (.pure _)
  | cons r l ih =>
    have hhandler {x : Analysis Unit} (h : Leads (To r.handler l) x) :
        Leads (fun k q => (∀ s ∈ q.regions, s ∈ r :: l) ∧ q.stop = none ∧
          (p.stop = some .continued ∧ i.target = some k ∨ ∃ s ∈ r :: l, s.handler = k)) x := by
      refine h.weaken ?_
      rintro k q ⟨rfl, rfl, hq⟩
      exact ⟨fun s hs => List.mem_cons_of_mem _ hs, hq, .inr ⟨r, List.mem_cons_self, rfl⟩⟩
    have hraised {store : Nat → Path → Analysis Unit}
        (hstore : ∀ q : Path, Leads (To r.handler q.regions) (store r.handler q)) (q : Path)
        (hq : q.regions = l) :
        Leads (To r.handler l) (Analysis.pushException q >>= fun q => store r.handler q) :=
      after_of (.pushException q) pushException_regions fun q' hq' => hq ▸ hq' ▸ hstore q'
    unfold Analysis.unwind
    dsimp only
    split
    · next hstop _ =>
      cases ht : i.target with
      | none => exact of_keeps (.throw _)
      | some k =>
        refine (storeJump k _).weaken ?_
        rintro k q ⟨rfl, hregions, hq⟩
        rw [hregions]
        exact ⟨fun s hs => hs, hq, .inl ⟨hstop, rfl⟩⟩
    · exact hhandler (storeJump r.handler (Path.truncate { p with regions := l } r.level))
    · exact hhandler (hraised (storeJump r.handler) _ rfl)
    · exact hhandler (hraised (storeRaised r.handler) _ rfl)
    · exact hhandler (hraised (storeRaised r.handler) _ rfl)
    · refine ih.weaken fun k q hk => ⟨fun s hs => List.mem_cons_of_mem _ (hk.1 s hs), hk.2.1, ?_⟩
      exact hk.2.2.imp_right fun ⟨s, hs, h⟩ => ⟨s, List.mem_cons_of_mem _ hs, h⟩

end Leads

end Analysis

def Instruction.LeadsTo (i : Instruction) (rs : List Region) (k : Nat) (p : Path) : Prop :=
  i.op.hasTarget = true ∧ i.target = some k ∧ p.regions = rs ∧ p.stop = none

namespace Analysis.Leads

variable {α : Type} {call : Caller} {dest : Nat} {m : Machine}

/-- Only an operation that refers to another instruction leads anywhere. -/
theorem toTarget {x : Nat → Analysis α} (hop : i.op.hasTarget = true)
    (hx : ∀ dest, Leads (To dest p.regions) (x dest)) :
    Leads (i.LeadsTo p.regions) (Analysis.target i >>= x) := by
  have hdest {m : Machine} : Yields m (Analysis.target i) fun dest => i.target = some dest := by
    intro dest m' h
    unfold Analysis.target at h
    cases ht : i.target with
    | none =>
      rw [ht] at h
      exact (throw_ok.mp h).elim
    | some k =>
      rw [ht] at h
      exact congrArg some (pure_ok.mp h).1
  refine after_of (.target i) hdest fun dest ht => (hx dest).weaken ?_
  rintro k q ⟨rfl, hq⟩
  exact ⟨hop, ht, hq⟩

/-- The path that is led on may have taken steps before, in the same regions. -/
theorem storeJump_of (h : q.regions = p.regions) :
    Leads (To k p.regions) (Analysis.storeJump k q) :=
  h ▸ storeJump k q

theorem forward_regions : Yields m (grow q.forward) fun r => r.regions = q.regions :=
  (Yields.forward (.refl q)).weaken fun _ h => h.regions

theorem discard_regions : Yields m (liftM q.discard) fun r => r.regions = q.regions :=
  (Yields.discard (.refl q)).weaken fun _ h => h.regions

theorem jump (hop : i.op.hasTarget = true) (p : Path) :
    Leads (i.LeadsTo p.regions) (jump i p) :=
  toTarget hop fun _ => after_of (.grow _) forward_regions fun _ hq =>
    before (storeJump_of hq) fun _ => .pure _

theorem jumpIf (hop : i.op.hasTarget = true) (sense : Bool) (tested : Tested) (p : Path) :
    Leads (i.LeadsTo p.regions) (jumpIf i sense tested p) := by
  unfold Analysis.jumpIf
  refine toTarget hop fun dest => after (.liftM _) fun v => after .get fun m =>
    after (.onGraph _) fun sides => ?_
  obtain ⟨yes, no⟩ := sides
  dsimp -zeta only
  generalize (if sense then (yes, no) else (no, yes)) = sides
  obtain ⟨taken, other⟩ := sides
  dsimp -zeta only
  extract_lets carryOn fallThrough branch
  have hcarryOn (q : Path) : KeepsFrames (carryOn q) := by
    dsimp only [carryOn]
    split
    · exact .pure _
    · exact .grow _
  have hfallThrough (u : Unit) : KeepsFrames (fallThrough u) := by
    dsimp only [fallThrough]
    split
    · exact .bind (.pure _) hcarryOn
    · exact .bind (.liftM _) hcarryOn
  have hbranch (q : Path) (hq : q.regions = p.regions) :
      Leads (To dest p.regions) (branch q) := by
    have hrestrict : (q.restrict taken).regions = p.regions := by cases taken <;> exact hq
    exact after_of (.grow _) forward_regions fun r hr =>
      before (storeJump_of (hr.trans hrestrict)) hfallThrough
  split
  · split
    · exact after_of (.liftM _) discard_regions hbranch
    · exact after_of (P := fun q => q.regions = p.regions) (.pure p) (.pure rfl) hbranch
  · exact of_keeps (hfallThrough ())

theorem nextItem (hcall : call.KeepsFrames) (hop : i.op.hasTarget = true) (p : Path) :
    Leads (i.LeadsTo p.regions) (nextItem call i p) :=
  toTarget hop fun _ => after_of (.liftM _) discard_regions fun _ hq =>
    before (storeJump_of hq) fun _ => .bind .get fun _ => .bind (.liftM _) fun _ =>
      .bind (.callMethod hcall ..) fun _ => .pure _

theorem setupHandled (hop : i.op.hasTarget = true) (p : Path) :
    Leads (i.LeadsTo p.regions) (setupHandled i p) :=
  toTarget hop fun _ => after_of (.pushException p) pushException_regions fun _ hq =>
    before (storeJump_of hq) fun _ => .pure _

theorem setupCleanup (hop : i.op.hasTarget = true) (p : Path) :
    Leads (i.LeadsTo p.regions) (setupCleanup i p) :=
  toTarget hop fun _ => after (.newNone _) fun _ => before (storeJump_of rfl) fun _ => .pure _

theorem setupContext (hcall : call.KeepsFrames) (hop : i.op.hasTarget = true) (p : Path) :
    Leads (i.LeadsTo p.regions) (setupContext call i p) :=
  toTarget hop fun _ => after_of (.liftM _) (.pop (.refl p)) fun _ hq =>
    after (.loadAttribute ..) fun _ => after (.newNone _) fun _ =>
      before (storeJump_of hq.regions) fun _ => .bind .get fun _ =>
        .bind (.callMethod hcall ..) fun _ => .pure _

theorem storeLocals (p : Path) : Leads D (storeLocals p) :=
  after (.liftM _) fun _ => after (.objectMembers ..) fun _ => after (.onStore _) fun _ =>
    after (.setStore _) fun _ => before (modifyFrame fun _ => .of_same rfl rfl) fun _ => .pure _

/-- An instruction leads paths to its target only. -/
theorem step (hcall : call.KeepsFrames) (i : Instruction) (p : Path) :
    Leads (i.LeadsTo p.regions) (step call i p) := by
  obtain ⟨k, op, arg, line, t⟩ := i
  unfold Analysis.step
  cases op with
  -- operands
  | nop | popExcept | printNewline => exact of_keeps (.pure _)
  | popTop | dupTopTwo | rotTwo | rotThree | rotFour | printExpr | printItem | printNewlineTo
  | printItemTo | execStmt => exact of_keeps (.liftM _)
  | dupTop => exact of_keeps (.bind (.liftM _) fun _ => .pure _)
  | dupTopx => exact of_keeps (.bind (.argument _) fun _ => .liftM _)
  | loadConst => exact of_keeps (.bind (.constAt _) fun _ => .pure _)
  -- names
  | loadName | loadGlobal => exact of_keeps (.bind (.nameAt _) fun _ => .loadName ..)
  | loadFast => exact of_keeps (.bind (.localAt _) fun _ => .loadName ..)
  | storeName | storeGlobal =>
    exact of_keeps (.bind (.nameAt _) fun _ => .bind .frame fun _ => .storeName ..)
  | storeFast => exact of_keeps (.bind (.localAt _) fun _ => .bind .frame fun _ => .storeName ..)
  | deleteName | deleteGlobal => exact of_keeps (.bind (.nameAt _) fun _ => .pure _)
  | deleteFast => exact of_keeps (.bind (.localAt _) fun _ => .pure _)
  | loadClosure => exact of_keeps (.bind (.cellAt _) fun _ => .pure _)
  | loadDeref => exact of_keeps (.bind (.cellAt _) fun _ => .loadCell ..)
  | storeDeref => exact of_keeps (.bind (.cellAt _) fun _ => .storeCell ..)
  | loadLocals => exact of_keeps (.loadLocals p)
  | storeLocals => exact storeLocals p
  -- operators
  | unaryNot => exact of_keeps (.unaryNot p)
  | unaryNegative | unaryPositive | unaryInvert => exact of_keeps (.unaryOperator hcall _ p)
  | unaryConvert => exact of_keeps (.unaryConvert p)
  | compareOp => exact of_keeps (.bind (.argument _) fun _ => .compareOperands hcall _ p)
  | binarySubscr => exact of_keeps (.subscript hcall p)
  | binaryPower | binaryMultiply | binaryDivide | binaryModulo | binaryAdd | binarySubtract
  | binaryFloorDivide | binaryTrueDivide | binaryLshift | binaryRshift
  | binaryAnd | binaryXor | binaryOr
  | inplaceFloorDivide | inplaceTrueDivide | inplaceAdd | inplaceSubtract | inplaceMultiply
  | inplaceDivide | inplaceModulo | inplacePower | inplaceLshift | inplaceRshift | inplaceAnd
  | inplaceXor | inplaceOr => exact of_keeps (.runOperator hcall _ p)
  -- attributes
  | loadAttr =>
    exact of_keeps (.bind (.nameAt _) fun _ => .bind (.liftM _) fun _ =>
      .bind (.loadAttribute ..) fun _ => .pure _)
  | storeAttr =>
    exact of_keeps (.bind (.nameAt _) fun _ => .bind (.liftM _) fun _ =>
      .bind (.storeAttribute ..) fun _ => .grow _)
  | deleteAttr => exact of_keeps (.bind (.nameAt _) fun _ => .liftM _)
  -- containers
  | buildTuple => exact of_keeps (.bind (.argument _) fun _ => .buildTuple ..)
  | buildList | buildSet => exact of_keeps (.bind (.argument _) fun _ => .buildContainer ..)
  | buildMap => exact of_keeps (.buildMap p)
  | buildSlice => exact of_keeps (.bind (.argument _) fun _ => .buildSlice ..)
  | storeMap => exact of_keeps (.addEntry hcall (.pure 1) p)
  | mapAdd => exact of_keeps (.addEntry hcall (.argument _) p)
  | listAppend | setAdd => exact of_keeps (.addItem hcall _ (.argument _) p)
  | storeSubscr => exact of_keeps (.storeSubscript hcall p)
  | deleteSubscr => exact of_keeps (.deleteSubscript hcall p)
  | unpackSequence => exact of_keeps (.bind (.argument _) fun _ => .unpack ..)
  | slice0 | slice1 | slice2 | slice3 => exact of_keeps (.loadSlice hcall _ p)
  | storeSlice0 | storeSlice1 | storeSlice2 | storeSlice3 =>
    exact of_keeps (.storeSlice hcall _ p)
  | deleteSlice0 | deleteSlice1 | deleteSlice2 | deleteSlice3 =>
    exact of_keeps (.deleteSlice hcall _ p)
  -- branches and loops
  | jumpForward | jumpAbsolute => exact jump rfl p
  | jumpIfTrue | jumpIfFalse | popJumpIfTrue | popJumpIfFalse | jumpIfTrueOrPop
  | jumpIfFalseOrPop => exact jumpIf rfl _ _ p
  | getIter => exact of_keeps (.getIterator hcall p)
  | forIter => exact nextItem hcall rfl p
  -- regions, exceptions and returns
  | setupLoop => exact of_keeps (.bind (.target _) fun _ => .pure _)
  | setupExcept => exact setupHandled rfl p
  | setupFinally => exact setupCleanup rfl p
  | setupWith => exact setupContext hcall rfl p
  | popBlock => exact of_keeps (.bind (.liftM _) fun _ => .pure _)
  | breakLoop | continueLoop => exact of_keeps (.pure _)
  | withCleanup => exact of_keeps (.leaveContext hcall p)
  | endFinally => exact of_keeps (.endCleanup p)
  | raiseVarargs => exact of_keeps (.bind (.argument _) fun _ => .raise ..)
  | returnValue => exact of_keeps (.returnValue p)
  | yieldValue => exact of_keeps (.yieldValue p)
  -- calls, functions and classes
  | callFunction | callFunctionVar | callFunctionKw | callFunctionVarKw =>
    exact of_keeps (.callWith hcall ..)
  | makeFunction | makeClosure => exact of_keeps (.makeFunction ..)
  | buildClass => exact of_keeps (.buildClassFromParts p)
  | loadBuildClass => exact of_keeps (.bind (.specialForm _) fun _ => .pure _)
  -- imports
  | importName => exact of_keeps (.bind (.nameAt _) fun _ => .importName ..)
  | importFrom => exact of_keeps (.bind (.nameAt _) fun _ => .importFrom ..)
  | importStar => exact of_keeps (.importStar p)

end Analysis.Leads

end ValueTrace
