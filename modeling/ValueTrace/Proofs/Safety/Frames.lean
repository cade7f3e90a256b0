import ValueTrace.Proofs.Safety.Paths

/-! Frames do nothing unexpected if the instructions that fit their code do not. -/

namespace ValueTrace

theorem Path.Steady.of_running {p : Path} (h : p.stop = none) : p.Steady := by
  unfold Steady
  rw [h]
  exact fun h => by cases h

theorem Failure.IsExpected.atOp {e : Failure} (op : Op) (h : e.IsExpected) :
    (e.atOp op).IsExpected := by
  unfold Failure.atOp
  split
  · trivial
  · cases h
  · exact h

/-- Two ways to run instructions agree on those that fit some code. -/
def Analysis.Stepper.Agree (S : Setting) (c : Code) (step step' : Stepper) : Prop :=
  ∀ (i : Instruction) (p : Path), i.FitsCode c → p.Steady →
    Analysis.Agree S (step i p) (step' i p) i.Leads

namespace Analysis.Agree

variable {S : Setting} {s : Shape} {step step' : Stepper} {i : Instruction} {p : Path} {b : Block}

theorem runInstruction (hstep : Stepper.Agree S s.code.code step step')
    (hi : i.FitsCode s.code.code) (hp : p.Steady) :
    Agree S (runInstruction step i p) (runInstruction step' i p) i.Leads := by
  refine bind (modify fun m hm => hm.of_eq rfl rfl rfl rfl rfl) fun _ _ => ?_
  refine bind (modifyFrame (fun _ => rfl) fun _ hf => ⟨hf.entry, hf.raised⟩) fun _ _ => ?_
  refine bind (mapFailure (hstep i p hi hp) rfl fun _ => .atOp _) fun q hq => ?_
  refine pure ?_
  split
  · exact fun h => by cases h
  · exact hq

theorem runInstructions (hstep : Stepper.Agree S s.code.code step step') {is : List Instruction}
    (his : ∀ i ∈ is, i.FitsCode s.code.code) {last : Instruction} (hlast : last.Leads p) :
    Agree S (runInstructions step last p is) (runInstructions step' last p is)
      fun r => r.1.Leads r.2 := by
  induction is generalizing last p with
  | nil => exact pure hlast
  | cons i is ih =>
    unfold Analysis.runInstructions
    split
    · exact pure hlast
    · next hstop =>
      have hp : p.Steady := .of_running (by simpa using hstop)
      exact bind (runInstruction hstep (his i List.mem_cons_self) hp) fun q hq =>
        ih (fun j hj => his j (List.mem_cons_of_mem _ hj)) hq

theorem runBlock (hS : S.frames ≠ []) (hstep : Stepper.Agree S s.code.code step step')
    (hb : ∀ i ∈ b.ops, i.FitsCode s.code.code) (hp : p.stop = none) :
    Agree S (runBlock step b p) (runBlock step' b p) fun _ => True := by
  unfold Analysis.runBlock
  cases hops : b.ops with
  | nil => exact pure trivial
  | cons i is =>
    rw [hops] at hb
    refine bind (runInstruction hstep (hb i List.mem_cons_self) (.of_running hp)) fun q hq =>
      bind (runInstructions hstep (fun j hj => hb j (List.mem_cons_of_mem _ hj)) hq) fun r hr => ?_
    obtain ⟨last, r⟩ := r
    dsimp only
    split
    · exact pure trivial
    · exact pure trivial
    · exact pure trivial
    · exact bind (unwind hS hr _) fun _ _ => pure trivial
    · split
      · exact bind (storeJump hS ..) fun _ _ => pure trivial
      · exact pure trivial

theorem runEntries (hs : S.frames.head? = some s)
    (hstep : Stepper.Agree S s.code.code step step')
    (hb : ∀ i ∈ b.ops, i.FitsCode s.code.code) :
    Agree S (runEntries step b) (runEntries step' b) fun _ => True := by
  have hS := ne_nil_of_head? hs
  unfold Analysis.runEntries
  split
  · next start _ =>
    refine bind (frame hS) fun f hf => ?_
    extract_lets paths
    split
    · exact pure trivial
    · refine bind (modifyFrame (fun _ => rfl) fun _ hf => ⟨hf.entry, hf.raised⟩) fun _ _ =>
        bind (mapM fun p hp => runBlock hS hstep hb ?_) fun _ _ => pure trivial
      rcases List.mem_append.mp hp with hp | hp
      · exact hf.2.entry (Option.mem_toList.mp hp)
      · exact hf.2.raised (Option.mem_toList.mp hp)
  · exact pure trivial

/-- The frame begins with valid code, and no path waits in it. -/
theorem runFrame {f : Frame} (hs : f.shape.Valid) (hf : f.Waits)
    (hstep : Stepper.Agree (S.push f.shape hs) f.code.code step step') (n : NodeId) :
    Agree S (runFrame step f n) (runFrame step' f n) fun _ => True := by
  have hself := (Code.validate_ok hs.code_ok).1
  unfold Analysis.runFrame
  obtain ⟨first, hfirst⟩ := Option.isSome_iff_exists.mp (Code.firstOp?_isSome hself)
  change f.code.code.firstOp? = some first at hfirst
  dsimp only
  rw [hfirst]
  have hblocks : Agree (S.push f.shape hs) (f.code.code.blocks.mapM (Analysis.runEntries step))
      (f.code.code.blocks.mapM (Analysis.runEntries step')) _ :=
    mapM fun b hb => runEntries (s := f.shape) rfl hstep fun i hi =>
      Code.fitsCode hself (List.mem_flatMap.mpr ⟨b, hb, hi⟩)
  refine bind (withFrame hs rfl (hf.insert rfl _) (bind hblocks fun _ _ =>
    pure (Q := fun _ => True) trivial)) fun returns _ => ?_
  split
  · exact pure trivial
  · next h => exact bind (joinNodes (by simpa using h)) fun _ _ => pure trivial

end Analysis.Agree

end ValueTrace
