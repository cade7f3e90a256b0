import ValueTrace.Proofs.Paths.Joins
import ValueTrace.Proofs.Paths.Siblings
import ValueTrace.Proofs.Machine.Operands
import ValueTrace.Proofs.Regions.Unwinding

/-!
# Going on with a loop

A path in a loop may have entered regions since the head of the loop. To go on with the loop leaves
these regions, but all operands stay: the way out of each context is still on the stack when the
path comes back to the head, where the paths have to have as many operands as the first one.
-/

namespace ValueTrace

variable {call : Caller} {stored p q : Path} {n head : Nat} {i : Instruction} {m m' : Machine}

/-- A path in a loop, since the path with which its head begins. Between the regions that it enters
it gives back all operands and leaves all regions. What the way into a context gives is taken off
the stack, and the way out stays there. The number counts the contexts. -/
inductive Path.Inside (call : Caller) (stored : Path) : Nat → Path → Prop where
  | head : Inside call stored 0 stored
  | balanced {n : Nat} {p q : Path} (inside : Inside call stored n p) (stack : q.stack = p.stack)
      (regions : q.regions = p.regions) : Inside call stored n q
  | guarded {n : Nat} {p q : Path} {i : Instruction} {m m' : Machine}
      (inside : Inside call stored n p) (enters : i.op = .setupExcept ∨ i.op = .setupFinally)
      (run : Analysis.step call i p m = .ok q m') (goesOn : q.stop = none) : Inside call stored n q
  | context {n : Nat} {p q : Path} {i : Instruction} {m m' : Machine} {context entered : VarId}
      {stack : List VarId} (inside : Inside call stored n p) (enters : i.op = .setupWith)
      (run : Analysis.step call i (p.push context) m = .ok q m') (goesOn : q.stop = none)
      (taken : q.stack = entered :: stack) : Inside call stored (n + 1) { q with stack }

/-- The path is in some regions more than another one, none of them a loop, and has so many operands
more. -/
structure Path.Above (stored : Path) (n : Nat) (p : Path) : Prop where
  stack : ∃ outs, outs.length = n ∧ p.stack = outs ++ stored.stack
  regions : ∃ inner, (∀ r ∈ inner, r.kind ≠ .loop) ∧ p.regions = inner ++ stored.regions

namespace Path.Above

theorem refl (stored : Path) : stored.Above 0 stored :=
  ⟨⟨[], rfl, rfl⟩, [], List.forall_mem_nil _, rfl⟩

theorem enter {kinds : List RegionKind} {height : Nat} {outs : List VarId}
    (h : stored.Above n p) (hkinds : .loop ∉ kinds)
    (henters : i.Enters kinds height p.regions q.regions) (hstack : q.stack = outs ++ p.stack) :
    stored.Above (outs.length + n) q := by
  obtain ⟨⟨inside, hlength, hp⟩, inner, hinner, hregions⟩ := h
  obtain ⟨kind, hkind, handler, -, hq⟩ := henters
  refine ⟨⟨outs ++ inside, by simp [hlength], by simp [hstack, hp]⟩,
    ⟨kind, handler, height⟩ :: inner, List.forall_mem_cons.mpr ⟨?_, hinner⟩, by simp [hq, hregions]⟩
  rintro rfl
  exact hkinds hkind

end Path.Above

open Analysis

theorem Path.Replaces.stack_eq (h : p.Replaces 0 0 q) : q.stack = p.stack := by
  obtain ⟨-, vs, hvs, hstack⟩ := h
  obtain rfl := List.eq_nil_of_length_eq_zero hvs
  exact hstack

theorem Instruction.Enters.mono {kinds kinds' : List RegionKind} {height : Nat}
    {before after : List Region} (h : i.Enters kinds height before after) (hsub : kinds ⊆ kinds') :
    i.Enters kinds' height before after := by
  obtain ⟨kind, hkind, hafter⟩ := h
  exact ⟨kind, hsub hkind, hafter⟩

theorem step_guarded (hop : i.op = .setupExcept ∨ i.op = .setupFinally)
    (h : step call i p m = .ok q m') (hq : q.stop = none) :
    q.stack = p.stack ∧ i.Enters [.handled, .cleanup] p.stack.length p.regions q.regions := by
  obtain ⟨hreplaces, hregions, -⟩ := step_replaces h hq
  unfold Instruction.Reshapes at hregions
  rcases hop with hop | hop
  · rw [hop] at hreplaces hregions
    exact ⟨hreplaces.stack_eq, hregions.mono (by simp)⟩
  · rw [hop] at hreplaces hregions
    exact ⟨hreplaces.stack_eq, hregions.mono (by simp)⟩

theorem step_context {context entered : VarId} {stack : List VarId} (hop : i.op = .setupWith)
    (h : step call i (p.push context) m = .ok q m') (hq : q.stop = none)
    (htaken : q.stack = entered :: stack) :
    (∃ out, stack = [out] ++ p.stack) ∧
      i.Enters [.cleanup, .context] (p.stack.length + 1) p.regions q.regions := by
  obtain ⟨hreplaces, hregions, -⟩ := step_replaces h hq
  unfold Instruction.Reshapes at hregions
  rw [hop] at hreplaces hregions
  obtain ⟨-, vs, hvs, hstack⟩ := hreplaces
  obtain ⟨entered', out, rfl⟩ := List.length_eq_two.mp hvs
  rw [htaken] at hstack
  exact ⟨⟨out, (List.cons.inj hstack).2⟩, hregions⟩

/-- What a path has entered since the head of the loop is above what was there. -/
theorem Path.Inside.above (h : Path.Inside call stored n p) : stored.Above n p := by
  induction h with
  | head => exact .refl stored
  | balanced _ stack regions ih => exact ⟨stack ▸ ih.stack, regions ▸ ih.regions⟩
  | guarded _ enters run goesOn ih =>
    obtain ⟨hstack, henters⟩ := step_guarded enters run goesOn
    simpa using ih.enter (by decide) henters (show _ = [] ++ _ from hstack)
  | @context n _ q _ _ _ _ _ stack _ enters run goesOn taken ih =>
    obtain ⟨⟨out, hstack⟩, henters⟩ := step_context enters run goesOn taken
    rw [Nat.add_comm]
    exact ih.enter (q := { q with stack }) (by decide) henters hstack

/-- The loop takes over a path that goes on with it. -/
theorem Path.Above.takenOver {r : Region} {below : List Region} (h : stored.Above n p)
    (hloop : stored.regions = r :: below) (hr : r.kind = .loop) :
    TakenOver .continued p.regions r below := by
  obtain ⟨-, inner, hinner, hregions⟩ := h
  rw [hregions, hloop]
  clear hregions
  induction inner with
  | nil => exact .here hr
  | cons q inner ih =>
    obtain ⟨hq, hinner⟩ := List.forall_mem_cons.mp hinner
    exact .within hq (ih hinner)

namespace Analysis

/-- The step succeeds with a result of a kind, or the graph has grown too large. -/
def Grows {α : Type} (m : Machine) (x : Analysis α) (Q : α → Machine → Prop) : Prop :=
  (∃ a m', x m = .ok a m' ∧ Q a m') ∨ ∃ o m', x m = .error (.tooComplex o) m'

namespace Grows

variable {α β : Type} {x : Analysis α} {f : α → Analysis β} {Q : α → Machine → Prop}
  {R : β → Machine → Prop}

theorem of_ok {a : α} (h : x m = .ok a m') (hq : Q a m') : Grows m x Q := .inl ⟨a, m', h, hq⟩

theorem of_eq {y : Analysis α} (h : x m = y m) (hy : Grows m y Q) : Grows m x Q := by
  unfold Grows
  rw [h]
  exact hy

theorem bind (hx : Grows m x Q) (hf : ∀ a m', Q a m' → Grows m' (f a) R) :
    Grows m (x >>= f) R := by
  rcases hx with ⟨a, m', hx, hq⟩ | ⟨o, m', hx⟩
  · unfold Grows
    rw [bind_eq_of_ok hx]
    exact hf a m' hq
  · exact .inr ⟨o, m', bind_eq_of_error hx⟩

theorem grow {x : Graph.Growth α}
    (h : ∀ a g, x m.graph = .ok a g → Q a { m with graph := g }) : Grows m (grow x) Q := by
  cases hx : x m.graph with
  | ok a g => exact of_ok (grow_ok.mpr ⟨g, hx, rfl⟩) (h a g hx)
  | error o g =>
    refine .inr ⟨o, { m with graph := g }, ?_⟩
    unfold Analysis.grow lift Graph.Growth.run
    rw [hx]

end Grows

theorem pasteAll_frames (pairs : List (VarId × VarId)) (n : NodeId) (m : Machine) :
    ∃ m', (pairs.forM fun (dst, src) => paste dst src n : Analysis Unit) m = .ok () m' ∧
      m'.frames = m.frames := by
  induction pairs generalizing m with
  | nil => exact ⟨m, rfl, rfl⟩
  | cons pair pairs ih =>
    obtain ⟨m', hrest, hframes⟩ := ih { m with graph := m.graph.pasteVariable pair.1 pair.2 n }
    exact ⟨m', (bind_eq_of_ok rfl).trans hrest, hframes⟩

theorem merge_eq_grow {existing : Path} {index : Nat}
    (h : existing.checkCompatible p index = .ok ()) :
    lift (p.merge existing index) m = grow (p.joinTo existing) m := by
  have hmerge : p.merge existing index m.graph = (p.joinTo existing).run m.graph := by
    exact bind_eq_of_ok (ofExcept_ok.mpr ⟨h, rfl⟩)
  unfold Analysis.grow lift
  rw [hmerge]

theorem merge_eq_error {existing : Path} {index : Nat} {e : Failure} {g : Graph}
    (h : existing.checkCompatible p index = .error e) : p.merge existing index g = .error e g := by
  refine bind_eq_of_error ?_
  rw [h]
  rfl

theorem joinTo_shape {existing : Path} {g g' : Graph} (h : p.joinTo existing g = .ok q g')
    (hstack : existing.stack.length = p.stack.length) :
    q.stack.length = existing.stack.length ∧ q.regions = existing.regions := by
  unfold Path.joinTo at h
  obtain ⟨_, _, -, h⟩ := bind_ok.mp h
  obtain ⟨_, _, -, h⟩ := bind_ok.mp h
  obtain ⟨_, _, -, h⟩ := bind_ok.mp h
  obtain ⟨stack, _, hmerge, h⟩ := bind_ok.mp h
  obtain ⟨rfl, -⟩ := pure_ok.mp h
  exact ⟨Path.mergeStacks_length _ _ _ hstack (modifyGet_ok.mp hmerge), rfl⟩

variable {f : Frame} {fs : List Frame}

theorem storeJump_of_executed (hm : m.frames = f :: fs) (hstored : f.entries[head]? = some stored)
    (hx : f.executed.contains head = true) : storeJump head p m = (do
      liftM (stored.checkCompatible { p with stop := none } head)
      grow (Graph.connect p.node stored.node)
      (stored.stack.zip p.stack).reverse.forM fun (dst, src) => paste dst src p.node :
        Analysis Unit) m := by
  unfold storeJump
  refine (bind_eq_of_ok (frame_ok.mpr ⟨⟨fs, hm⟩, rfl⟩)).trans ?_
  rw [if_pos hx, hstored]

theorem storeJump_of_waiting (hm : m.frames = f :: fs) (hstored : f.entries[head]? = some stored)
    (hx : f.executed.contains head = false) : storeJump head p m = (do
      let joined ← lift (Path.merge { p with stop := none } stored head)
      modifyFrame fun f => { f with entries := f.entries.insert head joined } : Analysis Unit) m := by
  unfold storeJump
  refine (bind_eq_of_ok (frame_ok.mpr ⟨⟨fs, hm⟩, rfl⟩)).trans ?_
  rw [if_neg (by simp [hx]), hstored]

/-- A path of the shape of the one that is there already is recorded. -/
theorem storeJump_compatible (hm : m.frames = f :: fs) (hstored : f.entries[head]? = some stored)
    (hstack : stored.stack.length = p.stack.length) (hregions : stored.regions = p.regions) :
    Grows m (storeJump head p) fun _ m' => ∃ w, m'.entryFor? head = some w ∧
      stored.checkCompatible w head = .ok () := by
  have hcheck : stored.checkCompatible { p with stop := none } head = .ok () :=
    Path.checkCompatible_ok hstack hregions
  cases hx : f.executed.contains head with
  | true =>
    refine .of_eq (storeJump_of_executed hm hstored hx) ?_
    refine .of_eq (bind_eq_of_ok (liftM_ok.mpr ⟨hcheck, rfl⟩)) ?_
    refine .bind (.grow (Q := fun _ m' => m'.frames = m.frames) fun _ _ _ => rfl) fun _ m₁ hm₁ => ?_
    obtain ⟨m₂, hrun, hm₂⟩ := pasteAll_frames (stored.stack.zip p.stack).reverse p.node m₁
    refine .of_ok hrun ⟨stored, ?_, Path.checkCompatible_ok rfl rfl⟩
    simp [Machine.entryFor?, hm₂, hm₁, hm, hstored]
  | false =>
    refine .of_eq (storeJump_of_waiting hm hstored hx) ?_
    refine .of_eq (bind_eq_of_eq (merge_eq_grow hcheck)) ?_
    refine .bind (.grow (Q := fun w m' => stored.checkCompatible w head = .ok () ∧
      m'.frames = m.frames) fun w g hjoin => ⟨?_, rfl⟩) fun w m₁ h => ?_
    · obtain ⟨hheight, hsame⟩ := joinTo_shape hjoin hstack
      exact Path.checkCompatible_ok hheight.symm hsame.symm
    · obtain ⟨hw, hm₁⟩ := h
      refine .of_ok (modifyFrame_ok.mpr rfl) ⟨w, ?_, hw⟩
      simp [Machine.entryFor?, hm₁, hm]

/-- A path of another height is refused. -/
theorem storeJump_heights (hm : m.frames = f :: fs) (hstored : f.entries[head]? = some stored)
    (hstack : stored.stack.length ≠ p.stack.length) : storeJump head p m =
      .error (.stateMismatch head (.heights stored.stack.length p.stack.length)) m := by
  have hcheck : stored.checkCompatible { p with stop := none } head =
      .error (.stateMismatch head (.heights stored.stack.length p.stack.length)) := if_pos hstack
  cases hx : f.executed.contains head with
  | true =>
    rw [storeJump_of_executed hm hstored hx]
    refine bind_eq_of_error ?_
    rw [hcheck]
    rfl
  | false =>
    rw [storeJump_of_waiting hm hstored hx]
    refine bind_eq_of_error ?_
    unfold lift
    rw [merge_eq_error hcheck]

theorem step_continueLoop (hop : i.op = .continueLoop) :
    step call i p = pure { p with stop := some .continued } := by
  unfold step
  rw [hop]

/-- A path in a loop goes on with the loop exactly if it is in no context that it has entered since
the head. The way out of each context makes it one operand higher than the path at the head. -/
theorem continueLoop_unwinds {r : Region} {below : List Region} (hm : m.frames = f :: fs)
    (hstored : f.entries[head]? = some stored) (hloop : stored.regions = r :: below)
    (hr : r.kind = .loop) (hp : Path.Inside call stored n p) (hop : i.op = .continueLoop)
    (htarget : i.target = some head) : ∃ q, step call i p m = .ok q m ∧ q.stop = some .continued ∧
      (n = 0 → Grows m (unwind i q q.regions) fun _ m' => ∃ w, m'.entryFor? head = some w ∧
        stored.checkCompatible w head = .ok ()) ∧
      (n ≠ 0 → unwind i q q.regions m = .error
        (.stateMismatch head (.heights stored.stack.length (n + stored.stack.length))) m) := by
  let q : Path := { p with stop := some .continued }
  obtain ⟨outs, hlength, hstack⟩ := hp.above.stack
  have hheight : p.stack.length = n + stored.stack.length := by simp [hstack, hlength]
  have htaken : TakenOver .continued q.regions r below := hp.above.takenOver hloop hr
  have hunwind : unwind i q q.regions = storeJump head { q with regions := r :: below } := by
    rw [unwind_takenOver rfl htaken, unwind_continued rfl htaken.takesOver, htarget]
    rfl
  refine ⟨q, by rw [step_continueLoop hop]; rfl, rfl, fun hn => ?_, fun hn => ?_⟩
  · rw [hunwind]
    exact storeJump_compatible hm hstored (by simp [q, hheight, hn]) hloop
  · have hhigher : stored.stack.length ≠ p.stack.length := by omega
    rw [hunwind, ← hheight]
    exact storeJump_heights hm hstored hhigher

def roundPath : Path := { node := 1, regions := [⟨.loop, 9, 0⟩] }

/-- A machine in the loop. Nothing is known of the value of its second variable. -/
def rounds : Machine where
  graph := guarded.graph
  store := guarded.store
  shared := guarded.shared
  frames := [{ idleFrame with entries := (∅ : Std.TreeMap Nat Path).insert 1 roundPath }]

def enterContext : Instruction := ⟨2, .setupWith, none, 0, some 6⟩

def dropEntered : Instruction := ⟨3, .popTop, none, 0, none⟩

def nextRound : Instruction := ⟨4, .continueLoop, none, 0, some 1⟩

/-- From inside of a cleanup the path comes back to the head. -/
theorem nextRound_unwinds : ∃ p m, Path.Inside noCall roundPath 0 p ∧
    p.regions = [⟨.cleanup, 4, 0⟩, ⟨.loop, 9, 0⟩] ∧ ∃ q, step noCall nextRound p m = .ok q m ∧
      Grows m (unwind nextRound q q.regions) fun _ m' => ∃ w, m'.entryFor? 1 = some w ∧
        roundPath.checkCompatible w 1 = .ok () := by
  obtain ⟨q, m, f, hrun, hq, hregions, hm, hf⟩ : ∃ q m f,
      step noCall enterRegion roundPath rounds = .ok q m ∧ q.stop = none ∧
      q.regions = [⟨.cleanup, 4, 0⟩, ⟨.loop, 9, 0⟩] ∧ m.frames = [f] ∧
      f.entries[1]? = some roundPath := ⟨_, _, _, rfl, rfl, rfl, rfl, rfl⟩
  have hinside : Path.Inside noCall roundPath 0 q := .guarded .head (.inr rfl) hrun hq
  obtain ⟨r, hstep, -, hback, -⟩ := continueLoop_unwinds (i := nextRound) hm hf rfl rfl hinside rfl
    rfl
  exact ⟨q, m, hinside, hregions, r, hstep, hback rfl⟩

/-- The loop goes on from inside of a context. -/
def roundInContext : Analysis Unit := do
  let p ← step noCall enterContext (roundPath.push 1)
  let p ← step noCall dropEntered p
  let p ← step noCall nextRound p
  unwind nextRound p p.regions

/-- From inside of a context it does not. -/
theorem roundInContext_fails : rounds.entryFor? 1 = some roundPath ∧
    (match roundInContext rounds with
      | .ok .. => none
      | .error e _ => some e) = some (.stateMismatch 1 (.heights 0 1)) :=
  ⟨rfl, by decide +kernel⟩

end Analysis

end ValueTrace
