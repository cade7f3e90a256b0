import ValueTrace.Bytecode.Validation
import ValueTrace.Proofs.Flow.Frames
import ValueTrace.Proofs.Safety.Paths

/-!
# Instructions that control does not reach

Control flows from an instruction to its target, and on to the next instruction unless the operation
ends the block. Within a block the machine goes on until the path stops, and a plain jump does not
stop it: the jump has led a path to its target, and the same path goes on behind it. So in code
where such a jump stands inside of a block, what is run is what control reaches if it also passes
these jumps. Where all plain jumps stand at the ends of their blocks it is what control reaches.
-/

namespace ValueTrace

namespace Code

/-- Control gets from the start to a position, on from those instructions that it passes. -/
inductive Reaches (c : Code) (passes : Instruction → Prop) : Nat → Prop where
  | start : c.Reaches passes 0
  | next {i : Instruction} (hi : i ∈ c.ops) (h : c.Reaches passes i.index) (hp : passes i) :
    c.Reaches passes i.next
  | target {i : Instruction} {k : Nat} (hi : i ∈ c.ops) (h : c.Reaches passes i.index)
    (hop : i.op.hasTarget = true) (hk : i.target = some k) : c.Reaches passes k

def JumpsInside (c : Code) (i : Instruction) : Prop :=
  (i.op = .jumpForward ∨ i.op = .jumpAbsolute) ∧ ∃ b ∈ c.blocks, i ∈ b.ops.dropLast

instance (c : Code) (i : Instruction) : Decidable (c.JumpsInside i) :=
  inferInstanceAs (Decidable (_ ∧ _))

def Passes (c : Code) (i : Instruction) : Prop := i.carriesOn = true ∨ c.JumpsInside i

variable {c : Code} {i j : Instruction} {b : Block} {k : Nat}

theorem Reaches.mono {passes passes' : Instruction → Prop} (hp : ∀ i ∈ c.ops, passes i → passes' i)
    (h : c.Reaches passes k) : c.Reaches passes' k := by
  induction h with
  | start => exact .start
  | next hi _ hpass ih => exact .next hi ih (hp _ hi hpass)
  | target hi _ hop hk ih => exact .target hi ih hop hk

theorem index_of_getElem? (h : c.checkSelf = .ok ()) (hi : c.ops[k]? = some i) : i.index = k := by
  unfold checkSelf at h
  simp only [bind, Except.bind] at h
  split at h
  · cases h
  split at h
  · cases h
  have hcheck := forM_eq_ok.mp h (i, k) (by simpa [List.mem_zipIdx_iff_getElem?] using hi)
  unfold checkOp at hcheck
  simp only [bind, Except.bind] at hcheck
  split at hcheck
  · cases hcheck
  · next hne => simpa using hne

/-- The instructions of a block follow one another. -/
theorem index_eq_next {pre post : List Instruction} (h : c.checkSelf = .ok ()) (hb : b ∈ c.blocks)
    (hops : b.ops = pre ++ i :: j :: post) : j.index = i.next := by
  obtain ⟨before, after, hblocks⟩ := List.append_of_mem hb
  have hsplit : c.ops = (before.flatMap (·.ops) ++ pre) ++
      (i :: j :: (post ++ after.flatMap (·.ops))) := by
    simp [ops, hblocks, hops]
  generalize before.flatMap (·.ops) ++ pre = front at hsplit
  rw [index_of_getElem? h (show c.ops[front.length + 1]? = some j by simp [hsplit]),
    Instruction.next, index_of_getElem? h (show c.ops[front.length]? = some i by simp [hsplit])]

theorem mem_ops {b : Block} (hb : b ∈ c.blocks) (hi : i ∈ b.ops) : i ∈ c.ops :=
  List.mem_flatMap.mpr ⟨b, hb, hi⟩

theorem index_firstOp? (h : c.checkSelf = .ok ()) (hi : c.firstOp? = some i) : i.index = 0 := by
  refine index_of_getElem? h ?_
  unfold firstOp? at hi
  cases hb : c.blocks with
  | nil => simp [hb] at hi
  | cons b bs =>
    cases hops : b.ops with
    | nil => simp [hb, hops] at hi
    | cons i' is => simpa [ops, hb, hops] using hi

/-- Behind an instruction that the machine goes on from within its block, control goes on. -/
theorem Reaches.inside {pre post : List Instruction} (h : c.checkSelf = .ok ())
    (hb : b ∈ c.blocks) (hops : b.ops = pre ++ i :: j :: post) (hi : c.Reaches c.Passes i.index)
    (hgo : i.op.isTerminator = true → i.op = .jumpForward ∨ i.op = .jumpAbsolute) :
    c.Reaches c.Passes j.index := by
  rw [index_eq_next h hb hops]
  refine .next (mem_ops hb (by simp [hops])) hi ?_
  by_cases ht : i.op.isTerminator = true
  · refine .inr ⟨hgo ht, b, hb, ?_⟩
    rw [hops, List.dropLast_append_of_ne_nil (by simp)]
    simp
  · exact .inl (by simp [Instruction.carriesOn, ht])

end Code

/-- All that the path can be led to by leaving its regions is among these positions. -/
def Path.Heads (L : Nat → Prop) (p : Path) : Prop := ∀ r ∈ p.regions, L r.handler

def Frame.OnCourse (L : Nat → Prop) (f : Frame) : Prop :=
  ∀ k p, f.WaitsAt k p → L k ∧ p.Heads L ∧ p.stop = none

def Machine.OnCourse (L : Nat → Prop) (m : Machine) : Prop :=
  ∀ f ∈ m.frames.head?, f.OnCourse L

namespace Analysis

variable {α β σ : Type} {L : Nat → Prop} {x y : Analysis α} {f g : α → Analysis β} {Q : α → Prop}
  {R : β → Prop}

/-- While paths wait at these positions only, two steps do the same, and so it stays. -/
structure Alike (L : Nat → Prop) (x y : Analysis α) (Q : α → Prop) : Prop where
  alike : ∀ m, m.OnCourse L → y m = x m ∧ ∀ a m', x m = .ok a m' → m'.OnCourse L ∧ Q a

namespace Alike

/-- A step that leads paths to these positions only is like itself. -/
theorem of_leads {D : Nat → Path → Prop} (h : Leads D x)
    (hD : ∀ k p, D k p → L k ∧ p.Heads L ∧ p.stop = none) (hQ : ∀ {m}, Yields m x Q) :
    Alike L x x Q := by
  refine ⟨fun m hm => ⟨rfl, fun a m' hx => ⟨?_, hQ a m' hx⟩⟩⟩
  have hled := h.of_ok hx
  unfold Machine.OnCourse at hm ⊢
  generalize m.frames = fs at hm hled
  generalize m'.frames = fs' at hled
  cases hled with
  | nil => simp
  | cons hf fs =>
    intro g hg
    cases hg
    intro k p hp
    rcases hf k p hp with hp | hp
    · exact hm _ rfl k p hp
    · exact hD k p hp

theorem of_keeps (h : KeepsFrames x) (hQ : ∀ {m}, Yields m x Q) : Alike L x x Q :=
  of_leads (D := fun _ _ => False) (.of_keeps h) (fun _ _ h => h.elim) hQ

theorem pure {a : α} (h : Q a) : Alike L (pure a) (pure a) Q := of_keeps (.pure a) (.pure h)

theorem bind (hx : Alike L x y Q) (hf : ∀ a, Q a → Alike L (f a) (g a) R) :
    Alike L (x >>= f) (y >>= g) R := by
  refine ⟨fun m hm => ?_⟩
  obtain ⟨hxy, hok⟩ := hx.alike m hm
  change EStateM.bind y g m = EStateM.bind x f m ∧
    ∀ b m', EStateM.bind x f m = .ok b m' → m'.OnCourse L ∧ R b
  unfold EStateM.bind
  rw [hxy]
  cases h : x m with
  | ok a m₁ =>
    obtain ⟨hm₁, ha⟩ := hok a m₁ h
    exact (hf a ha).alike m₁ hm₁
  | error e m₁ => exact ⟨rfl, fun b m' h => by cases h⟩

theorem mapM {f g : σ → Analysis β} {l : List σ}
    (h : ∀ a ∈ l, Alike L (f a) (g a) fun _ => True) :
    Alike L (l.mapM f) (l.mapM g) fun _ => True := by
  induction l with
  | nil => exact pure trivial
  | cons a l ih =>
    rw [List.mapM_cons, List.mapM_cons]
    exact bind (h a List.mem_cons_self) fun _ _ =>
      bind (ih fun b hb => h b (List.mem_cons_of_mem _ hb)) fun _ _ => pure trivial

end Alike

end Analysis

/-- What an instruction leaves of its path. -/
structure Instruction.Leaves (i : Instruction) (L : Nat → Prop) (p : Path) : Prop where
  heads : p.Heads L
  continued : p.stop = some .continued → i.op = .continueLoop
  jumped : p.stop = none → i.op.isTerminator = true → i.op = .jumpForward ∨ i.op = .jumpAbsolute

/-- An instruction enters a region only if its target is the handler. -/
theorem Instruction.Reshapes.heads {i : Instruction} {L : Nat → Prop} {height : Nat}
    {before after : List Region} (h : i.Reshapes height before after)
    (ht : ∀ k, i.op.hasTarget = true → i.target = some k → L k)
    (hL : ∀ r ∈ before, L r.handler) : ∀ r ∈ after, L r.handler := by
  have hentered {kinds : List RegionKind} (hop : i.op.hasTarget = true)
      (h : i.Enters kinds height before after) : ∀ r ∈ after, L r.handler := by
    obtain ⟨kind, -, handler, hhandler, rfl⟩ := h
    intro r hr
    rcases List.mem_cons.mp hr with rfl | hr
    · exact ht handler hop hhandler
    · exact hL r hr
  unfold Instruction.Reshapes at h
  split at h
  · next hop => exact hentered (by rw [hop]; rfl) h
  · next hop => exact hentered (by rw [hop]; rfl) h
  · next hop => exact hentered (by rw [hop]; rfl) h
  · next hop => exact hentered (by rw [hop]; rfl) h
  · obtain ⟨r, rfl⟩ := h
    exact fun s hs => hL s (List.mem_cons_of_mem _ hs)
  · rwa [h]

namespace Analysis

variable {L : Nat → Prop} {c : Code} {step' : Stepper} {fuel : Nat} {i last : Instruction}
  {p : Path}
  {b : Block} {m : Machine}

theorem runInstruction_leaves (ht : ∀ k, i.op.hasTarget = true → i.target = some k → L k)
    (hp : p.Heads L) (hstop : p.stop = none) :
    Yields m (runInstruction (stepWithin fuel) i p) (i.Leaves L) := by
  refine .skip fun _ => .skip fun _ => .bind (P := i.Leaves L) ?_ fun q hq => .pure ?_
  · intro q m' h
    unfold mapFailure at h
    split at h
    · next hx =>
      cases h
      have ha := Yields.step i p q m' hx
      refine ⟨ha.regions.heads ht hp, fun hc => ?_, ha.jumped⟩
      rcases ha.continued hc with hc | hop
      · rw [hstop] at hc
        cases hc
      · exact hop
    · cases h
  · split
    · exact ⟨hq.heads, nofun, nofun⟩
    · exact hq

namespace Alike

/-- The two ways to run instructions are the same where the code is reached. -/
def SameWhereReached (c : Code) (fuel : Nat) (step' : Stepper) : Prop :=
  ∀ i ∈ c.ops, c.Reaches c.Passes i.index → step' i = stepWithin fuel i

theorem runInstruction (hstep : SameWhereReached c fuel step') (hi : i ∈ c.ops)
    (hr : c.Reaches c.Passes i.index) (hp : p.Heads (c.Reaches c.Passes)) (hstop : p.stop = none) :
    Alike (c.Reaches c.Passes) (runInstruction (stepWithin fuel) i p)
      (runInstruction step' i p) (i.Leaves (c.Reaches c.Passes)) := by
  have ht (k : Nat) (hop : i.op.hasTarget = true) (hk : i.target = some k) :
      c.Reaches c.Passes k := .target hi hr hop hk
  have hsame : Analysis.runInstruction step' i p =
      Analysis.runInstruction (stepWithin fuel) i p := by
    unfold Analysis.runInstruction
    rw [hstep i hi hr]
  rw [hsame]
  refine of_leads (.runInstruction (stepWithin_leads fuel i p)) ?_
    (runInstruction_leaves ht hp hstop)
  rintro k q ⟨hop, hk, hregions, hq⟩
  refine ⟨ht k hop hk, ?_, hq⟩
  unfold Path.Heads
  rwa [hregions]

theorem runInstructions (hstep : SameWhereReached c fuel step') (hc : c.checkSelf = .ok ())
    (hb : b ∈ c.blocks) (pre : List Instruction) {is : List Instruction}
    (hops : b.ops = pre ++ last :: is) (hr : c.Reaches c.Passes last.index)
    (hp : last.Leaves (c.Reaches c.Passes) p) :
    Alike (c.Reaches c.Passes) (runInstructions (stepWithin fuel) last p is)
      (runInstructions step' last p is) fun r =>
        r.1 ∈ c.ops ∧ c.Reaches c.Passes r.1.index ∧ r.1.Leaves (c.Reaches c.Passes) r.2 := by
  have hlast : last ∈ c.ops := Code.mem_ops hb (by simp [hops])
  induction is generalizing pre last p with
  | nil => exact pure ⟨hlast, hr, hp⟩
  | cons i is ih =>
    unfold Analysis.runInstructions
    split
    · exact pure ⟨hlast, hr, hp⟩
    · next hgo =>
      have hgo : p.stop = none := by simpa using hgo
      have hi : i ∈ c.ops := Code.mem_ops hb (by simp [hops])
      have hri := hr.inside hc hb hops (hp.jumped hgo)
      exact bind (runInstruction hstep hi hri hp.heads hgo) fun q hq =>
        ih (pre ++ [last]) (by simp [hops]) hri hq hi

theorem storeJump {k : Nat} (hk : L k) (hp : p.Heads L) :
    Alike L (storeJump k p) (storeJump k p) fun _ => True := by
  refine of_leads (.storeJump k p) ?_ (.any _)
  rintro k' q ⟨rfl, hregions, hq⟩
  refine ⟨hk, ?_, hq⟩
  unfold Path.Heads
  rwa [hregions]

theorem unwind (hi : i ∈ c.ops) (hr : c.Reaches c.Passes i.index)
    (hp : i.Leaves (c.Reaches c.Passes) p) : Alike (c.Reaches c.Passes)
      (unwind i p p.regions) (unwind i p p.regions) fun _ => True := by
  refine of_leads (.unwind i p p.regions) ?_ (.any _)
  rintro k q ⟨hregions, hq, hto⟩
  refine ⟨?_, fun r hr => hp.heads r (hregions r hr), hq⟩
  rcases hto with ⟨hc, hk⟩ | ⟨r, hr, rfl⟩
  · exact .target hi hr (by rw [hp.continued hc]; rfl) hk
  · exact hp.heads r hr

theorem runBlock (hstep : SameWhereReached c fuel step') (hc : c.checkSelf = .ok ())
    (hb : b ∈ c.blocks) (hr : ∀ k ∈ b.start?, c.Reaches c.Passes k)
    (hp : p.Heads (c.Reaches c.Passes)) (hstop : p.stop = none) :
    Alike (c.Reaches c.Passes) (runBlock (stepWithin fuel) b p) (runBlock step' b p)
      fun _ => True := by
  unfold Analysis.runBlock
  cases hops : b.ops with
  | nil => exact pure trivial
  | cons i is =>
    have hi : i ∈ c.ops := Code.mem_ops hb (by simp [hops])
    have hri : c.Reaches c.Passes i.index := hr _ (by simp [Block.start?, hops])
    refine bind (runInstruction hstep hi hri hp hstop) fun q hq =>
      bind (runInstructions hstep hc hb [] hops hri hq) fun r hr => ?_
    obtain ⟨last, r⟩ := r
    obtain ⟨hlast, hreached, hleft⟩ := hr
    dsimp only
    split
    · exact pure trivial
    · exact pure trivial
    · exact pure trivial
    · exact bind (unwind hlast hreached hleft) fun _ _ => pure trivial
    · split
      · next hgo =>
        exact bind (storeJump (.next hlast hreached (.inl hgo)) hleft.heads) fun _ _ => pure trivial
      · exact pure trivial

theorem frame : Alike L frame frame (Frame.OnCourse L) := by
  refine ⟨fun m hm => ⟨rfl, fun f m' h => ?_⟩⟩
  obtain ⟨⟨fs, hfs⟩, rfl⟩ := frame_ok.mp h
  exact ⟨hm, hm f (by simp [hfs])⟩

theorem runEntries (hstep : SameWhereReached c fuel step') (hc : c.checkSelf = .ok ())
    (hb : b ∈ c.blocks) : Alike (c.Reaches c.Passes) (runEntries (stepWithin fuel) b)
      (runEntries step' b) fun _ => True := by
  unfold Analysis.runEntries
  split
  · next start hstart =>
    refine bind frame fun f hf => ?_
    extract_lets paths
    split
    · exact pure trivial
    · refine bind (Q := fun _ => True) (of_leads (D := fun _ _ => False)
        (.modifyFrame fun _ => .of_same rfl rfl) (fun _ _ h => h.elim) (.any _)) fun _ _ =>
          bind (mapM fun p hp => ?_) fun _ _ => pure trivial
      have hwaits : f.WaitsAt start p := by
        rcases List.mem_append.mp hp with hp | hp
        · exact .inl (Option.mem_toList.mp hp)
        · exact .inr (Option.mem_toList.mp hp)
      obtain ⟨hr, hheads, hstop⟩ := hf start p hwaits
      refine runBlock hstep hc hb (fun k hk => ?_) hheads hstop
      rw [hstart] at hk
      exact Option.some.inj hk ▸ hr
  · exact pure trivial

end Alike

end Analysis

open Analysis

/-- Instructions at other positions are not run: no run of the frame tells what would happen at
them, however much room there is for nested calls. -/
def Frame.RunsOnly (f : Frame) (L : Nat → Prop) : Prop :=
  ∀ (fuel : Nat) (step' : Stepper),
    (∀ i ∈ f.code.code.ops, L i.index → step' i = stepWithin fuel i) →
    ∀ n m, runFrame step' f n m = runFrame (stepWithin fuel) f n m

namespace Frame.RunsOnly

variable {f : Frame}

theorem reached (hcode : f.code.code.validate = .ok ()) (hentries : f.entries = ∅)
    (hraised : f.raisedEntries = ∅) : f.RunsOnly (f.code.code.Reaches f.code.code.Passes) := by
  intro fuel step' hstep n m
  have hself := (Code.validate_ok hcode).1
  obtain ⟨first, hfirst⟩ := Option.isSome_iff_exists.mp (Code.firstOp?_isSome hself)
  have hindex := Code.index_firstOp? hself hfirst
  let f' : Frame := { f with entries := f.entries.insert first.index { node := n } }
  have hcourse : f'.OnCourse (f.code.code.Reaches f.code.code.Passes) := by
    intro k p hp
    rcases WaitsAt.insert hp with hp | ⟨rfl, rfl⟩
    · unfold WaitsAt at hp
      simp [hentries, hraised] at hp
    · exact ⟨hindex ▸ .start, nofun, rfl⟩
  have hblocks : Alike (f.code.code.Reaches f.code.code.Passes)
      (do return (← f.code.code.blocks.mapM (runEntries (stepWithin fuel))).flatten)
      (do return (← f.code.code.blocks.mapM (runEntries step')).flatten) fun _ => True :=
    .bind (.mapM fun b hb => .runEntries hstep hself hb) fun _ _ => .pure trivial
  have hframe : withFrame f' (do return (← f.code.code.blocks.mapM (runEntries step')).flatten) =
      withFrame f'
        (do return (← f.code.code.blocks.mapM (runEntries (stepWithin fuel))).flatten) := by
    funext m
    unfold withFrame
    rw [(hblocks.alike { m with frames := f' :: m.frames }
      fun g hg => by cases hg; exact hcourse).1]
  unfold runFrame
  dsimp only
  rw [hfirst]
  dsimp only
  rw [hframe]

theorem mono {L L' : Nat → Prop} (h : f.RunsOnly L) (hL : ∀ k, L k → L' k) : f.RunsOnly L' :=
  fun fuel step' hstep => h fuel step' fun i hi hr => hstep i hi (hL _ hr)

end Frame.RunsOnly

/-- In a frame with valid code an instruction is run only if control reaches it, given that control
may also go on behind a plain jump inside of a block. If there is none, nothing else is run than
what control reaches from the start by way of targets and of instructions that it goes on from. -/
theorem Frame.runsOnly_reached {f : Frame} (hcode : f.code.code.validate = .ok ())
    (hentries : f.entries = ∅) (hraised : f.raisedEntries = ∅) :
    f.RunsOnly (f.code.code.Reaches f.code.code.Passes) ∧
      ((∀ i ∈ f.code.code.ops, ¬ f.code.code.JumpsInside i) →
        f.RunsOnly (f.code.code.Reaches fun i => i.carriesOn = true)) := by
  have h := RunsOnly.reached hcode hentries hraised
  exact ⟨h, fun hjumps => h.mono fun k hk => hk.mono fun i hi hp => hp.resolve_right (hjumps i hi)⟩

/-- A jump over an instruction that needs an operand, in these blocks. -/
def leap (blocks : List Block) : Code where
  name := "<module>"
  filename := "m.py"
  firstLine := 1
  argCount := 0
  kwonlyArgCount := 0
  flags := 0
  varnames := []
  names := []
  consts := [.none]
  cellvars := []
  freevars := []
  blocks := blocks

def leapJump : Instruction :=
  { index := 0, op := .jumpAbsolute, arg := some 2, line := 1, target := some 2 }

def leapOver : Instruction := { index := 1, op := .popTop, line := 1 }

def leapEnd : List Instruction := [
  { index := 2, op := .loadConst, arg := some 0, line := 2 },
  { index := 3, op := .returnValue, line := 2 }]

def partedLeap : Code := leap [⟨0, [leapJump]⟩, ⟨1, [leapOver]⟩, ⟨2, leapEnd⟩]

def joinedLeap : Code := leap [⟨0, [leapJump, leapOver]⟩, ⟨1, leapEnd⟩]

/-- A frame for it. -/
def leapFrame (code : Code) : Frame where
  code := ⟨[0], code⟩
  globals := 1
  locals := 1
  cells := []
  result := 0
  yielded := 1

/-- Control does not reach what it leaps over. -/
theorem leap_ne_one {blocks : List Block} {k : Nat}
    (hops : (leap blocks).ops = leapJump :: leapOver :: leapEnd)
    (h : (leap blocks).Reaches (fun i => i.carriesOn = true) k) : k ≠ 1 := by
  induction h with
  | start => decide
  | next hi _ hp ih =>
    simp only [hops, leapEnd, List.mem_cons, List.not_mem_nil, or_false] at hi
    rcases hi with rfl | rfl | rfl | rfl
    · cases hp
    · exact absurd rfl ih
    · decide
    · cases hp
  | target hi _ hop hk ih =>
    simp only [hops, leapEnd, List.mem_cons, List.not_mem_nil, or_false] at hi
    rcases hi with rfl | rfl | rfl | rfl
    · cases hk
      decide
    · cases hop
    · cases hop
    · cases hop

theorem partedLeap_runsOnly : partedLeap.validate = .ok () ∧
    (leapFrame partedLeap).RunsOnly (partedLeap.Reaches fun i => i.carriesOn = true) ∧
      ¬ partedLeap.Reaches (fun i => i.carriesOn = true) 1 := by
  have hvalid : partedLeap.validate = .ok () := by decide
  have hjumps : ∀ i ∈ partedLeap.ops, ¬ partedLeap.JumpsInside i := by decide
  have h := Frame.runsOnly_reached (f := leapFrame partedLeap) hvalid rfl rfl
  exact ⟨hvalid, h.2 hjumps, fun h => leap_ne_one rfl h rfl⟩

def failingAtLeap : Stepper := fun i p =>
  if i.index = 1 then throw (.internal "not to be run") else stepWithin 0 i p

theorem runFrame_joinedLeap : ∃ m m',
    runFrame (stepWithin 0) (leapFrame joinedLeap) 0 {} =
        (.error (.stackUnderflow (some .popTop) 1 0) m :
          EStateM.Result Failure Machine (NodeId × VarId)) ∧
      runFrame failingAtLeap (leapFrame joinedLeap) 0 {} =
        (.error (.internal "not to be run") m' :
          EStateM.Result Failure Machine (NodeId × VarId)) :=
  ⟨_, _, rfl, rfl⟩

/-- Control does not reach what is leapt over, and it is run all the same where the jump stands
inside of a block, although the code passes its check. -/
theorem joinedLeap_runs_over : joinedLeap.validate = .ok () ∧
    ¬ joinedLeap.Reaches (fun i => i.carriesOn = true) 1 ∧
      ¬ (leapFrame joinedLeap).RunsOnly (joinedLeap.Reaches fun i => i.carriesOn = true) := by
  have hover : ¬ joinedLeap.Reaches (fun i => i.carriesOn = true) 1 :=
    fun h => leap_ne_one rfl h rfl
  refine ⟨by decide, hover, fun h => ?_⟩
  have hsame : ∀ i ∈ joinedLeap.ops, joinedLeap.Reaches (fun i => i.carriesOn = true) i.index →
      failingAtLeap i = stepWithin 0 i := by
    intro i _ hi
    have hne : i.index ≠ 1 := fun hone => hover (hone ▸ hi)
    funext p
    exact if_neg hne
  obtain ⟨m, m', hrun, hfailing⟩ := runFrame_joinedLeap
  have heq := (hfailing.symm.trans (h 0 failingAtLeap hsame 0 {})).trans hrun
  cases heq

end ValueTrace
