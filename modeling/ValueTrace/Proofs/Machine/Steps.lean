import ValueTrace.Call.Basic
import ValueTrace.Proofs.Success
import ValueTrace.Step.Argument

/-! What a step of the machine that succeeds has done to its parts. -/
namespace ValueTrace.Analysis

variable {α : Type} {m m' : Machine} {a : α}

theorem liftM_ok {x : Except Failure α} :
    (liftM x : Analysis α) m = .ok a m' ↔ x = .ok a ∧ m = m' := ofExcept_ok

theorem liftM_eq_of_ok {x : Except Failure α} (h : x = .ok a) :
    (liftM x : Analysis α) m = .ok a m := liftM_ok.mpr ⟨h, rfl⟩

theorem onGraph_ok {f : Graph → α × Graph} :
    onGraph f m = .ok a m' ↔ (f m.graph).1 = a ∧ { m with graph := (f m.graph).2 } = m' := by
  unfold onGraph
  rw [modifyGet_ok]
  simp

theorem lift_ok {x : EStateM Failure Graph α} :
    lift x m = .ok a m' ↔ ∃ g, x m.graph = .ok a g ∧ { m with graph := g } = m' := by
  unfold lift
  cases x m.graph <;> simp

theorem grow_ok {x : Graph.Growth α} :
    grow x m = .ok a m' ↔ ∃ g, x m.graph = .ok a g ∧ { m with graph := g } = m' := by
  unfold grow
  rw [lift_ok]
  unfold Graph.Growth.run
  cases x m.graph <;> simp

theorem paste_ok {dst src : VarId} {n : NodeId} : paste dst src n m = .ok () m' ↔
    { m with graph := m.graph.pasteVariable dst src n } = m' := by
  unfold paste
  simp [onGraph_ok]

theorem modifyFrame_ok {f : Frame → Frame} : modifyFrame f m = .ok () m' ↔
    { m with frames := m.frames.modifyHead f } = m' := modify_ok

theorem frame_ok {f : Frame} : frame m = .ok f m' ↔ (∃ fs, m.frames = f :: fs) ∧ m = m' := by
  unfold frame
  rw [bind_ok]
  simp only [get_ok]
  cases hm : m.frames with
  | nil => simp [hm, throw_ok]
  | cons g fs => simp [hm, pure_ok]

theorem argument_ok {i : Instruction} {n : Nat} :
    argument i m = .ok n m' ↔ i.arg = some n ∧ m = m' := by
  unfold argument
  cases i.arg with
  | none => simp [throw_ok]
  | some k => simp [pure_ok]

theorem entryAt_ok {table : CodeTable} {entries : Frame → List α} {i : Instruction} {n : Nat}
    {f : Frame} {fs : List Frame} (hf : m.frames = f :: fs) (harg : i.arg = some n)
    (hentry : (entries f)[n]? = some a) : entryAt table entries i m = .ok a m := by
  refine bind_ok.mpr ⟨n, m, argument_ok.mpr ⟨harg, rfl⟩,
    bind_ok.mpr ⟨f, m, frame_ok.mpr ⟨⟨fs, hf⟩, rfl⟩, ?_⟩⟩
  rw [hentry]
  rfl

/-- A loop that changes nothing but the graph keeps what each of its steps keeps. -/
theorem forM_graph {σ : Type} {l : List σ} {x : σ → Analysis Unit} {g : Graph} {I : Graph → Prop}
    (hI : I g) (h : ∀ a ∈ l, ∀ g, I g →
      ∃ g', x a { m with graph := g } = .ok () { m with graph := g' } ∧ I g') :
    ∃ g', l.forM x { m with graph := g } = .ok () { m with graph := g' } ∧ I g' := by
  induction l generalizing g with
  | nil => exact ⟨g, rfl, hI⟩
  | cons a l ih =>
    obtain ⟨g₁, hx, hg₁⟩ := h a List.mem_cons_self g hI
    obtain ⟨g₂, hl, hg₂⟩ := ih hg₁ fun c hc => h c (List.mem_cons_of_mem a hc)
    exact ⟨g₂, (bind_eq_of_ok hx).trans hl, hg₂⟩

end ValueTrace.Analysis

namespace ValueTrace.Attempt

variable {α β : Type} {m m' : Machine} {a : α} {b : β} {x : Attempt α} {f : α → Attempt β}

theorem bind_ok : (x >>= f).run m = .ok (.ok b) m' ↔
    ∃ a m₁, x.run m = .ok (.ok a) m₁ ∧ (f a).run m₁ = .ok (.ok b) m' := by
  change (x.run >>= ExceptT.bindCont f) m = _ ↔ _
  rw [ValueTrace.bind_ok]
  constructor
  · rintro ⟨r, m₁, hx, h⟩
    cases r with
    | ok a => exact ⟨a, m₁, hx, h⟩
    | error e => cases h
  · rintro ⟨a, m₁, hx, h⟩
    exact ⟨.ok a, m₁, hx, h⟩

theorem pure_ok {c : α} : (pure a : Attempt α).run m = .ok (.ok c) m' ↔ a = c ∧ m = m' := by
  change EStateM.Result.ok (Except.ok a) m = .ok (.ok c) m' ↔ _
  simp

theorem lift_ok {x : Analysis α} :
    (liftM x : Attempt α).run m = .ok (.ok a) m' ↔ x m = .ok a m' := by
  change (x >>= fun a => pure (Except.ok a)) m = _ ↔ _
  rw [ValueTrace.bind_ok]
  constructor
  · rintro ⟨_, _, hx, h⟩
    cases h
    exact hx
  · exact fun hx => ⟨a, m', hx, rfl⟩

theorem mapM_lift_ok {σ : Type} {l : List σ} {x : σ → Analysis α} {bs : List α} :
    (l.mapM fun c => (liftM (x c) : Attempt α)).run m = .ok (.ok bs) m' ↔
      l.mapM x m = .ok bs m' := by
  induction l generalizing m m' bs with
  | nil => exact pure_ok.trans (ValueTrace.pure_ok (ε := Failure)).symm
  | cons c l ih =>
    rw [List.mapM_cons, List.mapM_cons, bind_ok, ValueTrace.bind_ok]
    simp only [lift_ok, bind_ok, ValueTrace.bind_ok, ih, pure_ok, ValueTrace.pure_ok]

/-- What is lifted does not fail as an attempt. -/
theorem lift_bind_run (x : Analysis α) (f : α → Attempt β) :
    ((liftM x : Attempt α) >>= f).run = x >>= fun a => (f a).run := ExceptT.run_bind_lift x f

theorem mapM_lift {σ : Type} (l : List σ) (x : σ → Analysis α) :
    (l.mapM fun c => (liftM (x c) : Attempt α)) = liftM (l.mapM x) := by
  induction l with
  | nil => rfl
  | cons c l ih =>
    rw [List.mapM_cons, List.mapM_cons, ih]
    simp only [liftM_bind, liftM_pure]

end ValueTrace.Attempt
