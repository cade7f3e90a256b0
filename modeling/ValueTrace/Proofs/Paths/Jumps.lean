import ValueTrace.Proofs.Machine.Frames
import ValueTrace.Proofs.Paths.Conditions
import ValueTrace.Step.Instruction

/-! Where the paths stand that a jump or a branch leads on. -/
namespace ValueTrace

def Machine.entryFor? (m : Machine) (dest : Nat) : Option Path :=
  m.frames.head?.bind (·.entries[dest]?)

def Machine.Unmet (m : Machine) (dest : Nat) : Prop :=
  ∃ f fs, m.frames = f :: fs ∧ f.executed.contains dest = false ∧ f.entries[dest]? = none

theorem Machine.Unmet.congr {m m' : Machine} {dest : Nat} (h : m.Unmet dest)
    (hf : m'.frames = m.frames) : m'.Unmet dest := by
  obtain ⟨f, fs, hm, hd⟩ := h
  exact ⟨f, fs, hf.trans hm, hd⟩

theorem Machine.entryFor?_congr {m m' : Machine} {dest : Nat} (hf : m'.frames = m.frames) :
    m'.entryFor? dest = m.entryFor? dest := by
  unfold entryFor?
  rw [hf]

theorem Machine.Unmet.entryFor? {m : Machine} {dest : Nat} (h : m.Unmet dest) :
    m.entryFor? dest = none := by
  obtain ⟨f, fs, hm, _, hd⟩ := h
  simp [Machine.entryFor?, hm, hd]

namespace Analysis

variable {m m' : Machine} {p q : Path} {i : Instruction} {dest : Nat}

theorem target_ok : target i m = .ok dest m' ↔ i.target = some dest ∧ m = m' := by
  unfold target
  cases i.target with
  | none => exact throw_ok.trans (by simp)
  | some t => exact pure_ok.trans (by simp)

theorem discard_ok (h : p.discard = .ok q) : ∃ stack, q = { p with stack } := by
  unfold Path.discard Path.pop at h
  cases hs : p.stack with
  | nil =>
    rw [hs] at h
    cases h
  | cons v stack =>
    rw [hs] at h
    cases h
    exact ⟨stack, rfl⟩

/-- The first path that is led to an instruction stays as it is. -/
theorem storeJump_unmet (h : storeJump dest p m = .ok () m') (hu : m.Unmet dest) :
    m'.graph = m.graph ∧ m'.entryFor? dest = some { p with stop := none } := by
  obtain ⟨f, fs, hm, hx, he⟩ := hu
  unfold storeJump at h
  obtain ⟨f', _, hf, h⟩ := bind_ok.mp h
  obtain ⟨⟨fs', hm'⟩, rfl⟩ := frame_ok.mp hf
  obtain ⟨rfl, rfl⟩ := List.cons.inj (hm.symm.trans hm')
  simp only [hx, he, Bool.false_eq_true, if_false] at h
  obtain ⟨_, _, hp, h⟩ := bind_ok.mp h
  obtain ⟨rfl, rfl⟩ := pure_ok.mp hp
  obtain rfl := modifyFrame_ok.mp h
  exact ⟨rfl, by simp [Machine.entryFor?, hm]⟩

private theorem pasteAll_bound {n : NodeId} {pairs : List (VarId × VarId)}
    (h : (pairs.forM fun (dst, src) => paste dst src n : Analysis Unit) m = .ok () m') :
    m.graph.Bound m'.graph := by
  induction pairs generalizing m with
  | nil =>
    obtain ⟨_, rfl⟩ := pure_ok.mp h
    exact .refl m.graph
  | cons pair pairs ih =>
    obtain ⟨_, m₁, hp, hrest⟩ := bind_ok.mp h
    obtain rfl := paste_ok.mp hp
    exact (Graph.pasteVariable_bound ..).trans (ih hrest)

/-- A path that is led back to an instruction that has been run adds an edge to where the run has
begun. -/
theorem storeJump_executed {f : Frame} {fs : List Frame} {stored : Path}
    (h : storeJump dest p m = .ok () m') (hm : m.frames = f :: fs)
    (hx : f.executed.contains dest = true) (hs : f.entries[dest]? = some stored)
    (hn : stored.node < m.graph.nodes.size)
    (hboth : stored.node ∈ (m.graph.node p.node).outgoing →
      p.node ∈ (m.graph.node stored.node).incoming) :
    p.node ∈ (m'.graph.node stored.node).incoming := by
  unfold storeJump at h
  obtain ⟨f', _, hf, h⟩ := bind_ok.mp h
  obtain ⟨⟨fs', hm'⟩, rfl⟩ := frame_ok.mp hf
  obtain ⟨rfl, rfl⟩ := List.cons.inj (hm.symm.trans hm')
  simp only [hx, hs, if_true] at h
  obtain ⟨_, _, hc, h⟩ := bind_ok.mp h
  obtain ⟨_, rfl⟩ := liftM_ok.mp hc
  obtain ⟨_, _, hgrow, h⟩ := bind_ok.mp h
  obtain ⟨g, hconnect, rfl⟩ := grow_ok.mp hgrow
  have hedge : p.node ∈ (g.node stored.node).incoming := by
    rw [(Graph.connect_ok hconnect).2.2.2]
    split_ifs with hnew
    · exact List.mem_append_right _ (List.mem_singleton_self _)
    · exact hboth (by_contra fun hout => hnew ⟨rfl, hn, hout⟩)
  rwa [(pasteAll_bound h).incoming]

theorem restrict_condition {stack : List VarId} (c : Condition) :
    ({ p with stack } : Path).restrict c = { p.restrict c with stack } := by
  cases c <;> rfl

/-- What a conditional jump does when the path goes on behind it: the side that jumps gets a new
node first, if it is possible, and then the other side does. -/
theorem jumpIf_ok {sense : Bool} {tested : Tested} (h : jumpIf i sense tested p m = .ok q m')
    (hq : q.stop = none) : ∃ dest v, i.target = some dest ∧ p.top = .ok v ∧
    let taken := m.store.sideOf m.graph p.node p.condition v sense
    let other := m.store.sideOf m.graph p.node p.condition v !sense
    let split := (m.store.split m.graph p.node p.condition v).2.2
    ∃ m₁, (taken = .unsatisfiable ∧ m₁ = { m with graph := split } ∨
        taken ≠ .unsatisfiable ∧ ∃ w g, w.node = m.graph.nodes.size ∧
          w.condition = (p.restrict taken).condition ∧ g.nodes.size = w.node + 1 ∧
          storeJump dest w { m with graph := g } = .ok () m₁) ∧
      other ≠ .unsatisfiable ∧ q.node = m₁.graph.nodes.size ∧
        q.condition = (p.restrict other).condition ∧ m'.frames = m₁.frames := by
  unfold jumpIf at h
  obtain ⟨dest, _, htarget, h⟩ := bind_ok.mp h
  obtain ⟨hdest, rfl⟩ := target_ok.mp htarget
  obtain ⟨v, _, htop, h⟩ := bind_ok.mp h
  obtain ⟨hv, rfl⟩ := liftM_ok.mp htop
  obtain ⟨_, _, hget, h⟩ := bind_ok.mp h
  obtain ⟨rfl, rfl⟩ := get_ok.mp hget
  obtain ⟨⟨yes, no⟩, _, hgraph, h⟩ := bind_ok.mp h
  obtain ⟨hsides, rfl⟩ := onGraph_ok.mp hgraph
  obtain ⟨hyes, hno⟩ := Prod.mk.inj hsides
  refine ⟨dest, v, hdest, hv, ?_⟩
  extract_lets taken other split
  have hpair : (if sense = true then (yes, no) else (no, yes)) = (taken, other) := by
    subst hyes hno
    cases sense <;> rfl
  simp -zeta only [hpair] at h
  extract_lets finish goOn lead at h
  have hfinish {r : Path} {m₁ : Machine} (hr : ∃ stack, r = { p with stack })
      (h : finish r m₁ = .ok q m') : other ≠ .unsatisfiable ∧ q.node = m₁.graph.nodes.size ∧
        q.condition = (p.restrict other).condition ∧ m'.frames = m₁.frames := by
    obtain ⟨stack, rfl⟩ := hr
    by_cases ho : other = .unsatisfiable
    · simp only [finish, ho, if_true] at h
      obtain ⟨rfl, rfl⟩ := pure_ok.mp h
      cases hq
    · simp only [finish, ho, if_false] at h
      obtain ⟨g, hf, rfl⟩ := grow_ok.mp h
      obtain ⟨rfl, _⟩ := Graph.forward_ok hf
      exact ⟨ho, rfl, by rw [restrict_condition], rfl⟩
  have hgoOn {m₁ : Machine} (h : goOn () m₁ = .ok q m') : other ≠ .unsatisfiable ∧
      q.node = m₁.graph.nodes.size ∧ q.condition = (p.restrict other).condition ∧
        m'.frames = m₁.frames := by
    by_cases hk : tested = .keep
    · simp only [goOn, hk, if_true] at h
      obtain ⟨_, _, hp, h⟩ := bind_ok.mp h
      obtain ⟨rfl, rfl⟩ := pure_ok.mp hp
      exact hfinish ⟨_, rfl⟩ h
    · simp only [goOn, hk, if_false] at h
      obtain ⟨_, _, hp, h⟩ := bind_ok.mp h
      obtain ⟨hd, rfl⟩ := liftM_ok.mp hp
      exact hfinish (discard_ok hd) h
  have hlead {r : Path} (hr : ∃ stack, r = { p with stack })
      (h : lead r { m with graph := split } = .ok q m') : ∃ m₁,
        (∃ w g, w.node = m.graph.nodes.size ∧ w.condition = (p.restrict taken).condition ∧
          g.nodes.size = w.node + 1 ∧ storeJump dest w { m with graph := g } = .ok () m₁) ∧
        goOn () m₁ = .ok q m' := by
    obtain ⟨stack, rfl⟩ := hr
    obtain ⟨w, _, hw, hled⟩ := bind_ok.mp h
    obtain ⟨g, hf, rfl⟩ := grow_ok.mp hw
    obtain ⟨_, m₁, hjump, hrest⟩ := bind_ok.mp hled
    obtain ⟨rfl, _, hsize⟩ := Graph.forward_ok hf
    have hsplit : split.nodes.size = m.graph.nodes.size := Store.split_bound.size_eq
    exact ⟨m₁, ⟨_, g, hsplit, by rw [restrict_condition], hsize, hjump⟩, hrest⟩
  by_cases ht : taken = .unsatisfiable
  · rw [if_neg (not_not.mpr ht)] at h
    exact ⟨_, .inl ⟨ht, rfl⟩, hgoOn h⟩
  · rw [if_pos ht] at h
    by_cases hd : tested = .drop
    · rw [if_pos hd] at h
      obtain ⟨r, _, hp, h⟩ := bind_ok.mp h
      obtain ⟨hdrop, rfl⟩ := liftM_ok.mp hp
      obtain ⟨m₁, hw, hrest⟩ := hlead (discard_ok hdrop) h
      exact ⟨m₁, .inr ⟨ht, hw⟩, hgoOn hrest⟩
    · rw [if_neg hd] at h
      obtain ⟨r, _, hp, h⟩ := bind_ok.mp h
      obtain ⟨rfl, rfl⟩ := pure_ok.mp hp
      obtain ⟨m₁, hw, hrest⟩ := hlead ⟨_, rfl⟩ h
      exact ⟨m₁, .inr ⟨ht, hw⟩, hgoOn hrest⟩

def jumpsOn? : Op → Option Bool
  | .jumpIfTrue | .popJumpIfTrue | .jumpIfTrueOrPop => some true
  | .jumpIfFalse | .popJumpIfFalse | .jumpIfFalseOrPop => some false
  | _ => none

theorem step_jumpIf {sense : Bool} (h : jumpsOn? i.op = some sense) :
    ∃ tested, ∀ call p, step call i p = jumpIf i sense tested p := by
  unfold jumpsOn? at h
  unfold step
  split at h <;> cases h <;> rename_i hop <;> rw [hop] <;> exact ⟨_, fun _ _ => rfl⟩

/-- Behind a conditional jump both paths stand at new nodes, each at its own. -/
theorem jumpIf_nodes {sense : Bool} {tested : Tested} (h : jumpIf i sense tested p m = .ok q m')
    (hq : q.stop = none) (hdest : i.target = some dest) (hu : m.Unmet dest) :
    m.graph.nodes.size ≤ q.node ∧
      ∀ w, m'.entryFor? dest = some w → m.graph.nodes.size ≤ w.node ∧ w.node < q.node := by
  obtain ⟨dest', v, hd, _, m₁, htaken, _, hnode, _, hframes⟩ := jumpIf_ok h hq
  obtain rfl := Option.some.inj (hdest.symm.trans hd)
  rw [Machine.entryFor?_congr hframes, hnode]
  rcases htaken with ⟨_, rfl⟩ | ⟨_, w, g, hw, _, hsize, hjump⟩
  · refine ⟨Nat.le_of_eq Store.split_bound.size_eq.symm, fun w hw => ?_⟩
    have hnone : m.entryFor? dest = some w := hw
    rw [hu.entryFor?] at hnone
    cases hnone
  · obtain ⟨hgraph, hentry⟩ := storeJump_unmet hjump (hu.congr rfl)
    rw [hgraph, hentry]
    have hnew : g.nodes.size = m.graph.nodes.size + 1 := by rw [hsize, hw]
    refine ⟨by simp [hnew], fun w' he => ?_⟩
    obtain rfl := Option.some.inj he
    simp [hnew, hw]

/-- Both paths go on under the condition of their side. -/
theorem jumpIf_conditions {sense : Bool} {tested : Tested}
    (h : jumpIf i sense tested p m = .ok q m') (hq : q.stop = none) (hdest : i.target = some dest)
    (hu : m.Unmet dest) : ∃ v, p.top = .ok v ∧
      ∀ x side, (x = q ∧ side = !sense ∨ m'.entryFor? dest = some x ∧ side = sense) →
        let c := m.store.sideOf m.graph p.node p.condition v side
        c ≠ .unsatisfiable ∧ x.condition = (p.restrict c).condition := by
  obtain ⟨dest', v, hd, hv, m₁, htaken, hother, _, hcondition, hframes⟩ := jumpIf_ok h hq
  obtain rfl := Option.some.inj (hdest.symm.trans hd)
  refine ⟨v, hv, fun x side hx => ?_⟩
  rcases hx with ⟨rfl, rfl⟩ | ⟨he, rfl⟩
  · exact ⟨hother, hcondition⟩
  · rw [Machine.entryFor?_congr hframes] at he
    rcases htaken with ⟨_, rfl⟩ | ⟨hpossible, w, g, _, hw, _, hjump⟩
    · have hnone : m.entryFor? dest = some x := he
      rw [hu.entryFor?] at hnone
      cases hnone
    · rw [(storeJump_unmet hjump (hu.congr rfl)).2] at he
      obtain rfl := Option.some.inj he
      exact ⟨hpossible, hw⟩

theorem pushException_node (h : pushException p m = .ok q m') : q.node = p.node := by
  unfold pushException at h
  cases he : p.exception with
  | some e =>
    rw [he] at h
    obtain ⟨_, _, _, h⟩ := bind_ok.mp h
    obtain ⟨rfl, _⟩ := pure_ok.mp h
    rfl
  | none =>
    rw [he] at h
    obtain ⟨_, _, _, h⟩ := bind_ok.mp h
    obtain ⟨_, _, _, h⟩ := bind_ok.mp h
    obtain ⟨_, _, _, h⟩ := bind_ok.mp h
    obtain ⟨_, _, _, h⟩ := bind_ok.mp h
    obtain ⟨_, _, _, h⟩ := bind_ok.mp h
    obtain ⟨rfl, _⟩ := pure_ok.mp h
    rfl

/-- What is made up for a path before it is led to an instruction does not lead a path there. -/
private theorem leadWith_ok {α : Type} {x : Analysis α} {lead : α → Path} {enter : Nat → Path}
    (h : (do
      let dest ← target i
      let a ← x
      storeJump dest (lead a)
      return enter dest : Analysis Path) m = .ok q m')
    (hk : KeepsFrames x) (hdest : i.target = some dest) (hu : m.Unmet dest) :
    q = enter dest ∧ ∃ a m₁, x m = .ok a m₁ ∧
      m'.entryFor? dest = some { lead a with stop := none } := by
  obtain ⟨_, _, ht, h⟩ := bind_ok.mp h
  obtain ⟨hd, rfl⟩ := target_ok.mp ht
  obtain rfl := Option.some.inj (hdest.symm.trans hd)
  obtain ⟨a, m₁, ha, hled⟩ := bind_ok.mp h
  obtain ⟨_, m₂, hjump, hend⟩ := bind_ok.mp hled
  obtain ⟨hr, rfl⟩ := pure_ok.mp hend
  exact ⟨hr.symm, a, m₁, ha, (storeJump_unmet hjump (hu.congr (hk.frames_eq ha))).2⟩

/-- A region with a handler or a cleanup is entered where the handler stands as well. -/
theorem setupHandled_nodes (h : setupHandled i p m = .ok q m') (hdest : i.target = some dest)
    (hu : m.Unmet dest) : q.node = p.node ∧ ∃ w, m'.entryFor? dest = some w ∧ w.node = p.node := by
  obtain ⟨rfl, w, _, hw, hentry⟩ := leadWith_ok h (.pushException p) hdest hu
  have hnode : w.node = p.node := pushException_node hw
  exact ⟨rfl, _, hentry, hnode⟩

theorem setupCleanup_nodes (h : setupCleanup i p m = .ok q m') (hdest : i.target = some dest)
    (hu : m.Unmet dest) : q.node = p.node ∧ ∃ w, m'.entryFor? dest = some w ∧ w.node = p.node := by
  obtain ⟨rfl, _, _, _, hentry⟩ := leadWith_ok h (.newNone p.node) hdest hu
  exact ⟨rfl, _, hentry, rfl⟩

/-- A loop over an iterator is left from where its next item is asked for, and goes on where the
call for the item ends. -/
theorem nextItem_nodes {call : Caller} (h : nextItem call i p m = .ok q m')
    (hdest : i.target = some dest) (hu : m.Unmet dest) : ∃ w m₁ obj name item,
      m₁.entryFor? dest = some w ∧ w.node = p.node ∧ w.condition = p.condition ∧
        callMethod call p.node obj name [] m₁ = .ok (q.node, item) m' := by
  unfold nextItem at h
  obtain ⟨_, _, ht, h⟩ := bind_ok.mp h
  obtain ⟨hd, rfl⟩ := target_ok.mp ht
  obtain rfl := Option.some.inj (hdest.symm.trans hd)
  obtain ⟨w, _, hw, h⟩ := bind_ok.mp h
  obtain ⟨hw', rfl⟩ := liftM_ok.mp hw
  obtain ⟨_, m₁, hjump, h⟩ := bind_ok.mp h
  obtain ⟨_, _, hget, h⟩ := bind_ok.mp h
  obtain ⟨rfl, rfl⟩ := get_ok.mp hget
  obtain ⟨obj, _, htop, h⟩ := bind_ok.mp h
  obtain ⟨_, rfl⟩ := liftM_ok.mp htop
  obtain ⟨⟨n, item⟩, _, hcall, h⟩ := bind_ok.mp h
  obtain ⟨rfl, rfl⟩ := pure_ok.mp h
  obtain ⟨_, hentry⟩ := storeJump_unmet hjump hu
  obtain ⟨stack, rfl⟩ := discard_ok hw'
  exact ⟨_, _, obj, _, item, hentry, rfl, rfl, hcall⟩

theorem setupContext_nodes {call : Caller} (h : setupContext call i p m = .ok q m')
    (hdest : i.target = some dest) (hu : m.Unmet dest) : ∃ w m₁ obj name item,
      m₁.entryFor? dest = some w ∧ w.node = p.node ∧ w.condition = p.condition ∧
        callMethod call p.node obj name [] m₁ = .ok (q.node, item) m' := by
  unfold setupContext at h
  obtain ⟨_, _, ht, h⟩ := bind_ok.mp h
  obtain ⟨hd, rfl⟩ := target_ok.mp ht
  obtain rfl := Option.some.inj (hdest.symm.trans hd)
  obtain ⟨⟨context, r⟩, _, hpop, hpopped⟩ := bind_ok.mp h
  obtain ⟨hr, rfl⟩ := liftM_ok.mp hpop
  obtain ⟨out, m₁, hout, hloaded⟩ := bind_ok.mp hpopped
  obtain ⟨v, m₂, hv, hled⟩ := bind_ok.mp hloaded
  obtain ⟨_, m₃, hjump, hentered⟩ := bind_ok.mp hled
  obtain ⟨_, _, hget, hgot⟩ := bind_ok.mp hentered
  obtain ⟨rfl, rfl⟩ := get_ok.mp hget
  obtain ⟨⟨n, item⟩, _, hcall, hend⟩ := bind_ok.mp hgot
  obtain ⟨rfl, rfl⟩ := pure_ok.mp hend
  have hframes : m₂.frames = m.frames :=
    (Spares.frames_eq (.newNone r.node) hv).trans (Spares.frames_eq (.loadAttribute ..) hout)
  obtain ⟨_, hentry⟩ := storeJump_unmet hjump (hu.congr hframes)
  obtain ⟨hnode, hcondition⟩ : r.node = p.node ∧ r.condition = p.condition := by
    unfold Path.pop at hr
    split at hr <;> cases hr
    exact ⟨rfl, rfl⟩
  exact ⟨_, _, context, _, item, hentry, hnode, hcondition, hnode ▸ hcall⟩

end Analysis

end ValueTrace
