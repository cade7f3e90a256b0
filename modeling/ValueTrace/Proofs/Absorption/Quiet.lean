import ValueTrace.Proofs.Absorption.Variables
import ValueTrace.Proofs.References.Values

/-!
# Steps that report nothing

A quiet step leaves alone what could be in the variables that were there, what the analysis has
given up on, and the log. It may be one step of many that began with an earlier machine: what is
new since then may be bound again and again.
-/

namespace ValueTrace

/-- The analysis has given up on what the number stands for. -/
def Store.GivenUp (s : Store) : DataId → Prop
  | .marker => False
  | .value i => s.values[i]? = some .unsolvable

namespace Machine

/-- Something can be in the variable at the node, and the analysis has given up on all of it. -/
structure GivesUp (m : Machine) (n : NodeId) (v : VarId) : Prop where
  some : m.graph.visibleData v n ≠ []
  all : ∀ d ∈ m.graph.visibleData v n, m.store.GivenUp d

/-- A sound machine has taken the place of another one, quietly. -/
structure Widens (m m' : Machine) : Prop where
  sound : m'.Sound
  graph : m.graph.Widens m'.graph
  store : ∀ d, m.store.GivenUp d → m'.store.GivenUp d
  log : m'.log = m.log

/-- A variable that was not there in the beginning is bound to nothing but what the analysis has
given up on. -/
structure Collects (m₀ m : Machine) (v : VarId) : Prop where
  new : m₀.graph.vars.size ≤ v
  bound : v < m.graph.vars.size
  only : m.graph.OnlyBinds v unsolvable

def Free (m : Machine) (n : NodeId) (b : BindingId) : Prop :=
  ∃ v, m.graph.BoundBy n v unsolvable b []

/-- The variable is bound at the node to what the analysis has given up on. What justifies it there
could hold in the beginning, but for what is free. -/
def Backed (m₀ m : Machine) (n : NodeId) (v : VarId) : Prop :=
  ∃ w b c cs, b ∈ m₀.graph.visible w n ∧ (∀ a ∈ cs, m.Free n a) ∧
    m.graph.BoundBy n v unsolvable c (.ofList (cs ++ [b]))

/-- What has been bound at the node to what the analysis has given up on stays so. -/
structure Retains (m₀ : Machine) (n : NodeId) (m m' : Machine) : Prop where
  collects : ∀ v, m₀.Collects m v → m₀.Collects m' v
  boundBy : ∀ v b s, m.graph.BoundBy n v unsolvable b s → m'.graph.BoundBy n v unsolvable b s

end Machine

variable {m m' m'' m₀ : Machine} {n : NodeId} {v w : VarId} {b : BindingId} {d : DataId}

namespace Store.GivenUp

variable {s : Store}

theorem get (h : s.GivenUp d) : s.get d = .unsolvable := by
  cases d with
  | marker => cases h
  | value i =>
    change (s.values[i]?).getD .unsolvable = _
    rw [show s.values[i]? = some .unsolvable from h]
    rfl

theorem add (h : s.GivenUp d) (x : Value) : (s.add x).2.GivenUp d := by
  cases d with
  | marker => cases h
  | value i =>
    obtain ⟨hlt, -⟩ := Array.getElem?_eq_some_iff.mp h
    change (s.values.push x)[i]? = _
    rw [Array.getElem?_push_lt hlt, ← Array.getElem?_eq_getElem hlt]
    exact h

theorem modify (h : s.GivenUp d) (e : DataId) {f : Value → Value}
    (hf : f .unsolvable = .unsolvable) : (s.modify e f).GivenUp d := by
  cases d with
  | marker => cases h
  | value i =>
    cases e with
    | marker => exact h
    | value j =>
      change (s.values.modify j f)[i]? = _
      rw [Array.getElem?_modify, show s.values[i]? = some .unsolvable from h]
      split
      · exact congrArg some hf
      · rfl

end Store.GivenUp

theorem Machine.Sound.givenUp (hm : m.Sound) : m.store.GivenUp Machine.unsolvable := hm.store.first

namespace Machine

namespace Widens

theorem refl (hm : m.Sound) : m.Widens m := ⟨hm, .refl _, fun _ h => h, rfl⟩

theorem trans (h : m.Widens m') (h' : m'.Widens m'') : m.Widens m'' :=
  ⟨h'.sound, h.graph.trans h'.graph, fun d hd => h'.store d (h.store d hd), h'.log.trans h.log⟩

/-- The graph may grow by new variables. -/
theorem onGraph (h : m.Widens m') {g : Graph} (hs : m'.graph.Succeeds g) (hg : m.graph.Widens g) :
    m.Widens { m' with graph := g } :=
  ⟨h.sound.grow hs, hg, h.store, h.log⟩

/-- What could hold before can hold still. -/
theorem canHold (h : m.Widens m') (hm : m.Sound) (hb : b ∈ m.graph.visible v n) :
    m'.graph.CanHold n {b} ∧ b < m'.graph.bindings.size ∧ m'.graph.dataOf b = m.graph.dataOf b := by
  have hw := hm.built.wellFormed
  have hlt : b < m.graph.bindings.size := (hw.listed v b (Graph.mem_of_mem_visible hb)).1
  refine ⟨(h.graph.canHold_iff hw hm.closed (Graph.lt_of_mem_visible hw hb).1 ?_).mpr ?_,
    hlt.trans_le h.graph.bindings_le, ?_⟩
  · rintro a rfl
    exact hlt
  · rw [Graph.visible_eq_filter] at hb
    exact (Graph.isVisible_iff _ _ _).mp (List.mem_filter.mp hb).2
  · unfold Graph.dataOf
    rw [h.graph.kept b hlt]

end Widens

namespace GivesUp

/-- There is a binding that can hold. -/
theorem visible_ne_nil (h : m.GivesUp n v) : m.graph.visible v n ≠ [] :=
  fun hnil => h.some (by rw [Graph.visibleData, hnil, List.map_nil])

theorem lt (h : m.GivesUp n v) (hm : m.Sound) :
    n < m.graph.nodes.size ∧ v < m.graph.vars.size := by
  obtain ⟨b, hb⟩ := List.exists_mem_of_ne_nil _ h.visible_ne_nil
  exact Graph.lt_of_mem_visible hm.built.wellFormed hb

theorem widens (h : m.GivesUp n v) (hm : m.Sound) (hw : m.Widens m') : m'.GivesUp n v := by
  obtain ⟨hn, hv⟩ := h.lt hm
  have heq := hw.graph.visibleData_eq hm.built.wellFormed hm.closed hv hn
  exact ⟨heq ▸ h.some, fun d hd => hw.store d (h.all d (heq ▸ hd))⟩

end GivesUp

namespace Retains

theorem of_widens (hm : m.Sound) (h : m.Widens m') : m₀.Retains n m m' where
  collects _ hv := ⟨hv.new, hv.bound.trans_le h.graph.vars_le, hv.only.widens h.graph hv.bound⟩
  boundBy _ _ _ hv := hv.widens hm.built.wellFormed h.graph

theorem free (h : m₀.Retains n m m') (hb : m.Free n b) : m'.Free n b := by
  obtain ⟨v, hv⟩ := hb
  exact ⟨v, h.boundBy v b [] hv⟩

theorem backed (h : m₀.Retains n m m') (hv : m₀.Backed m n v) : m₀.Backed m' n v := by
  obtain ⟨w, b, c, cs, hb, hcs, hbound⟩ := hv
  exact ⟨w, b, c, cs, hb, fun a ha => h.free (hcs a ha), h.boundBy v c _ hbound⟩

end Retains

/-- What is free holds together with whatever holds. -/
theorem canHold_append (hm : m.Sound) {cs : List BindingId} (hcs : ∀ a ∈ cs, m.Free n a)
    {goals : List BindingId} (h : m.graph.CanHold n {a | a ∈ goals}) :
    m.graph.CanHold n {a | a ∈ cs ++ goals} := by
  induction cs with
  | nil => exact h
  | cons c cs ih =>
    obtain ⟨v, hv⟩ := hcs c List.mem_cons_self
    have hrest := ih fun a ha => hcs a (List.mem_cons_of_mem c ha)
    have hcons : m.graph.CanHold n (insert c {a | a ∈ cs ++ goals}) := by
      refine hv.canHold hm.built.wellFormed (hrest.mono ?_)
      rintro a (ha | ha)
      · exact ha
      · cases ha
    exact hcons.mono fun a ha => List.mem_cons.mp ha

/-- A list with an entry for each binding that can hold is not empty. -/
theorem GivesUp.ne_nil {α : Type} (h : m.GivesUp n v) {l : List α}
    (hl : l.length = (m.graph.visible v n).length) : l ≠ [] :=
  fun hnil => h.visible_ne_nil (List.length_eq_zero_iff.mp (by rw [← hl, hnil, List.length_nil]))

/-- What could hold is the same later. -/
theorem GivesUp.visible_widens (h : m.GivesUp n v) (hm : m.Sound) (hw : m.Widens m') :
    m'.graph.visible v n = m.graph.visible v n :=
  hw.graph.visible_eq hm.built.wellFormed hm.closed (h.lt hm).2 (h.lt hm).1

/-- What the variable holds has been given up on later as well. -/
theorem GivesUp.givenUp_widens (hv : m.GivesUp n v) (hm : m.Sound) (hw : m.Widens m')
    (hb : b ∈ m.graph.visible v n) : m'.store.GivenUp (m'.graph.dataOf b) := by
  rw [(hw.canHold hm hb).2.2]
  exact hw.store _ (hv.all _ (List.mem_map_of_mem hb))

/-- A variable that is bound to what the analysis has given up on gives up, if it holds anything. -/
theorem givesUp_of_boundBy (hm : m.Sound) {s : SourceSet}
    (h : m.graph.BoundBy n v unsolvable b s) (hs : m.graph.CanHold n {a | a ∈ s}) :
    m.GivesUp n v := by
  have heq := h.visibleData_eq hm.built.wellFormed hs
  refine ⟨by simp [heq], fun d hd => ?_⟩
  rw [heq] at hd
  rw [List.mem_singleton.mp hd]
  exact hm.givenUp

theorem Backed.givesUp (h : m₀.Backed m n v) (h₀ : m₀.Sound) (hm : m₀.Widens m) :
    m.GivesUp n v := by
  obtain ⟨w, b, c, cs, hb, hcs, hbound⟩ := h
  have hhold : m.graph.CanHold n {a | a ∈ [b]} := (hm.canHold h₀ hb).1.mono fun a ha =>
    List.mem_singleton.mp ha
  exact givesUp_of_boundBy hm.sound hbound
    ((canHold_append hm.sound hcs hhold).mono fun a ha => SourceSet.mem_ofList.mp ha)

end Machine

namespace Analysis

variable {α β σ : Type} {fails : Prop} {x : Analysis α} {f : α → Analysis β}
  {Q : α → Machine → Prop} {R : β → Machine → Prop}

/-- A step from the second machine on is quiet, seen from the first one. It fails only if it may. -/
def Quiet (fails : Prop) (m₀ m : Machine) (x : Analysis α) (Q : α → Machine → Prop) : Prop :=
  match x m with
  | .ok a m' => m₀.Widens m' ∧ Q a m'
  | .error _ _ => fails

namespace Quiet

theorem of_ok {a : α} (h : x m = .ok a m') (hm : m₀.Widens m') (hQ : Q a m') :
    Quiet fails m₀ m x Q := by
  unfold Quiet
  rw [h]
  exact ⟨hm, hQ⟩

theorem weaken {Q' : α → Machine → Prop} (h : Quiet fails m₀ m x Q)
    (hQ : ∀ a m', m₀.Widens m' → Q a m' → Q' a m') : Quiet fails m₀ m x Q' := by
  unfold Quiet at h ⊢
  cases hr : x m with
  | ok a m' =>
    rw [hr] at h
    exact ⟨h.1, hQ a m' h.1 h.2⟩
  | error _ _ =>
    rw [hr] at h
    exact h

/-- What a step does on its own it also does after others. -/
theorem after (hm : m₀.Widens m) (h : Quiet fails m m x Q) :
    Quiet fails m₀ m x fun a m' => m.Widens m' ∧ Q a m' := by
  unfold Quiet at h ⊢
  cases hr : x m with
  | ok a m' =>
    rw [hr] at h
    exact ⟨hm.trans h.1, h⟩
  | error _ _ =>
    rw [hr] at h
    exact h

/-- A step that keeps machines sound leaves one that extends as far. -/
theorem keeping {K : Extent → α → Prop} (h : Quiet fails m₀ m x Q) (hm : m.Sound)
    (hx : Keeps m.extent x K) :
    Quiet fails m₀ m x fun a m' => Q a m' ∧ m.extent ≤ m'.extent ∧ K m'.extent a := by
  unfold Quiet at h ⊢
  have hleft := hx.leaves hm le_rfl
  cases hr : x m with
  | ok a m' =>
    rw [hr] at h hleft
    exact ⟨h.1, h.2, hleft.2⟩
  | error _ _ =>
    rw [hr] at h
    exact h

theorem pure {a : α} (hm : m₀.Widens m) (h : Q a m) : Quiet fails m₀ m (pure a) Q :=
  of_ok rfl hm h

theorem bind (hx : Quiet fails m₀ m x Q)
    (hf : ∀ a m', m₀.Widens m' → Q a m' → Quiet fails m₀ m' (f a) R) :
    Quiet fails m₀ m (x >>= f) R := by
  unfold Quiet at hx
  cases hr : x m with
  | ok a m' =>
    rw [hr] at hx
    have hrest := hf a m' hx.1 hx.2
    unfold Quiet at hrest ⊢
    rwa [bind_eq_of_ok hr]
  | error e m' =>
    rw [hr] at hx
    unfold Quiet
    change (match EStateM.bind x f m with | .ok _ _ => _ | .error _ _ => fails)
    unfold EStateM.bind
    rw [hr]
    exact hx

/-- A step that only reads. -/
theorem read {a : α} (hx : x m = .ok a m) (h : Quiet fails m₀ m (f a) R) :
    Quiet fails m₀ m (x >>= f) R := by
  unfold Quiet at h ⊢
  rwa [bind_eq_of_ok hx]

private theorem mapM_from {l : List σ} {f : σ → Analysis β} {I : List β → Machine → Prop}
    (done : List β) (hm : m₀.Widens m) (hI : I done m)
    (h : ∀ a ∈ l, ∀ bs m', m₀.Widens m' → I bs m' →
      Quiet fails m₀ m' (f a) fun b m'' => I (bs ++ [b]) m'') :
    Quiet fails m₀ m (l.mapM f) fun bs m' => I (done ++ bs) m' ∧ bs.length = l.length := by
  induction l generalizing m done with
  | nil => exact pure hm ⟨by simpa using hI, rfl⟩
  | cons a l ih =>
    rw [List.mapM_cons]
    refine bind (h a List.mem_cons_self done m hm hI) fun b m₁ hm₁ hb => ?_
    refine bind (ih _ hm₁ hb fun c hc => h c (List.mem_cons_of_mem a hc)) fun bs m₂ hm₂ hbs =>
      pure hm₂ ⟨?_, congrArg Nat.succ hbs.2⟩
    simpa using hbs.1

/-- The invariant speaks of the answers so far, and each step keeps it. -/
theorem mapM {l : List σ} {f : σ → Analysis β} (I : List β → Machine → Prop)
    (hm : m₀.Widens m) (hI : I [] m)
    (h : ∀ a ∈ l, ∀ bs m', m₀.Widens m' → I bs m' →
      Quiet fails m₀ m' (f a) fun b m'' => I (bs ++ [b]) m'') :
    Quiet fails m₀ m (l.mapM f) fun bs m' => I bs m' ∧ bs.length = l.length :=
  mapM_from [] hm hI h

private theorem forM_from {l : List σ} {f : σ → Analysis Unit} {I : List σ → Machine → Prop}
    (done : List σ) (hm : m₀.Widens m) (hI : I done m)
    (h : ∀ a ∈ l, ∀ done m', m₀.Widens m' → I done m' →
      Quiet fails m₀ m' (f a) fun _ m'' => I (done ++ [a]) m'') :
    Quiet fails m₀ m (l.forM f) fun _ m' => I (done ++ l) m' := by
  induction l generalizing m done with
  | nil => exact pure hm (by simpa using hI)
  | cons a l ih =>
    refine bind (h a List.mem_cons_self done m hm hI) fun _ m₁ hm₁ ha => ?_
    refine weaken (ih _ hm₁ ha fun c hc => h c (List.mem_cons_of_mem a hc)) fun _ m₂ _ hl => ?_
    simpa using hl

/-- The invariant speaks of what has been run through, and each step keeps it. -/
theorem forM {l : List σ} {f : σ → Analysis Unit} (I : List σ → Machine → Prop)
    (hm : m₀.Widens m) (hI : I [] m)
    (h : ∀ a ∈ l, ∀ done m', m₀.Widens m' → I done m' →
      Quiet fails m₀ m' (f a) fun _ m'' => I (done ++ [a]) m'') :
    Quiet fails m₀ m (l.forM f) fun _ m' => I l m' :=
  forM_from [] hm hI h

theorem newVariable (hm : m.Sound) (name : String) :
    Quiet fails m m (newVariable name) fun v m' => m.Collects m' v := by
  have hs := (Graph.Succeeds.refl hm.built hm.closed).newVariable name
  refine of_ok rfl ((Machine.Widens.refl hm).onGraph hs ((Graph.Widens.refl _).newVariable name))
    ⟨le_rfl, ?_, .newVariable hm.built.wellFormed name _⟩
  simp

theorem variableWith (hm : m.Sound) (hn : n < m.graph.nodes.size) (name : String) (d : DataId)
    {sources : List BindingId} (hs : ∀ c ∈ sources, c < m.graph.bindings.size) :
    Quiet fails m m (variableWith name d sources n) fun v m' =>
      ∃ b, m'.graph.BoundBy n v d b (.ofList sources) := by
  have hw := hm.built.wellFormed
  have hv : m.graph.vars.size < (m.graph.newVariable name).2.vars.size := by
    simp [Graph.newVariable]
  have hgrown := (Graph.Succeeds.refl hm.built hm.closed).newVariable name
  have hwidens := (Graph.Widens.refl m.graph).newVariable name
  exact of_ok rfl ((Machine.Widens.refl hm).onGraph (hgrown.addBinding hv hn hs (fun _ => le_rfl) d)
    (hwidens.addBinding hw (hw.newVariable name) le_rfl d sources n))
    ((Graph.OnlyBinds.newVariable hw name d).boundBy (hw.newVariable name) hv sources n)

theorem newUnsolvable (hm : m.Sound) (hn : n < m.graph.nodes.size) :
    Quiet fails m m (newUnsolvable n) fun v m' =>
      ∃ b, m'.graph.BoundBy n v Machine.unsolvable b [] :=
  variableWith hm hn _ _ fun c hc => by cases hc

/-- A collecting variable is bound once more. -/
theorem collect (h₀ : m₀.Sound) (hm : m₀.Widens m) (hv : m₀.Collects m v)
    (hb : b ∈ m₀.graph.visible w n) (cs : List BindingId) (hcs : ∀ a ∈ cs, m.Free n a) :
    Quiet fails m₀ m (Analysis.bind v Machine.unsolvable (cs ++ [b]) n) fun _ m' =>
      m₀.Backed m' n v ∧ m₀.Retains n m m' := by
  have hw := hm.sound.built.wellFormed
  have hn : n < m.graph.nodes.size :=
    (Graph.lt_of_mem_visible h₀.built.wellFormed hb).1.trans_le hm.graph.nodes_le
  have hs : m.graph.extent.HasBindings (cs ++ [b]) := by
    refine fun a ha => (List.mem_append.mp ha).elim (fun ha => ?_) fun ha => ?_
    · obtain ⟨u, hu⟩ := hcs a ha
      exact (hw.listed u a hu.listed).1
    · exact List.mem_singleton.mp ha ▸ (hm.canHold h₀ hb).2.1
  have hgrown := (Graph.Succeeds.refl hm.sound.built hm.sound.closed).addBinding hv.bound hn hs
    (fun hnil => by simp at hnil) Machine.unsolvable
  have hretains : m₀.Retains n m { m with
      graph := (m.graph.addBinding v Machine.unsolvable (cs ++ [b]) n).2 } :=
    ⟨fun u hu => ⟨hu.new, hu.bound.trans_le hgrown.extent_le.vars,
      hu.only.addBinding hw hv.bound _ n⟩, fun u c s hu => hu.addBinding hw hv.bound _⟩
  obtain ⟨c, hc⟩ := hv.only.boundBy hw hv.bound (cs ++ [b]) n
  exact of_ok rfl (hm.onGraph hgrown
    (hm.graph.addBinding h₀.built.wellFormed hw hv.new Machine.unsolvable _ n))
    ⟨⟨w, b, c, cs, hb, fun a ha => hretains.free (hcs a ha), hc⟩, hretains⟩

/-- Another store may take the place of the present one if what has been given up stays so. -/
theorem setStore (hm : m.Sound) {h : Store → Store} (hs : m.extent.HasStore (h m.store))
    (hkeeps : m.store.KeepsObjects (h m.store)) (hgains : m.store.Gains (h m.store) ∅ ∅)
    (hgiven : ∀ d, m.store.GivenUp d → (h m.store).GivenUp d) :
    Quiet fails m m (setStore h) fun _ _ => True :=
  of_ok rfl ⟨hm.withStore hs hkeeps hgains, .refl _, hgiven, rfl⟩ trivial

/-- A value may be added with what is new in it. -/
theorem addValue (hm : m₀.Widens m) {x : Value}
    (hsound : Machine.Sound { m with store := (m.store.add x).2 }) :
    Quiet fails m₀ m (addValue x) fun _ _ => True :=
  of_ok rfl (hm.trans ⟨hsound, .refl _, fun _ hd => hd.add x, rfl⟩) trivial

/-- Nothing that matters here is shared except for literals. -/
theorem share (hm : m.Sound) {h : Shared → Shared} (hh : ∀ s, (h s).constants = s.constants) :
    Quiet fails m m (share h) fun _ _ => True :=
  of_ok rfl ⟨(hm.withShared (hh m.shared)).1, .refl _, fun _ hd => hd, rfl⟩ trivial

/-- A class of the library is found quietly, if it is found at all. -/
theorem libraryClassWithin (hm : m.Sound) (fuel : Nat) (name : String) :
    Quiet True m m (libraryClassWithin fuel name) fun _ _ => True := by
  induction fuel generalizing m name with
  | zero => exact trivial
  | succ fuel ih =>
    unfold Analysis.libraryClassWithin
    refine read rfl ?_
    split
    · exact pure (.refl hm) trivial
    · refine read rfl ?_
      split
      · next decl hdecl =>
        have hbare : (Value.ofClass
            { name, template := decl.template, origin := .library }).IsBare :=
          .of_members? (fun _ h => by cases h; rfl) rfl
        refine bind (addValue (.refl hm) (hm.withStore (hm.store.add (Extent.hasMembers_empty _))
          (.add ..) (.add_bare _ hbare))) fun id m₁ hm₁ _ =>
          bind (after hm₁ (share hm₁.sound fun _ => rfl)) fun _ m₂ hm₂ _ =>
            bind (mapM (fun _ _ => True) hm₂ trivial fun base _ _ m₃ hm₃ _ => ?_)
              fun bases m₄ hm₄ _ => read rfl ?_
        · refine bind (after hm₃ (ih hm₃.sound base)) fun d m₅ hm₅ _ =>
            bind (after hm₅ (variableWith hm₅.sound hm₅.sound.root base d ?_)) fun _ m₆ hm₆ _ =>
              pure hm₆ trivial
          exact fun c hc => by cases hc
        · dsimp only
          split
          · refine bind (after hm₄ (setStore hm₄.sound (hm₄.sound.store.modify rfl ?_) ?_
                (.modifyClass _ id fun _ => rfl) ?_)) fun _ m₅ hm₅ _ => pure hm₅ trivial
            · intro x hx
              cases x <;> exact hx
            · exact .modify _ id rfl fun _ => ⟨_, rfl, rfl, rfl⟩
            · exact fun _ hd => hd.modify id rfl
          · exact trivial
      · exact trivial

theorem newObject (hm : m.Sound) (cls : DataId) :
    Quiet fails m m (newObject cls none) fun _ _ => True := by
  refine read rfl (bind (mapM (fun params m' => m.extent ≤ m'.extent ∧
    ∀ entry ∈ params, Extent.HasNew m.extent m'.extent entry.2) (.refl hm)
      ⟨le_rfl, fun entry h => by simp at h⟩ fun name _ params m₁ hm₁ hparams => ?_)
        fun params m₂ hm₂ hparams => addValue hm₂ (Follows.left_withObject hm₂.sound hparams.1.1 cls
          hparams.1.2 fun _ h => by cases h).1)
  refine bind (after hm₁ ((newVariable hm₁.sound name).keeping hm₁.sound (.newVariable_new name)))
    fun v m₂ hm₂ hv => pure hm₂ ⟨hparams.1.trans hv.2.2.1, fun entry hentry => ?_⟩
  rcases List.mem_append.mp hentry with hentry | hentry
  · exact (hparams.2 entry hentry).mono hv.2.2.1
  · obtain rfl := List.mem_singleton.mp hentry
    exact ⟨hv.2.2.2.own, hparams.1.vars.trans hv.2.2.2.new⟩

theorem sharedObject (hm : m.Sound) (cls : DataId) :
    Quiet fails m m (sharedObject cls) fun _ _ => True := by
  unfold Analysis.sharedObject
  refine read rfl ?_
  split
  · exact newObject hm cls
  · refine read rfl ?_
    split
    · exact pure (.refl hm) trivial
    · exact bind (newObject hm cls) fun d m₁ hm₁ _ =>
        bind (after hm₁ (share hm₁.sound fun _ => rfl)) fun _ m₂ hm₂ _ => pure hm₂ trivial

end Quiet

end Analysis

end ValueTrace
