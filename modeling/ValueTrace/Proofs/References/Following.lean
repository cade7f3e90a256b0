import ValueTrace.Proofs.References.Extents
import ValueTrace.Proofs.Safety.Points

/-!
# Runs that keep a machine sound

Of two runs, the second one follows the first if on a sound machine both do the same and leave a
sound machine, unless the first one meets a stray point. What is known of an answer may speak of the
extent of the graph at that time, and still holds of every greater extent. A run that follows itself
keeps the machine sound.
-/

namespace ValueTrace

namespace Analysis

variable {α β σ : Type} {e : Extent} {x y : Analysis α} {f g : α → Analysis β}
  {Q : Extent → α → Prop} {R : Extent → β → Prop}

/-- What is left when a run has ended. -/
def Left (e : Extent) (Q : Extent → α → Prop) : EStateM.Result Failure Machine α → Prop
  | .ok a m => m.Sound ∧ e ≤ m.extent ∧ Q m.extent a
  | .error _ _ => True

/-- On sound machines that extend so far, the second run follows the first one. -/
structure Follows (e : Extent) (x y : Analysis α) (Q : Extent → α → Prop) : Prop where
  follows : ∀ m : Machine, m.Sound → e ≤ m.extent →
    (∃ m', x m = .error strayPoint m') ∨ y m = x m ∧ Left m.extent Q (x m)

/-- On sound machines that extend so far, the run leaves a sound machine. -/
abbrev Keeps (e : Extent) (x : Analysis α) (Q : Extent → α → Prop) : Prop := Follows e x x Q

theorem Keeps.of_left (h : ∀ m : Machine, m.Sound → e ≤ m.extent → Left m.extent Q (x m)) :
    Keeps e x Q :=
  ⟨fun m hm he => .inr ⟨rfl, h m hm he⟩⟩

theorem Keeps.leaves {m : Machine} (h : Keeps e x Q) (hm : m.Sound) (he : e ≤ m.extent) :
    Left m.extent Q (x m) := by
  rcases h.follows m hm he with ⟨_, hx⟩ | ⟨-, hx⟩
  · rw [hx]
    trivial
  · exact hx

theorem Left.after {e₀ : Extent} {r : EStateM.Result Failure Machine α} (h : Left e Q r)
    (he : e₀ ≤ e) : Left e₀ Q r := by
  cases r with
  | ok a m => exact ⟨h.1, he.trans h.2.1, h.2.2⟩
  | error failure m => trivial

/-- What is known of the machine in between may be used for the rest of a run. -/
theorem Left.bind {m : Machine} (hx : Left e Q (x m))
    (hf : ∀ a m₁, x m = .ok a m₁ → m₁.Sound → e ≤ m₁.extent → Q m₁.extent a →
      Left e R (f a m₁)) : Left e R ((x >>= f) m) := by
  change Left e R (EStateM.bind x f m)
  unfold EStateM.bind
  cases hr : x m with
  | error failure m₁ => trivial
  | ok a m₁ =>
    rw [hr] at hx
    exact hf a m₁ hr hx.1 hx.2.1 hx.2.2

namespace Follows

/-- What a run that succeeds leaves. -/
theorem left {m m' : Machine} {a : α} (h : Keeps e x Q) (hm : m.Sound) (he : e ≤ m.extent)
    (hx : x m = .ok a m') : m'.Sound ∧ m.extent ≤ m'.extent ∧ Q m'.extent a := by
  rcases h.follows m hm he with ⟨_, hstray⟩ | ⟨-, hleft⟩
  · rw [hx] at hstray
    cases hstray
  · rwa [hx] at hleft

theorem weaken {Q' : Extent → α → Prop} (h : Follows e x y Q)
    (hQ : ∀ {e'}, e ≤ e' → ∀ a, Q e' a → Q' e' a) : Follows e x y Q' := by
  refine ⟨fun m hm he => ?_⟩
  rcases h.follows m hm he with hx | ⟨hxy, hx⟩
  · exact .inl hx
  · refine .inr ⟨hxy, ?_⟩
    cases hr : x m with
    | ok a m' =>
      rw [hr] at hx
      exact ⟨hx.1, hx.2.1, hQ (he.trans hx.2.1) a hx.2.2⟩
    | error _ _ => trivial

theorem pure {a : α} (h : ∀ {e'}, e ≤ e' → Q e' a) : Keeps e (pure a) Q :=
  Keeps.of_left fun _ hm he => ⟨hm, le_rfl, h he⟩

theorem throw (failure : Failure) : Keeps e (throw failure : Analysis α) Q :=
  Keeps.of_left fun _ _ _ => trivial

theorem get : Keeps e get fun e' m => m.Sound ∧ m.extent ≤ e' :=
  Keeps.of_left fun _ hm _ => ⟨hm, le_rfl, hm, le_rfl⟩

theorem bind (hx : Follows e x y Q)
    (hf : ∀ {e'}, e ≤ e' → ∀ a, Q e' a → Follows e' (f a) (g a) R) :
    Follows e (x >>= f) (y >>= g) R := by
  refine ⟨fun m hm he => ?_⟩
  change (∃ m', EStateM.bind x f m = _) ∨ EStateM.bind y g m = EStateM.bind x f m ∧
    Left m.extent R (EStateM.bind x f m)
  unfold EStateM.bind
  rcases hx.follows m hm he with ⟨m', hx⟩ | ⟨hxy, hx⟩
  · rw [hx]
    exact .inl ⟨m', rfl⟩
  · rw [hxy]
    cases hr : x m with
    | error failure m₁ => exact .inr ⟨rfl, trivial⟩
    | ok a m₁ =>
      rw [hr] at hx
      obtain ⟨hm₁, hle, ha⟩ := hx
      refine ((hf (he.trans hle) a ha).follows m₁ hm₁ le_rfl).imp_right fun h => ⟨h.1, ?_⟩
      have hleft := h.2
      dsimp only
      cases hr' : f a m₁ with
      | error failure m₂ => trivial
      | ok b m₂ =>
        rw [hr'] at hleft
        exact ⟨hleft.1, hle.trans hleft.2.1, hleft.2.2⟩

theorem map {h : α → β} (hx : Follows e x y Q) (hQ : ∀ {e'}, e ≤ e' → ∀ a, Q e' a → R e' (h a))
    (hR : ∀ {e e'} {b : β}, e ≤ e' → R e b → R e' b) : Follows e (h <$> x) (h <$> y) R :=
  bind hx fun he a ha => pure fun he' => hR he' (hQ he a ha)

theorem mapM {f g : σ → Analysis β} {l : List σ} (hR : ∀ {e e'} {b : β}, e ≤ e' → R e b → R e' b)
    (h : ∀ a ∈ l, ∀ {e'}, e ≤ e' → Follows e' (f a) (g a) R) :
    Follows e (l.mapM f) (l.mapM g) fun e' bs => ∀ b ∈ bs, R e' b := by
  induction l generalizing e with
  | nil => exact pure fun _ _ hb => by simp at hb
  | cons a l ih =>
    rw [List.mapM_cons, List.mapM_cons]
    refine bind (h a List.mem_cons_self le_rfl) fun he b hb => ?_
    refine bind (ih fun c hc _ he' => h c (List.mem_cons_of_mem _ hc) (he.trans he'))
      fun he' bs hbs =>
      pure fun he'' c hc => ?_
    rcases List.mem_cons.mp hc with rfl | hc
    · exact hR (he'.trans he'') hb
    · exact hR he'' (hbs c hc)

theorem forM {f g : σ → Analysis Unit} {l : List σ}
    (h : ∀ a ∈ l, ∀ {e'}, e ≤ e' → Follows e' (f a) (g a) fun _ _ => True) :
    Follows e (l.forM f) (l.forM g) fun _ _ => True := by
  induction l generalizing e with
  | nil => exact pure fun _ => trivial
  | cons a l ih =>
    exact bind (h a List.mem_cons_self le_rfl) fun he _ _ =>
      ih fun b hb _ he' => h b (List.mem_cons_of_mem _ hb) (he.trans he')

theorem foldlM {f g : β → σ → Analysis β} {l : List σ}
    (h : ∀ b, ∀ a ∈ l, ∀ {e'}, e ≤ e' → Follows e' (f b a) (g b a) fun _ _ => True) (b : β) :
    Follows e (l.foldlM f b) (l.foldlM g b) fun _ _ => True := by
  induction l generalizing b e with
  | nil => exact pure fun _ => trivial
  | cons a l ih =>
    rw [List.foldlM_cons, List.foldlM_cons]
    exact bind (h b a List.mem_cons_self le_rfl) fun he c _ =>
      ih (fun c a ha _ he' => h c a (List.mem_cons_of_mem _ ha) (he.trans he')) c

theorem optionMapM {f g : σ → Analysis β} {o : Option σ}
    (hR : ∀ {e e'} {b : β}, e ≤ e' → R e b → R e' b)
    (h : ∀ a, o = some a → Follows e (f a) (g a) R) :
    Follows e (o.mapM f) (o.mapM g) fun e' o => ∀ b, o = some b → R e' b := by
  cases o with
  | none => exact pure fun _ _ hb => by cases hb
  | some a =>
    refine bind (h a rfl) fun _ b hb => pure fun he c hc => ?_
    cases hc
    exact hR he hb

theorem mapFailure {h : Failure → Failure} (hh : h strayPoint = strayPoint)
    (hx : Follows e x y Q) : Follows e (mapFailure h x) (mapFailure h y) Q := by
  refine ⟨fun m hm he => ?_⟩
  unfold Analysis.mapFailure
  rcases hx.follows m hm he with ⟨m', hx⟩ | ⟨hxy, hx⟩
  · rw [hx]
    exact .inl ⟨m', by simp only [hh]⟩
  · rw [hxy]
    refine .inr ⟨rfl, ?_⟩
    cases hr : x m with
    | ok a m' =>
      rw [hr] at hx
      exact hx
    | error failure m' => trivial

theorem onGraph {h : Graph → α × Graph} (hh : ∀ m : Machine, m.Sound → e ≤ m.extent →
    m.graph.Succeeds (h m.graph).2 ∧ Q { m with graph := (h m.graph).2 }.extent (h m.graph).1) :
    Keeps e (onGraph h) Q := by
  refine Keeps.of_left fun m hm he => ?_
  obtain ⟨hs, hQ⟩ := hh m hm he
  exact ⟨hm.grow hs, Machine.extent_le_withGraph hm.built.wellFormed hs.grows, hQ⟩

theorem lift {z : EStateM Failure Graph α} (hz : ∀ m : Machine, m.Sound → e ≤ m.extent →
    ∀ a g', z m.graph = .ok a g' → m.graph.Succeeds g' ∧ Q { m with graph := g' }.extent a) :
    Keeps e (lift z) Q := by
  refine Keeps.of_left fun m hm he => ?_
  unfold Analysis.lift
  cases hr : z m.graph with
  | ok a g =>
    obtain ⟨hs, hQ⟩ := hz m hm he a g hr
    exact ⟨hm.grow hs, Machine.extent_le_withGraph hm.built.wellFormed hs.grows, hQ⟩
  | error failure g => trivial

theorem grow {z : Graph.Growth α} (hz : ∀ m : Machine, m.Sound → e ≤ m.extent →
    ∀ a g', z m.graph = .ok a g' → m.graph.Succeeds g' ∧ Q { m with graph := g' }.extent a) :
    Keeps e (grow z) Q :=
  lift fun m hm he a g' h => hz m hm he a g' (Graph.Growth.run_ok h)

/-- A new variable is nothing else as yet. -/
theorem newVariable_new (name : String) : Keeps e (newVariable name) (Extent.HasNew e) := by
  refine onGraph fun m hm he =>
    ⟨(Graph.Succeeds.refl hm.built hm.closed).newVariable name, ⟨?_, ?_, ?_, ?_⟩, he.vars⟩
  · simp [Extent.HasVar, Machine.extent, Graph.newVariable]
  · exact fun hv => Nat.lt_irrefl _ (hm.lt_of_literal hv)
  · exact fun x hv => Nat.lt_irrefl _ (hm.store.slots hv)
  · exact fun hv => Nat.lt_irrefl _ (hm.store.params hv)

theorem newOwn (name : String) : Keeps e (newVariable name) Extent.HasOwn :=
  (newVariable_new name).weaken fun _ _ hv => hv.own

theorem newVariable (name : String) : Keeps e (newVariable name) Extent.HasVar :=
  (newOwn name).weaken fun _ _ hv => hv.hasVar

theorem bindVariable {v : VarId} {n : NodeId} {sources : List BindingId} (hv : e.HasVar v)
    (hn : e.HasNode n) (hs : e.HasBindings sources) (hne : sources ≠ []) (d : DataId) :
    Keeps e (Analysis.bind v d sources n) fun _ _ => True := by
  refine onGraph fun m hm he => ⟨?_, trivial⟩
  have hbindings : m.extent.HasBindings sources := hs.mono he
  exact (Graph.Succeeds.refl hm.built hm.closed).addBinding (hv.mono he) (hm.lt_of_hasNode he hn)
    hbindings (fun hnil => absurd hnil hne) d

/-- A variable that is not that of a literal may be bound without sources. -/
theorem bindOwn {v : VarId} {n : NodeId} {sources : List BindingId} (hv : e.HasOwn v)
    (hn : e.HasNode n) (hs : e.HasBindings sources) (d : DataId) :
    Keeps e (Analysis.bind v d sources n) fun _ _ => True := by
  refine Keeps.of_left fun m hm he => ?_
  obtain ⟨hlt, hown, -, -⟩ := hv.mono he
  have hgrows := Graph.Grows.addBinding m.graph v d sources n
  refine ⟨hm.withGraph (hm.built.binding d sources hlt (hm.lt_of_hasNode he hn))
    (hm.closed.addBinding (hs.mono he) v d n) hgrows fun w hw => ?_,
    Machine.extent_le_withGraph hm.built.wellFormed hgrows, trivial⟩
  refine .addBinding hm.built.wellFormed (fun _ => ?_) d n
  rintro rfl
  exact hown hw

theorem paste {dst : VarId} {n : NodeId} (hv : e.HasVar dst) (hn : e.HasNode n) (src : VarId) :
    Keeps e (paste dst src n) fun _ _ => True :=
  onGraph fun _ hm he => ⟨(Graph.Succeeds.refl hm.built hm.closed).pasteVariable (hv.mono he)
    (hm.lt_of_hasNode he hn) src, trivial⟩

theorem visible (v : VarId) (n : NodeId) : Keeps e (visible v n) Extent.HasBindings :=
  bind get fun _ m hm => pure fun he =>
    ((Graph.hasBindings_visible hm.1.built v n).mono m.graph_extent_le).mono (hm.2.trans he)

theorem allBindings (v : VarId) : Keeps e (allBindings v) Extent.HasBindings :=
  bind get fun _ m hm => pure fun he =>
    ((Graph.hasBindings_allBindings hm.1.built v).mono m.graph_extent_le).mono (hm.2.trans he)

theorem dataOf (b : BindingId) : Keeps e (dataOf b) fun _ _ => True :=
  bind get fun _ _ _ => pure fun _ => trivial

theorem dataAt (v : VarId) (n : NodeId) : Keeps e (dataAt v n) fun _ _ => True :=
  bind get fun _ _ _ => pure fun _ => trivial

theorem isBound (v : VarId) : Keeps e (isBound v) fun _ _ => True :=
  bind (allBindings v) fun _ _ _ => pure fun _ => trivial

theorem value (d : DataId) : Keeps e (value d) Extent.HasValue :=
  bind get fun _ _ hm => pure fun he => (hm.1.store.values d).mono (hm.2.trans he)

/-- What is read of a store is there. -/
theorem hasStore {m : Machine} (hm : m.Sound ∧ m.extent ≤ e) : e.HasStore m.store :=
  hm.1.store.mono hm.2

theorem variableWith_new {n : NodeId} {sources : List BindingId} (name : String) (d : DataId)
    (hs : e.HasBindings sources) (hn : e.HasNode n) :
    Keeps e (variableWith name d sources n) (Extent.HasNew e) :=
  bind (newVariable_new name) fun he _ hv =>
    bind (bindOwn hv.own (hn.mono he) (hs.mono he) d) fun he' _ _ => pure fun he'' =>
      hv.mono (he'.trans he'')

theorem variableWith {n : NodeId} {sources : List BindingId} (name : String) (d : DataId)
    (hs : e.HasBindings sources) (hn : e.HasNode n) :
    Keeps e (variableWith name d sources n) Extent.HasVar :=
  (variableWith_new name d hs hn).weaken fun _ _ hv => hv.own.hasVar

/-- A new variable whose binding has no sources. -/
theorem variableHolding {n : NodeId} (name : String) (d : DataId) (hn : e.HasNode n) :
    Keeps e (Analysis.variableWith name d [] n) Extent.HasVar :=
  variableWith name d (Extent.hasBindings_nil e) hn

theorem newUnsolvable {n : NodeId} (hn : e.HasNode n) : Keeps e (newUnsolvable n) Extent.HasVar :=
  variableHolding _ _ hn

theorem copyVisible {n : NodeId} (v : VarId) (hn : e.HasNode n) :
    Keeps e (copyVisible v n) Extent.HasVar := by
  refine bind (visible v n) fun he bs hbs => onGraph fun m hm he' => ?_
  have hnew := (Graph.Succeeds.refl hm.built hm.closed).newVariable (m.graph.var v).name
  have hv : m.graph.vars.size < (m.graph.newVariable (m.graph.var v).name).2.vars.size := by
    simp [Graph.newVariable]
  have hbindings : m.extent.HasBindings bs := hbs.mono he'
  have hpaste := hnew.pasteBindings hv (hm.lt_of_hasNode (he.trans he') hn) hbindings
  have hle := ((Graph.Succeeds.refl hnew.built hnew.closed).pasteBindings hv
    (hm.lt_of_hasNode (he.trans he') hn) hbindings).extent_le
  exact ⟨hpaste, hv.trans_le hle.vars⟩

theorem joinNodes {ns : List NodeId} (hns : ∀ n ∈ ns, e.HasNode n) :
    Keeps e (joinNodes ns) Extent.HasNode := by
  have hmem (n : NodeId) (hn : n ∈ ns.eraseDups) : e.HasNode n := hns n (List.mem_eraseDups.mp hn)
  unfold Analysis.joinNodes
  split
  · exact throw _
  · next n h => exact pure fun he => (hmem n (h ▸ List.mem_singleton_self n)).mono he
  · refine grow fun m hm he join g' h => ?_
    obtain ⟨n, g₁, hnode, h⟩ := bind_ok.mp h
    obtain ⟨_, g₂, hedges, h⟩ := bind_ok.mp h
    obtain ⟨rfl, rfl⟩ := pure_ok.mp h
    obtain ⟨hs, hn⟩ := (Graph.Succeeds.refl hm.built hm.closed).newNode hnode
    have hconnect {l : List NodeId} {g g' : Graph} (hs : m.graph.Succeeds g) (hn : n < g.nodes.size)
        (hl : ∀ k ∈ l, e.HasNode k)
        (h : (l.forM fun k => Graph.connect k n) g = .ok () g') :
        m.graph.Succeeds g' ∧ n < g'.nodes.size := by
      induction l generalizing g with
      | nil =>
        obtain ⟨-, rfl⟩ := pure_ok.mp h
        exact ⟨hs, hn⟩
      | cons k l ih =>
        obtain ⟨_, g₁, hk, h⟩ := bind_ok.mp h
        have hsrc : k < g.nodes.size :=
          (hm.lt_of_hasNode he (hl k List.mem_cons_self)).trans_le hs.extent_le.nodes
        have hle := ((Graph.Succeeds.refl hs.built hs.closed).connect hsrc hn hk).extent_le
        exact ih (hs.connect hsrc hn hk) (hn.trans_le hle.nodes)
          (fun k hk => hl k (List.mem_cons_of_mem _ hk)) h
    obtain ⟨hs, hn⟩ := hconnect hs hn hmem hedges
    exact ⟨hs, .inr hn⟩

theorem onStore {h : Store → α × Store} (hh : ∀ {e'} (s : Store), e ≤ e' → e'.HasStore s →
    e'.HasStore (h s).2) (hp : ∀ s : Store, s.KeepsObjects (h s).2)
    (hg : ∀ s : Store, s.Gains (h s).2 ∅ ∅) : Keeps e (onStore h) fun _ _ => True :=
  Keeps.of_left fun m hm he => ⟨hm.withStore (hh m.store he hm.store) (hp m.store) (hg m.store),
    Machine.extent_le_withStore (hp m.store) (hg m.store), trivial⟩

theorem setStore {h : Store → Store} (hh : ∀ {e'} (s : Store), e ≤ e' → e'.HasStore s →
    e'.HasStore (h s)) (hp : ∀ s : Store, s.KeepsObjects (h s))
    (hg : ∀ s : Store, s.Gains (h s) ∅ ∅) : Keeps e (setStore h) fun _ _ => True :=
  Keeps.of_left fun m hm he => ⟨hm.withStore (hh m.store he hm.store) (hp m.store) (hg m.store),
    Machine.extent_le_withStore (hp m.store) (hg m.store), trivial⟩

/-- A value that is added has no slots as yet. -/
theorem addValue {x : Value} (hx : e.HasValue x) (hbare : x.IsBare) :
    Keeps e (addValue x) fun _ _ => True :=
  onStore (fun _ he hs => hs.add (hx.mono he)) (fun s => .add s x) fun s => .add_bare s hbare

theorem newNamespace : Keeps e (Analysis.onStore (·.newNamespace)) fun _ _ => True :=
  onStore (fun _ _ hs => hs.newNamespace) (fun _ => .of_values rfl) .newNamespace

theorem newUnknown_new {n : NodeId} (hn : e.HasNode n) :
    Keeps e (newUnknown n) (Extent.HasNew e) :=
  bind (addValue (Extent.hasMembers_empty e) (.of_members? (fun _ h => by cases h; rfl) rfl))
    fun he d _ => (variableWith_new _ d (Extent.hasBindings_nil _) (hn.mono he)).weaken
      fun _ _ hv => ⟨hv.own, he.vars.trans hv.new⟩

theorem newUnknown {n : NodeId} (hn : e.HasNode n) : Keeps e (newUnknown n) Extent.HasVar :=
  (newUnknown_new hn).weaken fun _ _ hv => hv.own.hasVar

/-- What has come about since may be taken for slots and type parameters. -/
theorem left_withGains {m₀ m : Machine} (hm : m.Sound) (hle : m₀.extent ≤ m.extent) {s : Store}
    {S : Set (VarId × String)} {P : Set VarId} (hs : m.extent.HasStore s)
    (hp : m.store.KeepsObjects s) (hg : m.store.Gains s S P)
    (hS : ∀ {v x}, (v, x) ∈ S → Extent.HasNew m₀.extent m.extent v)
    (hP : ∀ {v}, v ∈ P → Extent.HasNew m₀.extent m.extent v)
    (hnamed : ∀ {v x y}, (v, x) ∈ S → (v, y) ∈ S → x = y)
    (hparams : ∀ {v x}, (v, x) ∈ S → v ∉ P) :
    Machine.Sound { m with store := s } ∧ m₀.extent ≤ { m with store := s }.extent :=
  ⟨hm.withGains hs hp hg (fun h => (hS h).own) (fun h => (hP h).own) hnamed hparams,
    hle.nodes, hle.vars, hle.bindings, hle.bound, hle.data, hle.literals,
    fun d p h => hp.payload d p (hle.payloads d p h),
    fun d ms h => hp.typeParams d ms (hle.typeParams d ms h),
    fun v x h => (hg.slots h).elim (hle.slots v x) fun h => .inr (hS h).new,
    fun v h => (hg.params h).elim (hle.params v) fun h => .inr (hP h).new, hle.log⟩

/-- A new variable becomes a slot. -/
theorem bindSlot {z : Analysis VarId} {h : VarId → Store → Store} {name : String}
    {k : VarId → Analysis β} (hz : ∀ {e'}, e ≤ e' → Keeps e' z (Extent.HasNew e'))
    (hh : ∀ {e'} (v : VarId) (s : Store), e ≤ e' → e'.HasVar v → e'.HasStore s →
      e'.HasStore (h v s)) (hp : ∀ (v : VarId) (s : Store), s.KeepsObjects (h v s))
    (hg : ∀ (v : VarId) (s : Store), s.Gains (h v s) {(v, name)} ∅)
    (hrest : ∀ {e'}, e ≤ e' → ∀ v, e'.HasVar v → Keeps e' (k v) R) :
    Keeps e (z >>= fun v => Analysis.setStore (h v) >>= fun _ => k v) R := by
  refine Keeps.of_left fun m hm he => ((hz he).leaves hm le_rfl).bind fun v m₁ _ hm₁ hle hv => ?_
  obtain ⟨hm₂, hle₂⟩ := left_withGains hm₁ hle (hh v _ (he.trans hle) hv.own.hasVar hm₁.store)
    (hp v _) (hg v _) (fun h => by cases h; exact hv) nofun
    (fun h h' => by cases h; cases h'; rfl) fun _ => Set.notMem_empty _
  exact Left.bind (Q := fun _ _ => True) ⟨hm₂, hle₂, trivial⟩ fun _ m₂ hset _ _ _ => by
    cases hset
    exact ((hrest (he.trans hle₂) v hv.own.hasVar).leaves hm₂ le_rfl).after hle₂

/-- A name stands for a copy of what is in a variable. -/
theorem bindCopy {n : NodeId} (name : String) (hn : e.HasNode n) (src : VarId) (ns : NamespaceId)
    {k : Analysis β} (hrest : ∀ {e'}, e ≤ e' → Keeps e' k R) :
    Keeps e (do
      let v ← Analysis.newVariable name
      Analysis.paste v src n
      Analysis.setStore (·.define ns name v)
      k) R := by
  have hcopy {e'} (he : e ≤ e') : Keeps e' (do
      let v ← Analysis.newVariable name
      Analysis.paste v src n
      return v) (Extent.HasNew e') :=
    bind (newVariable_new name) fun he₁ v hv => bind (paste hv.own.hasVar
      (hn.mono (he.trans he₁)) src) fun he₂ _ _ => pure fun he₃ => hv.mono (he₂.trans he₃)
  have h := bindSlot hcopy (fun _ _ _ hv hs => hs.define name hv) (fun _ _ => .of_values rfl)
    (fun v s => .define s ns name v) (k := fun _ => k) fun he _ _ => hrest he
  simpa only [bind_assoc, pure_bind] using h

/-- Nothing that matters here is shared except for literals. -/
theorem share {h : Shared → Shared} (hh : ∀ s, (h s).constants = s.constants) :
    Keeps e (share h) fun _ _ => True :=
  Keeps.of_left fun m hm _ =>
    have hshared := hm.withShared (hh m.shared)
    ⟨hshared.1, hshared.2.ge, trivial⟩

theorem frame : Keeps e frame Extent.HasFrame := by
  refine bind get fun _ m hm => ?_
  split
  · next f fs hf => exact pure fun he => (hm.1.frames f (by simp [hf])).mono (hm.2.trans he)
  · exact throw _

theorem modifyFrame {h : Frame → Frame} (hh : ∀ {e'} (f : Frame), e ≤ e' → e'.HasFrame f →
    e'.HasFrame (h f)) : Keeps e (modifyFrame h) fun _ _ => True := by
  refine Keeps.of_left fun m hm he => ⟨hm.withFrames fun f hf => ?_, le_rfl, trivial⟩
  cases hfs : m.frames with
  | nil => simp [hfs] at hf
  | cons k ks =>
    have hframes := hm.frames
    rw [hfs] at hframes
    simp only [hfs, List.modifyHead_cons, List.mem_cons] at hf
    rcases hf with rfl | hf
    · exact hh k he (hframes k List.mem_cons_self)
    · exact hframes f (List.mem_cons_of_mem _ hf)

theorem withFrame {f : Frame} (hf : e.HasFrame f) (hx : Follows e x y Q) :
    Follows e (withFrame f x) (withFrame f y) Q := by
  refine ⟨fun m hm he => ?_⟩
  have hin : Machine.Sound { m with frames := f :: m.frames } :=
    hm.withFrames (List.forall_mem_cons.mpr ⟨hf.mono he, hm.frames⟩)
  unfold Analysis.withFrame
  rcases hx.follows _ hin he with ⟨m', hx⟩ | ⟨hxy, hx⟩
  · rw [hx]
    exact .inl ⟨_, rfl⟩
  · rw [hxy]
    refine .inr ⟨rfl, ?_⟩
    cases hr : x { m with frames := f :: m.frames } with
    | error failure m' => trivial
    | ok a m' =>
      rw [hr] at hx
      exact ⟨hx.1.withFrames fun k hk => hx.1.frames k (List.mem_of_mem_tail hk), hx.2⟩

/-- What is counted does not matter, and what has been reported stays. -/
theorem modify {h : Machine → Machine} (hh : ∀ m : Machine, m.Sound → (h m).Sound ∧
    m.extent ≤ (h m).extent) : Keeps e (modify h) fun _ _ => True :=
  Keeps.of_left fun m hm _ => ⟨(hh m hm).1, (hh m hm).2, trivial⟩

theorem report (kind : FindingKind) (message : String) (details : Option String)
    (vars : List VarId) : Keeps e (report kind message details vars) fun _ _ => True :=
  modify fun _ hm => ⟨hm.withLog (.report ..), Machine.extent_le_withLog (.report ..)⟩

end Follows

end Analysis

namespace Attempt

variable {α β σ : Type} {e : Extent} {x y : Attempt α} {f g : α → Attempt β}
  {Q : Extent → α → Prop} {R : Extent → β → Prop}

def Follows (e : Extent) (x y : Attempt α) (Q : Extent → α → Prop) : Prop :=
  Analysis.Follows e x.run y.run fun e' r => ∀ a, r = .ok a → Q e' a

/-- The attempt leaves a sound machine. -/
abbrev Keeps (e : Extent) (x : Attempt α) (Q : Extent → α → Prop) : Prop := Follows e x x Q

namespace Follows

theorem lift {x y : Analysis α} (h : Analysis.Follows e x y Q)
    (hQ : ∀ {e e'} {a : α}, e ≤ e' → Q e a → Q e' a) :
    Follows e (liftM x) (liftM y) Q := by
  refine Analysis.Follows.bind h fun _ a ha => .pure fun he b hb => ?_
  cases hb
  exact hQ he ha

theorem weaken {Q' : Extent → α → Prop} (h : Follows e x y Q)
    (hQ : ∀ {e'}, e ≤ e' → ∀ a, Q e' a → Q' e' a) : Follows e x y Q' :=
  Analysis.Follows.weaken h fun he _ hr a ha => hQ he a (hr a ha)

theorem pure {a : α} (h : ∀ {e'}, e ≤ e' → Q e' a) : Keeps e (pure a) Q :=
  Analysis.Follows.pure fun he _ hb => Except.ok.inj hb ▸ h he

theorem throw (failure : CallFailure) : Keeps e (throw failure : Attempt α) Q :=
  Analysis.Follows.pure fun _ _ hb => by cases hb

theorem fail (failure : Failure) :
    Keeps e (ExceptT.lift (MonadExcept.throw failure) : Attempt α) Q :=
  Analysis.Keeps.of_left fun _ _ _ => trivial

theorem bind (hx : Follows e x y Q)
    (hf : ∀ {e'}, e ≤ e' → ∀ a, Q e' a → Follows e' (f a) (g a) R) :
    Follows e (x >>= f) (y >>= g) R := by
  refine Analysis.Follows.bind (f := ExceptT.bindCont f) (g := ExceptT.bindCont g) hx
    fun he r hr => ?_
  cases r with
  | ok a => exact hf he a (hr a rfl)
  | error failure => exact Analysis.Follows.pure fun _ _ hb => by cases hb

theorem get : Keeps e get fun e' m => m.Sound ∧ m.extent ≤ e' :=
  lift Analysis.Follows.get fun he h => ⟨h.1, h.2.trans he⟩

theorem ofExcept {r : Except CallFailure α} (h : ∀ a, r = .ok a → ∀ {e'}, e ≤ e' → Q e' a) :
    Keeps e (MonadExcept.ofExcept r) Q := by
  cases r with
  | ok a => exact pure (h a rfl)
  | error failure => exact throw failure

theorem mapM {f g : σ → Attempt β} {l : List σ} (hR : ∀ {e e'} {b : β}, e ≤ e' → R e b → R e' b)
    (h : ∀ a ∈ l, ∀ {e'}, e ≤ e' → Follows e' (f a) (g a) R) :
    Follows e (l.mapM f) (l.mapM g) fun e' bs => ∀ b ∈ bs, R e' b := by
  induction l generalizing e with
  | nil => exact pure fun _ _ hb => by simp at hb
  | cons a l ih =>
    rw [List.mapM_cons, List.mapM_cons]
    refine bind (h a List.mem_cons_self le_rfl) fun he b hb => ?_
    refine bind (ih fun c hc _ he' => h c (List.mem_cons_of_mem _ hc) (he.trans he'))
      fun he' bs hbs =>
      pure fun he'' c hc => ?_
    rcases List.mem_cons.mp hc with rfl | hc
    · exact hR (he'.trans he'') hb
    · exact hR he'' (hbs c hc)

theorem forM {f g : σ → Attempt Unit} {l : List σ}
    (h : ∀ a ∈ l, ∀ {e'}, e ≤ e' → Follows e' (f a) (g a) fun _ _ => True) :
    Follows e (l.forM f) (l.forM g) fun _ _ => True := by
  induction l generalizing e with
  | nil => exact pure fun _ => trivial
  | cons a l ih =>
    exact bind (h a List.mem_cons_self le_rfl) fun he _ _ =>
      ih fun b hb _ he' => h b (List.mem_cons_of_mem _ hb) (he.trans he')

end Follows

end Attempt

end ValueTrace
