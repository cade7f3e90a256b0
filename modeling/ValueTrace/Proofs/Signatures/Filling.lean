import ValueTrace.Proofs.Machine.Attributes
import ValueTrace.Proofs.Machine.Enlarging
import ValueTrace.Proofs.Signatures.TypeVariables

/-!
# What library functions put into their receivers

A library function copies what its type variables match to the type parameters of its receiver that
it mutates. It puts nothing else into an object that was there.
-/

namespace ValueTrace

/-- A view of a call matches a value to a type variable that the function mutates, and the receiver
has a type parameter for it. -/
def Machine.Fills (m : Machine) (f : NativeValue) (args : CallArgs) (view : List BindingId)
    (r : DataId) (p : VarId) (d : DataId) : Prop :=
  ∃ sig σ V, m.fitting? f args view = some (sig, σ) ∧ m.receiver? sig view = some r ∧
    V ∈ f.mutates ∧ m.store.typeParam? r V = some p ∧ d ∈ m.matchedData σ V

variable {e : Extent} {σ : Subst} {V : String} {r d : DataId} {o : Object}
  {m m' m₀ m₁ mv : Machine} {n stop : NodeId} {v w p result : VarId} {b : BindingId}
  {f : NativeValue} {args : CallArgs} {view : List BindingId} {sig : Signature} {fits : Bool}
  {sources : List TypeSource} {source : TypeSource} {before after : List (List BindingId)}

namespace Analysis

/-- A loop of steps that do nothing does nothing. -/
theorem forM_same {α : Type} {l : List α} {x : α → Analysis Unit} (h : ∀ a ∈ l, x a m = .ok () m) :
    l.forM x m = .ok () m := by
  induction l with
  | nil => rfl
  | cons a l ih =>
    obtain ⟨ha, hl⟩ := List.forall_mem_cons.mp h
    exact (bind_eq_of_ok ha).trans (ih hl)

theorem pasteSources_ok (m : Machine) (v : VarId) (n : NodeId) (sources : List TypeSource) :
    ∃ g, sources.forM (pasteSource v n) m = .ok () { m with graph := g } := by
  obtain ⟨g, hrun, -⟩ := forM_graph (m := m) (l := sources) (x := pasteSource v n)
    (I := fun _ => True) trivial fun source _ g _ => by
      cases source <;> exact ⟨_, rfl, trivial⟩
  exact ⟨g, hrun⟩

/-- A mutation changes the graph only. -/
theorem mutate_ok (m : Machine) (n : NodeId) (f : NativeValue) (r : DataId) (σ : Subst) :
    ∃ g, mutate n f r σ m = .ok () { m with graph := g } := by
  have hmutates : ∃ g, mutate n f r σ m = .ok () { m with graph := g } ∧ True := by
    unfold mutate
    apply forM_graph (I := fun _ => True) trivial
    intro name _ g _
    rw [bind_eq_of_ok (get_ok.mpr ⟨rfl, rfl⟩)]
    cases σ[name]? with
    | none => exact ⟨g, rfl, trivial⟩
    | some sources =>
      dsimp only
      cases m.store.typeParam? r name with
      | none => exact ⟨g, rfl, trivial⟩
      | some p =>
        obtain ⟨g', hrun⟩ := pasteSources_ok { m with graph := g } p n sources
        exact ⟨g', hrun, trivial⟩
  exact hmutates.imp fun g h => h.1

/-- Without a match there is no mutation. -/
theorem mutate_nothing (h : ∀ V ∈ f.mutates, ∀ p, m.store.typeParam? r V = some p →
    m.matchedData σ V = []) : mutate n f r σ m = .ok () m := by
  refine forM_same fun V hV => ?_
  rw [bind_eq_of_ok (get_ok.mpr ⟨rfl, rfl⟩)]
  cases hs : σ[V]? with
  | none => rfl
  | some sources =>
    cases hp : m.store.typeParam? r V with
    | none => rfl
    | some p =>
      have hnone := h V hV p hp
      unfold Machine.matchedData at hnone
      rw [Std.TreeMap.getD_eq_getD_getElem?, hs, Option.getD_some, List.flatMap_eq_nil_iff] at hnone
      refine forM_same fun source hsource => ?_
      cases source with
      | binding b => exact absurd (hnone _ hsource) (List.cons_ne_nil _ _)
      | param w =>
        have hunbound : m.graph.allBindings w = [] := List.map_eq_nil_iff.mp (hnone _ hsource)
        change EStateM.Result.ok () { m with graph := m.graph.pasteVariable p w n } = _
        unfold Graph.pasteVariable
        rw [hunbound]
        split <;> rfl

/-- What a type variable matches is put into the type parameter. -/
theorem Follows.mutate_gives {ms : Members} (hn : e.HasNode n) (hσ : e.HasSubst σ)
    (hV : V ∈ f.mutates) (hms : e.typeParams r = some ms) (hp : ms[V]? = some p)
    (hs : σ[V]? = some sources) (hsource : source ∈ sources) (hd : e.Gives d source) :
    Keeps e (Analysis.mutate n f r σ) fun e' _ => (p, d) ∈ e'.data := by
  refine forM_of_mem (P := fun e => (p, d) ∈ e.data) (fun he h => he.data h) hV
    (fun name _ e₁ he₁ => ?_) fun {e₁} he₁ => ?_
  · refine bind getLater fun {e₂} he₂ m hm => ?_
    split
    · next _ _ sources' p' hs' hp' =>
      exact (pasteSources (hσ.mono (he₁.trans he₂)) hs'
        ((hm.1.store.typeParam? hp').mono hm.2.2) (hn.mono (he₁.trans he₂)))
    · exact pure fun _ => trivial
  · refine bind getLater fun {e₂} he₂ m hm => ?_
    obtain ⟨o, ho, rfl⟩ := Option.map_eq_some_iff.mp (hm.2.1.typeParams r ms (he₁.typeParams r ms hms))
    have hparam : m.store.typeParam? r V = some p := Option.bind_eq_some_iff.mpr ⟨o, ho, hp⟩
    rw [hs, hparam]
    have hv : e₂.HasVar p := (hm.1.store.typeParam? hparam).mono hm.2.2
    have hn := hn.mono (he₁.trans he₂)
    have hsrc {e' : Extent} (he' : e₂ ≤ e') (c : TypeSource) (hc : c ∈ sources) (b : BindingId)
        (hb : c = .binding b) : e'.HasBinding b :=
      (hσ V sources hs b (hb ▸ hc)).mono ((he₁.trans he₂).trans he')
    exact forM_of_mem (P := fun e => (p, d) ∈ e.data) (fun he h => he.data h) hsource
      (fun c hc _ he' => pasteSource (hv.mono he') (hn.mono he') (hsrc he' c hc))
      fun he' => pasteSource_gives (hv.mono he') (hn.mono he') (hsrc he' source hsource)
        (hd.mono ((he₁.trans he₂).trans he'))

end Analysis

/-- What type variables match in a view is remembered of its bindings. -/
theorem Machine.fitting_remembers (h : m.fitting? f args view = some (sig, σ))
    (hsource : source ∈ σ.getD V []) : ∃ b ∈ view, Matcher.Remembers
      { library := m.library, graph := m.graph, store := m.store } b source := by
  obtain ⟨sig', -, hsig⟩ := List.exists_of_findSome?_eq_some h
  obtain ⟨τ, hτ, hpair⟩ := Option.map_eq_some_iff.mp hsig
  cases hpair
  refine Matcher.matchSignature_preserves (I := fun σ => ∀ V, ∀ source ∈ σ.getD V [],
    ∃ b ∈ view, Matcher.Remembers _ b source) (fun b hb source hs τ name hτ V c hc => ?_)
    (fun V source hs => by simp at hs) hτ V source hsource
  rw [Subst.getD_add] at hc
  split at hc
  · rcases List.mem_append.mp hc with hc | hc
    · exact hτ V c hc
    · obtain rfl := List.mem_singleton.mp hc
      refine ⟨b, ?_, hs⟩
      rcases List.mem_append.mp hb with hb | hb
      · exact List.mem_of_mem_take hb
      · obtain ⟨entry, hentry, rfl⟩ := List.mem_map.mp hb
        exact List.mem_of_mem_drop (List.of_mem_zip (a := entry.1) (b := entry.2) hentry).2
  · exact hτ V c hc

/-- The receiver is what the first argument is. -/
theorem Machine.head_of_receiver? (h : m.receiver? sig view = some r) :
    ∃ b ∈ view.head?, m.graph.dataOf b = r := by
  unfold receiver? at h
  split at h
  · split at h
    · exact ⟨_, rfl, Option.some.inj h⟩
    · cases h
  · cases h

namespace Analysis

/-- Before a view mutates anything it binds only its result and what is new. -/
structure Looked (m m' : Machine) (result : VarId) : Prop where
  objects : ∀ d o, m.store.get d = .object o → m'.store.get d = .object o
  data : ∀ w < m.graph.vars.size, w ≠ result →
    ∀ d, d ∈ m'.graph.allData w ↔ d ∈ m.graph.allData w
  kept : ∀ b < m.graph.bindings.size, m'.graph.dataOf b = m.graph.dataOf b
  makes : ∀ m₀ : Machine, m₀.graph.Built → Makes m₀ m result → Makes m₀ m' result

theorem Looked.refl (m : Machine) (result : VarId) : Looked m m result :=
  ⟨fun _ _ h => h, fun _ _ _ _ => .rfl, fun _ _ => rfl, fun _ _ h => h⟩

/-- The result of a view is bound to what the signature returns, and nothing else is. -/
theorem bindResult_ok (hb : m.graph.Built) (hn : n < m.graph.nodes.size)
    (hresult : result < m.graph.vars.size) (rs view : List BindingId) :
    ∃ g, (rs.forM fun r => do bind result (← dataOf r) (view ++ [r]) n) m =
      .ok () { m with graph := g } ∧ Looked m { m with graph := g } result := by
  obtain ⟨g, hrun, -, -, hlooked⟩ := forM_graph (m := m) (l := rs)
    (x := fun r => do bind result (← dataOf r) (view ++ [r]) n) (I := fun g => g.Built ∧
      m.graph.Grows g ∧ Looked m { m with graph := g } result)
    ⟨hb, .refl _, .refl m result⟩ fun r _ g hg => by
      obtain ⟨hb, hgrows, hlooked⟩ := hg
      have hv := hresult.trans_le hgrows.vars_le
      have hk := hn.trans_le hgrows.nodes_le
      have hgrows' := hgrows.trans (.addBinding g result (g.dataOf r) (view ++ [r]) n)
      refine ⟨_, rfl, hb.binding _ _ hv hk, hgrows', hlooked.objects, fun w hw hne d => ?_,
        hgrows'.data, fun m₀ h₀ h => (hlooked.makes m₀ h₀ h).addBinding h₀ hk _ _⟩
      rw [Graph.mem_allData_addBinding hb.wellFormed hv]
      exact (or_iff_left fun h => hne h.1).trans (hlooked.data w hw hne d)
  exact ⟨g, hrun, hlooked⟩

/-- A view does nothing, or it fits a signature and may mutate its receiver. -/
theorem callView_cases (hb : m.graph.Built) (hn : n < m.graph.nodes.size)
    (hresult : result < m.graph.vars.size) (hrun : callView n f args result view m = .ok fits m') :
    m.fitting? f args view = none ∧ m' = m ∨ ∃ sig σ m₁, m.fitting? f args view = some (sig, σ) ∧
      Looked m m₁ result ∧ (m.receiver? sig view = none ∧ m' = m₁ ∨
        ∃ r, m.receiver? sig view = some r ∧ mutate n f r σ m₁ = .ok () m') := by
  cases hfit : m.fitting? f args view with
  | none =>
    refine .inl ⟨rfl, ?_⟩
    unfold callView at hrun
    rw [bind_eq_of_ok (get_ok.mpr ⟨rfl, rfl⟩)] at hrun
    unfold Machine.fitting? at hfit
    dsimp only at hrun
    rw [hfit] at hrun
    exact (pure_ok.mp hrun).2.symm
  | some fit =>
    obtain ⟨sig, σ⟩ := fit
    rw [callView_eq hfit] at hrun
    obtain ⟨ret, m₁, hinstantiate, hrun⟩ := bind_ok.mp hrun
    obtain ⟨rs, _, hall, hrun⟩ := bind_ok.mp hrun
    cases hall
    obtain ⟨_, m₂, hbind, hrun⟩ := bind_ok.mp hrun
    have hle := (instantiate_makes sig.result hb hn hinstantiate).enlarges
    obtain ⟨g, hbind', hlooked⟩ := bindResult_ok hle.built (hn.trans_le hle.graph.nodes_le)
      (hresult.trans_le hle.graph.vars_le) (m₁.graph.allBindings ret) view
    obtain ⟨-, rfl⟩ := EStateM.Result.ok.inj (hbind.symm.trans hbind')
    refine .inr ⟨sig, σ, _, rfl, ⟨fun d o ho => hlooked.objects d o (hle.objects d o ho),
      fun w hw hne d => ?_, fun b hb => ?_, fun m₀ h₀ h => hlooked.makes m₀ h₀ (h.later hle)⟩, ?_⟩
    · rw [hlooked.data w (hw.trans_le hle.graph.vars_le) hne d,
        hle.graph.allData_eq hb.wellFormed hw]
    · rw [hlooked.kept b (hb.trans_le hle.graph.bindings_le)]
      exact congrArg Binding.data (hle.graph.kept b hb)
    · cases hr : m.receiver? sig view with
      | none =>
        rw [hr] at hrun
        exact .inl ⟨rfl, (pure_ok.mp hrun).2.symm⟩
      | some r =>
        rw [hr] at hrun
        obtain ⟨_, m₃, hmutate, hrun⟩ := bind_ok.mp hrun
        obtain ⟨-, rfl⟩ := pure_ok.mp hrun
        exact .inr ⟨r, rfl, hmutate⟩

/-- Objects stay as they are. -/
theorem callView_objects (hb : m.graph.Built) (hn : n < m.graph.nodes.size)
    (hresult : result < m.graph.vars.size) (hrun : callView n f args result view m = .ok fits m')
    (ho : m.store.get d = .object o) : m'.store.get d = .object o := by
  rcases callView_cases hb hn hresult hrun with ⟨-, rfl⟩ | ⟨sig, σ, m₁, -, hlooked, hrest⟩
  · exact ho
  · rcases hrest with ⟨-, rfl⟩ | ⟨r, -, hmutate⟩
    · exact hlooked.objects d o ho
    · obtain ⟨g, hmutate'⟩ := mutate_ok m₁ n f r σ
      obtain ⟨-, rfl⟩ := EStateM.Result.ok.inj (hmutate.symm.trans hmutate')
      exact hlooked.objects d o ho

/-- What a view fills a type parameter with is there afterwards. -/
theorem callView_fills (hm : m.Sound) (hn : m.extent.HasNode n) (hview : m.extent.HasBindings view)
    (hresult : m.extent.HasVar result) (hfill : m.Fills f args view r p d)
    (hrun : callView n f args result view m = .ok fits m') : d ∈ m'.graph.allData p := by
  obtain ⟨sig, σ, V, hfit, hr, hV, hp, hd⟩ := hfill
  have hσ := Machine.fitting_hasSubst hfit hview
  obtain ⟨o, ho, hp⟩ := Option.bind_eq_some_iff.mp hp
  have hms : m.extent.typeParams r = some o.typeParams := Option.map_eq_some_iff.mpr ⟨o, ho, rfl⟩
  obtain ⟨source, hsource, hd⟩ := List.mem_flatMap.mp hd
  rw [Std.TreeMap.getD_eq_getD_getElem?] at hsource
  cases hs : σ[V]? with
  | none =>
    rw [hs] at hsource
    cases hsource
  | some sources =>
    rw [hs] at hsource
    have hgives : m.extent.Gives d source := by
      cases source with
      | binding b =>
        obtain rfl := List.mem_singleton.mp hd
        exact ⟨hσ V sources hs b hsource, rfl⟩
      | param w => exact hd
    rw [callView_eq hfit, hr] at hrun
    refine (Follows.left (Q := fun e _ => (p, d) ∈ e.data)
      (.bind (.instantiate hn hσ (some r) sig.result) fun {e₁} he₁ ret _ =>
        .bind (.allBindings ret) fun {e₂} he₂ rs hrs => .bind (.bindResult
          (hn.mono (by grind)) (hresult.mono (by grind)) (hview.mono (by grind)) hrs)
            fun {e₃} he₃ _ _ => .bind (Q := fun e _ => (p, d) ∈ e.data) ?_
              fun he₄ _ hdata => .pure fun he₅ => he₅.data hdata) hm le_rfl hrun).2.2
    have hle : m.extent ≤ e₃ := by grind
    exact .mutate_gives (hn.mono hle) (hσ.mono hle) hV (hle.typeParams r _ hms) hp hs hsource
      (hgives.mono hle)

/-- A view that fills nothing leaves alone what was there. -/
theorem callView_quiet (hm : m.Sound) (hn : n < m.graph.nodes.size)
    (hview : m.extent.HasBindings view) (hown : m.extent.HasOwn result)
    (hreceiver : ∀ sig r, m.receiver? sig view = some r → ∃ o, m.store.get r = .object o)
    (hnone : ∀ r p d, ¬ m.Fills f args view r p d)
    (hrun : callView n f args result view m = .ok fits m') (h₀ : m₀.graph.Built)
    (h : Makes m₀ m result) : Makes m₀ m' result := by
  rcases callView_cases hm.built hn hown.hasVar hrun with
    ⟨-, rfl⟩ | ⟨sig, σ, m₁, hfit, hlooked, hrest⟩
  · exact h
  · have hmakes := hlooked.makes m₀ h₀ h
    rcases hrest with ⟨-, rfl⟩ | ⟨r, hr, hmutate⟩
    · exact hmakes
    · rw [mutate_nothing fun V hV p hp => ?_] at hmutate
      · obtain ⟨-, rfl⟩ := EStateM.Result.ok.inj hmutate
        exact hmakes
      · obtain ⟨o, ho⟩ := hreceiver sig r hr
        have hp₀ : m.store.typeParam? r V = some p := by
          rwa [Store.typeParam?_of_get ho, ← Store.typeParam?_of_get (hlooked.objects r o ho)]
        refine List.eq_nil_iff_forall_not_mem.mpr fun d hd => hnone r p d
          ⟨sig, σ, V, hfit, hr, hV, hp₀, ?_⟩
        obtain ⟨source, hsource, hd⟩ := List.mem_flatMap.mp hd
        refine List.mem_flatMap.mpr ⟨source, hsource, ?_⟩
        cases source with
        | binding b =>
          obtain ⟨b', hb', hremembers⟩ := Machine.fitting_remembers hfit hsource
          cases hremembers
          have hd : d ∈ [m₁.graph.dataOf b] := hd
          rwa [hlooked.kept b (hview b hb')] at hd
        | param w =>
          obtain ⟨b, -, hremembers⟩ := Machine.fitting_remembers hfit hsource
          obtain ⟨o', name, ho', hw⟩ : ∃ o' name, m.store.object? (m.graph.dataOf b) = some o' ∧
              o'.typeParams[name]? = some w := by
            cases hremembers with
            | param ho' hw => exact ⟨_, _, ho', hw⟩
          have hparam : m.store.typeParam? (m.graph.dataOf b) name = some w :=
            Option.bind_eq_some_iff.mpr ⟨o', ho', hw⟩
          have hne : w ≠ result := by
            rintro rfl
            exact hown.param ⟨_, o', name, Store.get_of_object? ho', hw⟩
          exact (hlooked.data w (hm.store.typeParam? hparam) hne d).mp hd

/-- What one of the views of a call fills a type parameter with is there after the call. -/
theorem callLibrary_fills (hm : m.Sound) (hn : n < m.graph.nodes.size)
    (hview : ComesTo n f args m before view after result mv) (hfill : mv.Fills f args view r p d)
    (hcall : (callLibrary n f args).run m = .ok (.ok (stop, v)) m') :
    d ∈ m'.graph.allData p := by
  have hready := hview.ready hm (.inr hn)
  obtain ⟨-, fits, hrest⟩ := hview.rest hcall
  obtain ⟨fit, m₁, hlook, hle, -⟩ := hready.later (.inr hn) hrest
  have hnode : mv.extent.HasNode n := Extent.HasNode.mono (.inr hn) hready.le
  have hdata := callView_fills hready.sound hnode hready.hasView hready.hasResult hfill hlook
  exact hle.data (show (p, d) ∈ m₁.extent.data from hdata)

/-- An object is what it was, but for its members, and its type parameters hold what they held. -/
structure KeepsObject (m m' : Machine) (r : DataId) (o : Object) : Prop where
  object : ∃ o', m'.store.get r = .object o' ∧ o'.payload = o.payload ∧
    o'.typeParams = o.typeParams
  data : ∀ (name : String) (p : VarId), o.typeParams[name]? = some p →
    ∀ d, d ∈ m'.graph.allData p ↔ d ∈ m.graph.allData p

theorem KeepsObject.trans {o₁ : Object} (h : KeepsObject m m₁ r o) (ho : m₁.store.get r = .object o₁)
    (h' : KeepsObject m₁ m' r o₁) : KeepsObject m m' r o := by
  obtain ⟨o₁', ho₁', hpayload, hparams⟩ := h.object
  obtain rfl : o₁ = o₁' := Value.object.inj (ho.symm.trans ho₁')
  obtain ⟨o₂, ho₂, hpayload', hparams'⟩ := h'.object
  refine ⟨⟨o₂, ho₂, hpayload'.trans hpayload, hparams'.trans hparams⟩, fun name p hp d => ?_⟩
  rw [h'.data name p (hparams ▸ hp), h.data name p hp]

/-- What only binds new variables spares every object. -/
theorem KeepsObject.of_enlarges (hm : m.Sound) (ho : m.store.get r = .object o) (hle : m.Enlarges m') :
    KeepsObject m m' r o where
  object := ⟨o, hle.objects r o ho, rfl, rfl⟩
  data name p hp d := by
    have hparam : m.store.typeParam? r name = some p := (Store.typeParam?_of_get ho name).trans hp
    rw [hle.graph.allData_eq hm.built.wellFormed (hm.store.typeParam? hparam)]

/-- A member that is stored spares every object. -/
theorem KeepsObject.setMember (hm : m.Sound) (hn : n < m.graph.nodes.size)
    (ho : m.store.get r = .object o) {u : Unit} {name : String}
    (hrun : Analysis.setMember n d name v m = .ok u m') : KeepsObject m m' r o := by
  obtain ⟨m₁, hrun', -, hcases⟩ := setMember_ok m n d name v
  obtain ⟨-, rfl⟩ := EStateM.Result.ok.inj (hrun.symm.trans hrun')
  have hparam (x : String) (p : VarId) (hp : o.typeParams[x]? = some p) :
      p ∈ m.store.params ∧ p < m.graph.vars.size :=
    have hmem : p ∈ m.store.params := ⟨r, o, x, ho, hp⟩
    ⟨hmem, hm.store.params hmem⟩
  have hw := hm.built.wellFormed
  rcases hcases with ⟨-, rfl⟩ | ⟨members, slot, hmembers, ⟨hslot, rfl⟩ | ⟨-, rfl, rfl⟩⟩
  · exact .of_enlarges hm ho (.refl hm.built)
  · have hmem : (slot, name) ∈ m.store.slots := .inl ⟨d, members, hmembers, hslot⟩
    refine ⟨⟨o, ho, rfl, rfl⟩, fun x p hp a => ?_⟩
    refine (Graph.mem_allData_pasteVariable hw (hm.store.slots hmem) hn).trans
      (or_iff_left fun h => ?_)
    exact hm.apart.params hmem (h.1 ▸ (hparam x p hp).1)
  · refine ⟨?_, fun x p hp a => ?_⟩
    · dsimp only
      rw [Store.get_modify rfl]
      split
      · rw [ho]
        exact ⟨_, rfl, rfl, rfl⟩
      · exact ⟨o, ho, rfl, rfl⟩
    · rw [Graph.mem_allData_pasteVariable (hw.newVariable name) (by simp [Graph.newVariable]) hn,
        Graph.allData_newVariable]
      exact or_iff_left fun h => Nat.ne_of_lt (hparam x p hp).2 h.1

def KeepsObjects {α : Type} (n : NodeId) (x : Analysis α) : Prop := ∀ m a m', m.Sound →
  n < m.graph.nodes.size → x m = .ok a m' → ∀ r o, m.store.get r = .object o → KeepsObject m m' r o

namespace KeepsObjects

variable {α β : Type} {x : Analysis α}

theorem pure (a : α) : KeepsObjects n (pure a : Analysis α) := fun _ _ _ hm _ h _ _ ho => by
  cases h
  exact .of_enlarges hm ho (.refl hm.built)

/-- What is read first does not matter. -/
theorem read {f : α → Analysis β} (hx : ∀ m, ∃ a, x m = .ok a m) (hf : ∀ a, KeepsObjects n (f a)) :
    KeepsObjects n (x >>= f) := by
  intro m b m' hm hn h
  obtain ⟨a, ha⟩ := hx m
  rw [bind_eq_of_ok ha] at h
  exact hf a m b m' hm hn h

theorem map (hx : KeepsObjects n x) (f : α → β) : KeepsObjects n (x >>= fun a => Pure.pure (f a)) := by
  intro m b m' hm hn h
  obtain ⟨a, m₁, ha, hpure⟩ := bind_ok.mp h
  obtain ⟨-, rfl⟩ := pure_ok.mp hpure
  exact hx m a m₁ hm hn ha

theorem copyVisible (w : VarId) : KeepsObjects n (copyVisible w n) := by
  refine read (fun m => ⟨_, rfl⟩) fun bs m v m' hm hn h r o ho => .of_enlarges hm ho ?_
  cases h
  have hnew := (Graph.Widens.refl m.graph).newVariable (m.graph.var w).name
  have hlt : m.graph.vars.size < (m.graph.newVariable (m.graph.var w).name).2.vars.size := by
    simp [Graph.newVariable]
  exact (Machine.Enlarges.refl hm.built).onGraph ((hm.built.var _).pasteBindings hlt hn bs)
    (hnew.pasteBindings hm.built.wellFormed (hm.built.var _) le_rfl hlt hn bs)

/-- Items of dictionaries are stored as members, or copied to a new variable. -/
theorem dictItem (f : NativeValue) (vars : List VarId) : KeepsObjects n (dictItem n f vars) := by
  have hset (d : DataId) (name : String) (v : VarId) : KeepsObjects n (setMember n d name v) :=
    fun m u m' hm hn h r o ho => .setMember hm hn ho h
  unfold Analysis.dictItem
  extract_lets operands
  clear_value operands
  split
  · refine read (fun m => ⟨m, rfl⟩) fun m => ?_
    extract_lets store
    refine read (fun m => ⟨_, rfl⟩) fun data => ?_
    split
    · refine read (fun m => ⟨_, rfl⟩) fun keys => ?_
      split
      · split
        · split
          · split
            · exact map (hset _ _ _) _
            · split
              · refine read (fun m => ⟨_, rfl⟩) fun bs => ?_
                split
                · exact pure _
                · exact map (copyVisible _) _
              · exact pure _
          · exact pure _
        · exact pure _
      · exact pure _
    · exact pure _
  · exact pure _

end KeepsObjects

theorem mapM_cons_ok {α β : Type} {x : α → Analysis β} {a : α} {l : List α} {bs : List β}
    (h : (a :: l).mapM x m = .ok bs m') :
    ∃ b m₁ cs, x a m = .ok b m₁ ∧ l.mapM x m₁ = .ok cs m' ∧ bs = b :: cs := by
  rw [List.mapM_cons] at h
  obtain ⟨b, m₁, ha, h⟩ := bind_ok.mp h
  obtain ⟨cs, m₂, hl, hpure⟩ := bind_ok.mp h
  obtain ⟨rfl, rfl⟩ := pure_ok.mp hpure
  exact ⟨b, m₁, cs, ha, hl, rfl⟩

section

variable {l : List (List BindingId)} {all : List Bool}

/-- All views leave objects as they are. -/
theorem views_objects (hm : m.Sound) (hn : n < m.graph.nodes.size) (hresult : m.extent.HasVar result)
    (hviews : ∀ w ∈ l, m.extent.HasBindings w)
    (hrun : l.mapM (callView n f args result) m = .ok all m') (ho : m.store.get d = .object o) :
    m'.store.get d = .object o := by
  induction l generalizing m all with
  | nil =>
    obtain ⟨-, rfl⟩ := pure_ok.mp hrun
    exact ho
  | cons view l ih =>
    obtain ⟨fits, m₁, rest, hfirst, hrest, -⟩ := mapM_cons_ok hrun
    obtain ⟨hview, hviews⟩ := List.forall_mem_cons.mp hviews
    obtain ⟨hm₁, hle, -⟩ := (Follows.callView (.inr hn) f args hresult hview).left hm le_rfl hfirst
    exact ih hm₁ (hn.trans_le hle.nodes) (hresult.mono hle) (fun w hw => (hviews w hw).mono hle)
      hrest (callView_objects hm.built hn hresult hfirst ho)

/-- If no view fills anything then all of them leave alone what was there. The object is the
receiver in each. -/
theorem views_quiet (hm : m.Sound) (hn : n < m.graph.nodes.size) (hown : m.extent.HasOwn result)
    (hviews : ∀ w ∈ l, m.extent.HasBindings w) (ho : m.store.get r = .object o)
    (hfirst : ∀ w ∈ l, ∀ b ∈ w.head?, m.graph.dataOf b = r)
    (hnone : ∀ before view after fits k, l = before ++ view :: after →
      before.mapM (callView n f args result) m = .ok fits k → ∀ r p d, ¬ k.Fills f args view r p d)
    (hrun : l.mapM (callView n f args result) m = .ok all m') (h₀ : m₀.graph.Built)
    (h : Makes m₀ m result) : Makes m₀ m' result := by
  induction l generalizing m all with
  | nil =>
    obtain ⟨-, rfl⟩ := pure_ok.mp hrun
    exact h
  | cons view l ih =>
    obtain ⟨fits, m₁, rest, hlook, hrest, -⟩ := mapM_cons_ok hrun
    obtain ⟨hview, hviews⟩ := List.forall_mem_cons.mp hviews
    obtain ⟨hreceiver, hfirst⟩ := List.forall_mem_cons.mp hfirst
    obtain ⟨hm₁, hle, -⟩ :=
      (Follows.callView (.inr hn) f args hown.hasVar hview).left hm le_rfl hlook
    have h₁ := callView_quiet hm hn hview hown (fun sig r' hr' => ?_)
      (hnone [] view l [] m rfl rfl) hlook h₀ h
    · refine ih hm₁ (hn.trans_le hle.nodes) (hown.mono hle) (fun w hw => (hviews w hw).mono hle)
        (callView_objects hm.built hn hown.hasVar hlook ho) (fun w hw b hb => ?_)
        (fun before view' after fits' k hl hbefore => ?_) hrest h₁
      · have hbound : (b, r) ∈ m.extent.bound :=
          ⟨hviews w hw b (List.mem_of_head? hb), hfirst w hw b hb⟩
        exact (hle.bound hbound).2
      · refine hnone (view :: before) view' after (fits :: fits') k (by rw [hl]; rfl) ?_
        rw [List.mapM_cons, bind_eq_of_ok hlook, bind_eq_of_ok hbefore]
        rfl
    · obtain ⟨b, hb, rfl⟩ := Machine.head_of_receiver? hr'
      exact ⟨o, hreceiver b hb ▸ ho⟩

end

/-- What holds when a call begins to look at its views. -/
structure Begins (m m₁ m₂ : Machine) (result : VarId) : Prop where
  sound : m₁.Sound
  sound' : m₂.Sound
  le : m.extent ≤ m₂.extent
  own : m₂.extent.HasOwn result
  makes : Makes m₁ m₂ result

theorem Begins.of_ok (hm : m.Sound) (hn : n < m.graph.nodes.size) {vars : List VarId}
    {item : Option VarId} {m₂ : Machine} (hitem : dictItem n f vars m = .ok item m₁)
    (hnew : newVariable "return" m₁ = .ok result m₂) : Begins m m₁ m₂ result := by
  obtain ⟨hm₁, hle₁, -⟩ := (Follows.dictItem (.inr hn) f vars).left hm le_rfl hitem
  obtain ⟨hm₂, hle₂, hown⟩ := (Follows.newOwn "return").left hm₁ le_rfl hnew
  refine ⟨hm₁, hm₂, hle₁.trans hle₂, hown, ?_⟩
  obtain ⟨rfl, rfl⟩ := onGraph_ok.mp hnew
  exact ⟨(Machine.Enlarges.refl hm₁.built).onGraph (hm₁.built.var _)
    ((Graph.Widens.refl _).newVariable _), le_rfl, hown.hasVar⟩

/-- A call leaves an object as it is, but for its members. -/
theorem callLibrary_object (hm : m.Sound) (hn : n < m.graph.nodes.size)
    (ho : m.store.get r = .object o)
    (hcall : (callLibrary n f args).run m = .ok (.ok (stop, result)) m') :
    ∃ o', m'.store.get r = .object o' ∧ o'.payload = o.payload ∧ o'.typeParams = o.typeParams := by
  rcases callLibrary_cases hcall with
    ⟨-, hunsolvable⟩ | hitem | ⟨-, -, m₁, m₂, fits, hitem, hnew, hviews⟩
  · obtain ⟨_, _, hrun, hle, -⟩ :=
      variableWith_enlarges hm.built hn "unsolvable" Machine.unsolvable []
    obtain ⟨-, rfl⟩ := EStateM.Result.ok.inj (hunsolvable.symm.trans hrun)
    exact ⟨o, hle.objects r o ho, rfl, rfl⟩
  · exact (KeepsObjects.dictItem f _ m _ m' hm hn hitem r o ho).object
  · obtain ⟨o₁, ho₁, hkept⟩ := (KeepsObjects.dictItem f _ m _ m₁ hm hn hitem r o ho).object
    have hbegin := Begins.of_ok hm hn hitem hnew
    exact ⟨o₁, views_objects hbegin.sound' (hn.trans_le hbegin.le.nodes) hbegin.own.hasVar
      (fun w hw => (hasBindings_of_mem_views hm hw).mono hbegin.le) hviews
      (hbegin.makes.enlarges.objects r o₁ ho₁), hkept⟩

/-- A call whose first argument is the object only puts something into its type parameters if one of
its views does. -/
theorem callLibrary_quiet (hm : m.Sound) (hn : n < m.graph.nodes.size)
    (ho : m.store.get r = .object o) {self : VarId} {rest : List VarId}
    (hargs : args.positional = self :: rest) (hself : ∀ d ∈ m.graph.visibleData self n, d = r)
    (hnone : ∀ before view after mv p d,
      ComesTo n f args m before view after result mv → ¬ mv.Fills f args view r p d)
    (hcall : (callLibrary n f args).run m = .ok (.ok (stop, result)) m') : KeepsObject m m' r o := by
  rcases callLibrary_cases hcall with
    ⟨-, hunsolvable⟩ | hitem | ⟨hshut, hshown, m₁, m₂, fits, hitem, hnew, hviews⟩
  · obtain ⟨_, _, hrun, hle, -⟩ :=
      variableWith_enlarges hm.built hn "unsolvable" Machine.unsolvable []
    obtain ⟨-, rfl⟩ := EStateM.Result.ok.inj (hunsolvable.symm.trans hrun)
    exact .of_enlarges hm ho hle
  · exact KeepsObjects.dictItem f _ m _ m' hm hn hitem r o ho
  · have hkeeps := KeepsObjects.dictItem f _ m _ m₁ hm hn hitem r o ho
    obtain ⟨o₁, ho₁, hkept⟩ := hkeeps.object
    have hbegin := Begins.of_ok hm hn hitem hnew
    have ho₂ := hbegin.makes.enlarges.objects r o₁ ho₁
    have hhead (w : List BindingId) (hw : w ∈ views m₂.options.maxNativeViews
        ((args.positional ++ args.named.map (·.2)).map (m.graph.visible · n))) (b : BindingId)
        (hb : b ∈ w.head?) : (b, r) ∈ m.extent.bound := by
      refine ⟨hasBindings_of_mem_views hm hw b (List.mem_of_head? hb), hself _ ?_⟩
      rw [hargs] at hw
      cases forall₂_of_mem_views hw with
      | cons hfirst _ =>
        cases hb
        exact List.mem_map_of_mem hfirst
    have hmakes := views_quiet hbegin.sound' (hn.trans_le hbegin.le.nodes) hbegin.own
      (fun w hw => (hasBindings_of_mem_views hm hw).mono hbegin.le) ho₂ (fun w hw b hb => ?_)
      (fun before view after fits k hall hbefore r' p d hfill => ?_) hviews hbegin.sound.built
      hbegin.makes
    · exact hkeeps.trans ho₁ (.of_enlarges hbegin.sound ho₁ hmakes.enlarges)
    · exact (hbegin.le.bound (hhead w hw b hb)).2
    · have hcomes : ComesTo n f args m before view after result k :=
        ⟨hshut, hshown, m₁, m₂, fits, hitem, hnew, hall, hbefore⟩
      obtain ⟨sig, σ, V, hfit, hr', hrest⟩ := id hfill
      obtain ⟨b, hb, rfl⟩ := Machine.head_of_receiver? hr'
      have hbound := (hcomes.ready hm (.inr hn)).le.bound
        (hhead view (hall ▸ List.mem_append_right _ List.mem_cons_self) b hb)
      rw [hbound.2] at hfill
      exact hnone before view after k p d hcomes hfill

end Analysis

end ValueTrace
