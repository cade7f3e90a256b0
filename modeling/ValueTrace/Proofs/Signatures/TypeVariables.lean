import ValueTrace.Proofs.Machine.Steps
import ValueTrace.Proofs.References.Calls

/-!
# Results that are type variables

A library function whose signature returns a type variable of its receiver returns what the variable
matched. Only a variable that has matched nothing stands for what the receiver holds, so what is
held and has not been passed is missing if something has been.
-/

namespace ValueTrace

/-- A type is the type variable, or a union with such an option. -/
inductive TypeExpr.Offers (V : String) : TypeExpr → Prop
  | var : Offers V (.var V)
  | union {options : List TypeExpr} {t : TypeExpr} :
    t ∈ options → t.Offers V → Offers V (.union options)

/-- The source of a type variable gives a value. -/
def Extent.Gives (e : Extent) (d : DataId) : TypeSource → Prop
  | .binding b => (b, d) ∈ e.bound
  | .param p => (p, d) ∈ e.data

/-- A type variable stands for a value: something that it matched gives it, or it has matched
nothing and the receiver holds it. -/
def Extent.StandsFor (e : Extent) (σ : Subst) (receiver : Option DataId) (V : String)
    (d : DataId) : Prop :=
  match σ[V]? with
  | some sources => ∃ source ∈ sources, e.Gives d source
  | none => ∃ r ms p, receiver = some r ∧ e.typeParams r = some ms ∧ ms[V]? = some p ∧
    (p, d) ∈ e.data

namespace Machine

def sourceData (m : Machine) : TypeSource → List DataId
  | .binding b => [m.graph.dataOf b]
  | .param p => m.graph.allData p

def matchedData (m : Machine) (σ : Subst) (V : String) : List DataId :=
  (σ.getD V []).flatMap m.sourceData

/-- The first signature that a view fits, with what type variables match. -/
def fitting? (m : Machine) (f : NativeValue) (args : CallArgs) (view : List BindingId) :
    Option (Signature × Subst) :=
  f.signatures.findSome? fun sig =>
    (Matcher.matchSignature { library := m.library, graph := m.graph, store := m.store } sig
      (view.take args.positional.length)
      ((args.named.map (·.1)).zip (view.drop args.positional.length))).map (sig, ·)

def receiver? (m : Machine) (sig : Signature) (view : List BindingId) : Option DataId :=
  match sig.params, view with
  | p :: _, b :: _ => if p.name == "self" then some (m.graph.dataOf b) else none
  | _, _ => none

end Machine

variable {e e' : Extent} {σ : Subst} {V : String} {r d : DataId} {receiver : Option DataId}
  {m m' m₁ mv : Machine} {n stop : NodeId} {v p result : VarId} {b : BindingId}
  {t : TypeExpr} {f : NativeValue} {args : CallArgs} {view : List BindingId} {sig : Signature}
  {sources : List TypeSource} {before after : List (List BindingId)}

theorem Store.typeParam?_of_typeParams {s : Store} {ms : Members} (h : s.typeParams? r = some ms)
    (name : String) : s.typeParam? r name = ms[name]? := by
  obtain ⟨o, ho, rfl⟩ := Option.map_eq_some_iff.mp h
  unfold typeParam?
  rw [ho]
  rfl

namespace Extent

theorem Gives.mono {source : TypeSource} (h : e.Gives d source) (he : e ≤ e') :
    e'.Gives d source := by
  cases source with
  | binding b => exact he.bound h
  | param p => exact he.data h

theorem StandsFor.mono (h : e.StandsFor σ receiver V d) (he : e ≤ e') :
    e'.StandsFor σ receiver V d := by
  unfold StandsFor at h ⊢
  cases hs : σ[V]? with
  | some sources =>
    rw [hs] at h
    exact h.imp fun source hsource => ⟨hsource.1, hsource.2.mono he⟩
  | none =>
    rw [hs] at h
    obtain ⟨r, ms, p, hr, hms, hp, hd⟩ := h
    exact ⟨r, ms, p, hr, he.typeParams r ms hms, hp, he.data hd⟩

/-- What a type variable has matched it stands for. -/
theorem standsFor_of_matched (hσ : m.extent.HasSubst σ) (h : d ∈ m.matchedData σ V) :
    m.extent.StandsFor σ receiver V d := by
  obtain ⟨source, hsource, hd⟩ := List.mem_flatMap.mp h
  rw [Std.TreeMap.getD_eq_getD_getElem?] at hsource
  unfold StandsFor
  cases hs : σ[V]? with
  | none =>
    rw [hs] at hsource
    cases hsource
  | some sources =>
    rw [hs] at hsource
    refine ⟨source, hsource, ?_⟩
    cases source with
    | binding b =>
      obtain rfl := List.mem_singleton.mp hd
      exact ⟨hσ V sources hs b hsource, rfl⟩
    | param p => exact hd

/-- A type variable that has matched nothing stands for what the receiver holds. -/
theorem standsFor_of_held (hs : σ[V]? = none) (hp : m.store.typeParam? r V = some p)
    (hd : d ∈ m.graph.allData p) : m.extent.StandsFor σ (some r) V d := by
  obtain ⟨o, ho, hp⟩ := Option.bind_eq_some_iff.mp hp
  unfold StandsFor
  rw [hs]
  exact ⟨r, o.typeParams, p, rfl, Option.map_eq_some_iff.mpr ⟨o, ho, rfl⟩, hp, hd⟩

end Extent

namespace Analysis.Follows

/-- What a run that keeps the machine sound is seen to leave. -/
theorem also {α : Type} {x : Analysis α} {Q R : Extent → α → Prop} (h : Keeps e x Q)
    (hR : ∀ {m m' : Machine} {a : α}, m.Sound → e ≤ m.extent → x m = .ok a m' → R m'.extent a) :
    Keeps e x R := by
  refine Keeps.of_left fun m hm he => ?_
  cases hx : x m with
  | error _ _ => trivial
  | ok a m' =>
    obtain ⟨hm', hle, -⟩ := h.left hm he hx
    exact ⟨hm', hle, hR hm he hx⟩

/-- What is read later is no less. -/
theorem getLater :
    Keeps e MonadState.get fun e' (m : Machine) => m.Sound ∧ e ≤ m.extent ∧ m.extent ≤ e' :=
  Keeps.of_left fun _ hm he => ⟨hm, le_rfl, hm, he, le_rfl⟩

theorem dataOf_bound (h : (b, d) ∈ e.bound) : Keeps e (Analysis.dataOf b) fun _ d' => d' = d :=
  bind getLater fun _ _ hm => pure fun _ => (hm.2.1.bound h).2

theorem allBindings_data (h : (v, d) ∈ e.data) :
    Keeps e (Analysis.allBindings v) fun e' bs =>
      e'.HasBindings bs ∧ ∃ b ∈ bs, (b, d) ∈ e'.bound := by
  refine bind getLater fun _ m hm => pure fun he => ?_
  have hall := (Graph.hasBindings_allBindings hm.1.built v).mono m.graph_extent_le
  obtain ⟨b, hb, hd⟩ := Graph.mem_allData.mp (hm.2.1.data h)
  exact ⟨hall.mono (hm.2.2.trans he), b, hb, (hm.2.2.trans he).bound ⟨hall b hb, hd⟩⟩

theorem bindVariable_data {bs : List BindingId} (hv : e.HasVar v) (hn : e.HasNode n)
    (hbs : e.HasBindings bs) (hne : bs ≠ []) (d : DataId) :
    Keeps e (Analysis.bind v d bs n) fun e' _ => (v, d) ∈ e'.data :=
  (bindVariable hv hn hbs hne d).also fun hm he h => by
    obtain ⟨-, rfl⟩ := onGraph_ok.mp h
    exact (Graph.mem_allData_addBinding hm.built.wellFormed (hv.mono he)).mpr (.inr ⟨rfl, rfl⟩)

theorem paste_data (hv : e.HasVar v) (hn : e.HasNode n) (h : (p, d) ∈ e.data) :
    Keeps e (Analysis.paste v p n) fun e' _ => (v, d) ∈ e'.data :=
  (paste hv hn p).also fun hm he h' => by
    obtain rfl := paste_ok.mp h'
    exact (Graph.mem_allData_pasteVariable hm.built.wellFormed (hv.mono he)
      (hm.lt_of_hasNode he hn)).mpr (.inr ⟨rfl, he.data h⟩)

/-- What one step of a loop brings about holds after the loop. -/
theorem forM_of_mem {σ : Type} {g : σ → Analysis Unit} {l : List σ} {a : σ} {P : Extent → Prop}
    (hP : ∀ {e e'}, e ≤ e' → P e → P e') (ha : a ∈ l)
    (h : ∀ c ∈ l, ∀ {e'}, e ≤ e' → Keeps e' (g c) fun _ _ => True)
    (hga : ∀ {e'}, e ≤ e' → Keeps e' (g a) fun e' _ => P e') :
    Keeps e (l.forM g) fun e' _ => P e' := by
  induction l generalizing e with
  | nil => cases ha
  | cons c l ih =>
    have hrest {e' : Extent} (he : e ≤ e') (c : σ) (hc : c ∈ l) {e'' : Extent} (he' : e' ≤ e'') :=
      h c (List.mem_cons_of_mem _ hc) (he.trans he')
    rcases List.mem_cons.mp ha with rfl | ha
    · exact bind (hga le_rfl) fun he _ hdone => (forM (hrest he)).weaken fun he' _ _ => hP he' hdone
    · exact bind (h c List.mem_cons_self le_rfl) fun he _ _ =>
        ih ha (hrest he) fun he' => hga (he.trans he')

theorem pasteSource_gives {source : TypeSource} (hv : e.HasVar v) (hn : e.HasNode n)
    (hs : ∀ b, source = .binding b → e.HasBinding b) (h : e.Gives d source) :
    Keeps e (Analysis.pasteSource v n source) fun e' _ => (v, d) ∈ e'.data := by
  cases source with
  | binding b =>
    refine bind (dataOf_bound h) fun he d' hd => ?_
    subst hd
    exact bindVariable_data (hv.mono he) (hn.mono he) ((hs b rfl).mono he).single
      (List.cons_ne_nil _ _) _
  | param p => exact paste_data hv hn h

mutual

/-- A type that offers a type variable is made into all that the variable stands for. -/
theorem instantiate_offers {e : Extent} {t : TypeExpr} (hn : e.HasNode n) (hσ : e.HasSubst σ)
    (ht : t.Offers V) (hd : e.StandsFor σ receiver V d) :
    Keeps e (Analysis.instantiate n σ receiver t) fun e' v => (v, d) ∈ e'.data := by
  unfold Analysis.instantiate
  refine bind (newVariable _) fun {e₁} he v hv => ?_
  have hn := hn.mono he
  have hσ := hσ.mono he
  have hd := hd.mono he
  extract_lets finish
  have hfinish {e : Extent} (h : (v, d) ∈ e.data) (u : Unit) :
      Keeps e (finish u) fun e' v => (v, d) ∈ e'.data := pure fun he => he.data h
  cases ht with
  | var =>
    unfold Extent.StandsFor at hd
    dsimp only
    cases hs : σ[V]? with
    | some sources =>
      rw [hs] at hd
      obtain ⟨source, hsource, hgives⟩ := hd
      have hsrc {e' : Extent} (he' : e₁ ≤ e') (c : TypeSource) (hc : c ∈ sources) (b : BindingId)
          (hb : c = .binding b) : e'.HasBinding b := (hσ V sources hs b (hb ▸ hc)).mono he'
      exact bind (forM_of_mem (P := fun e => (v, d) ∈ e.data) (fun he h => he.data h) hsource
        (fun c hc _ he' => pasteSource (hv.mono he') (hn.mono he') (hsrc he' c hc))
        fun he' => pasteSource_gives (hv.mono he') (hn.mono he') (hsrc he' source hsource)
          (hgives.mono he')) fun _ u h => hfinish h u
    | none =>
      rw [hs] at hd
      obtain ⟨r, ms, p, rfl, hms, hp, hdata⟩ := hd
      refine bind getLater fun he m hm => ?_
      obtain ⟨o, ho, rfl⟩ := Option.map_eq_some_iff.mp (hm.2.1.typeParams r ms hms)
      have hparam : m.store.typeParam? r V = some p := Option.bind_eq_some_iff.mpr ⟨o, ho, hp⟩
      rw [hparam]
      exact bind (paste_data (hv.mono he) (hn.mono he) (he.data hdata)) fun _ u h => hfinish h u
  | union hmem ht =>
    exact bind (instantiateOptions_offers hn hσ hv hmem ht hd) fun _ u h => hfinish h u
termination_by sizeOf t

theorem instantiateOptions_offers {e : Extent} {v : VarId} {options : List TypeExpr} {t : TypeExpr}
    (hn : e.HasNode n) (hσ : e.HasSubst σ) (hv : e.HasVar v) (hmem : t ∈ options)
    (ht : t.Offers V) (hd : e.StandsFor σ receiver V d) :
    Keeps e (Analysis.instantiateOptions n σ receiver v options) fun e' _ => (v, d) ∈ e'.data := by
  cases options with
  | nil => cases hmem
  | cons t' options =>
    unfold Analysis.instantiateOptions
    rcases List.mem_cons.mp hmem with rfl | hmem
    · exact bind (instantiate_offers hn hσ ht hd) fun he part hpart =>
        bind (paste_data (hv.mono he) (hn.mono he) hpart) fun he' _ h =>
          (instantiateOptions (hn.mono (he.trans he')) (hσ.mono (he.trans he')) receiver
            (hv.mono (he.trans he')) options).weaken fun he'' _ _ => he''.data h
    · exact bind (instantiate hn hσ receiver t') fun he part _ =>
        bind (paste (hv.mono he) (hn.mono he) part) fun he' _ _ =>
          instantiateOptions_offers (hn.mono (he.trans he')) (hσ.mono (he.trans he'))
            (hv.mono (he.trans he')) hmem ht (hd.mono (he.trans he'))
termination_by sizeOf options

end

end Analysis.Follows

/-- What type variables match in a view are bindings of the view. -/
theorem Machine.fitting_hasSubst (h : m.fitting? f args view = some (sig, σ))
    (hview : e.HasBindings view) : e.HasSubst σ := by
  obtain ⟨sig', -, hsig⟩ := List.exists_of_findSome?_eq_some h
  obtain ⟨τ, hτ, hpair⟩ := Option.map_eq_some_iff.mp hsig
  cases hpair
  exact .matchSignature (fun b hb => hview b (List.mem_of_mem_take hb))
    (fun entry hentry => hview _ (List.mem_of_mem_drop
      (List.of_mem_zip (a := entry.1) (b := entry.2) hentry).2)) hτ

namespace Analysis

/-- What is done in a view that fits a signature. -/
theorem callView_eq (h : m.fitting? f args view = some (sig, σ)) :
    callView n f args result view m = (do
      let ret ← instantiate n σ (m.receiver? sig view) sig.result
      (← allBindings ret).forM fun r => do bind result (← dataOf r) (view ++ [r]) n
      match m.receiver? sig view with
      | some r => mutate n f r σ
      | none => return true
      return true) m := by
  unfold callView
  rw [bind_eq_of_ok (get_ok.mpr ⟨rfl, rfl⟩)]
  unfold Machine.fitting? at h
  dsimp only
  rw [h]
  rfl

/-- A view that fits a signature brings all that an offered type variable stands for to the
result. -/
theorem callView_gives (hm : m.Sound) (hn : m.extent.HasNode n) (hview : m.extent.HasBindings view)
    (hresult : m.extent.HasVar result) (hfit : m.fitting? f args view = some (sig, σ))
    (ht : sig.result.Offers V) (hd : m.extent.StandsFor σ (m.receiver? sig view) V d) {fits : Bool}
    (h : callView n f args result view m = .ok fits m') : d ∈ m'.graph.allData result := by
  have hσ : m.extent.HasSubst σ := Machine.fitting_hasSubst hfit hview
  rw [callView_eq hfit] at h
  refine (Follows.left (Q := fun e _ => (result, d) ∈ e.data)
    (.bind (.instantiate_offers hn hσ ht hd) fun {e₁} he₁ ret hret =>
      .bind (Follows.allBindings_data hret) fun {e₂} he₂ rs hrs =>
        .bind (Q := fun e _ => (result, d) ∈ e.data) ?_ fun {e₃} he₃ _ hdata => ?_)
    hm le_rfl h).2.2
  · obtain ⟨hrs, b, hb, hbound⟩ := hrs
    have hsources {e' : Extent} (he : e₂ ≤ e') {r : BindingId} (hr : r ∈ rs) :
        e'.HasBindings (view ++ [r]) := by
      intro c hc
      rcases List.mem_append.mp hc with hc | hc
      · exact (hview c hc).mono (by grind)
      · exact List.mem_singleton.mp hc ▸ (hrs r hr).mono he
    refine Follows.forM_of_mem (P := fun e => (result, d) ∈ e.data) (fun he h => he.data h) hb
      (fun r hr e' he' => ?_) fun {e'} he' => ?_
    · exact .bind (.dataOf r) fun he d _ => .bindVariable (hresult.mono (by grind))
        (hn.mono (by grind)) (hsources (he'.trans he) hr) (by simp) d
    · refine .bind (Follows.dataOf_bound (he'.bound hbound)) fun he d' hd' => ?_
      subst hd'
      exact .bindVariable_data (hresult.mono (by grind)) (hn.mono (by grind))
        (hsources (he'.trans he) hb) (by simp) _
  · split
    · exact .bind (.mutate (hn.mono (by grind)) f _ (hσ.mono (by grind))) fun he _ _ =>
        .pure fun he' => (he.trans he').data hdata
    · exact .pure fun he' => he'.data hdata

/-- What type variables matched is copied, and nothing else. -/
theorem pasteSources_adds (hm : m.graph.Built) (hv : v < m.graph.vars.size)
    (hn : n < m.graph.nodes.size) (hs : ∀ b, .binding b ∈ sources → b < m.graph.bindings.size)
    {A : VarId → DataId → Prop} (hA : ∀ d ∈ sources.flatMap m.sourceData, A v d)
    (hA' : ∀ w, .param w ∈ sources → ∀ d, A w d → A v d) :
    ∃ g, sources.forM (pasteSource v n) m = .ok () { m with graph := g } ∧ m.graph.Adds g A := by
  refine forM_graph (.refl hm) fun source hsource g hg => ?_
  have hv := hv.trans_le hg.grows.vars_le
  have hn := hn.trans_le hg.grows.nodes_le
  cases source with
  | binding b =>
    refine ⟨_, rfl, hg.addBinding hv hn (hA _ (List.mem_flatMap.mpr ⟨_, hsource, ?_⟩)) [b]⟩
    exact List.mem_singleton.mpr (hg.grows.data b (hs b hsource))
  | param w =>
    refine ⟨_, rfl, hg.pasteVariable hv hn fun d hd => ?_⟩
    rcases hg.only w d hd with hd | hd
    · exact hA d (List.mem_flatMap.mpr ⟨_, hsource, hd⟩)
    · exact hA' w hsource d hd

/-- A new variable for a type variable that has matched something is bound to that only. -/
theorem instantiate_var_adds (receiver : Option DataId) (hm : m.graph.Built)
    (hn : n < m.graph.nodes.size) (hσ : m.extent.HasSubst σ) (hs : σ[V]? = some sources) :
    ∃ g, instantiate n σ receiver (.var V) m = .ok m.graph.vars.size { m with graph := g } ∧
      m.graph.Adds g fun v d => v = m.graph.vars.size ∧ d ∈ m.matchedData σ V := by
  have hmatched : m.matchedData σ V = sources.flatMap m.sourceData := by
    unfold Machine.matchedData
    rw [Std.TreeMap.getD_eq_getD_getElem?, hs]
    rfl
  have hnew := Graph.Adds.newVariable (A := fun v d => v = m.graph.vars.size ∧
    d ∈ m.matchedData σ V) hm (TypeExpr.var V).text
  let m₁ : Machine := { m with graph := (m.graph.newVariable (TypeExpr.var V).text).2 }
  have hdata : m₁.sourceData = m.sourceData := by
    funext source
    cases source with
    | binding b => rfl
    | param p => exact Graph.allData_newVariable ..
  have hv : newVariable (TypeExpr.var V).text m = .ok m.graph.vars.size m₁ := rfl
  obtain ⟨g, hrun, hg⟩ := pasteSources_adds (m := m₁) (v := m.graph.vars.size)
    (A := fun v d => v = m.graph.vars.size ∧ d ∈ m.matchedData σ V) hnew.built
    (by simp [m₁, Graph.newVariable]) hn (hσ V sources hs)
    (fun d hd => ⟨rfl, by rwa [hmatched, ← hdata]⟩) fun w _ d hw => ⟨rfl, hw.2⟩
  refine ⟨g, ?_, hnew.trans hg⟩
  unfold instantiate
  rw [bind_eq_of_ok hv]
  dsimp only
  rw [hs]
  exact bind_eq_of_ok hrun

/-- A function binds the type parameters of its receiver only. -/
theorem mutate_adds (hm : m.graph.Built) (hn : n < m.graph.nodes.size) (hσ : m.extent.HasSubst σ)
    (hr : ∀ name p, m.store.typeParam? r name = some p → m.extent.HasVar p) (f : NativeValue) :
    ∃ g, mutate n f r σ m = .ok () { m with graph := g } ∧
      m.graph.Adds g fun v _ => ∃ name, m.store.typeParam? r name = some v := by
  refine forM_graph (.refl hm) fun name _ g hg => ?_
  rw [bind_eq_of_ok (get_ok.mpr ⟨rfl, rfl⟩)]
  dsimp only
  cases hs : σ[name]? with
  | none => exact ⟨g, rfl, hg⟩
  | some sources =>
    cases hp : m.store.typeParam? r name with
    | none => exact ⟨g, rfl, hg⟩
    | some p =>
      have hparam := hr name p hp
      obtain ⟨g', hrun, hg'⟩ := pasteSources_adds (m := { m with graph := g }) (v := p)
        (A := fun v _ => ∃ name, m.store.typeParam? r name = some v) hg.built
        (hparam.trans_le hg.grows.vars_le) (hn.trans_le hg.grows.nodes_le)
        (fun b hb => (hσ name sources hs b hb).trans_le hg.grows.bindings_le)
        (fun _ _ => ⟨name, hp⟩) fun _ _ _ _ => ⟨name, hp⟩
      exact ⟨g', hrun, hg.trans hg'⟩

/-- If a type variable that has matched something is returned, the result gets that only. -/
theorem callView_only (hm : m.Sound) (hn : n < m.graph.nodes.size)
    (hview : m.extent.HasBindings view) (hresult : m.extent.HasVar result)
    (hfit : m.fitting? f args view = some (sig, σ)) (ht : sig.result = .var V)
    (hs : σ[V]? = some sources)
    (hparams : ∀ r, m.receiver? sig view = some r → ∀ name, m.store.typeParam? r name ≠ some result)
    {fits : Bool} (h : callView n f args result view m = .ok fits m')
    (hd : d ∈ m'.graph.allData result) : d ∈ m.graph.allData result ∨ d ∈ m.matchedData σ V := by
  have hσ : m.extent.HasSubst σ := Machine.fitting_hasSubst hfit hview
  obtain ⟨g₁, hinstantiate, hg₁⟩ := instantiate_var_adds (m.receiver? sig view) hm.built
    hn hσ hs
  have hdata {r : BindingId} (hr : r ∈ g₁.allBindings m.graph.vars.size) {g : Graph}
      (hg : g₁.Grows g) : g.dataOf r ∈ g₁.allData m.graph.vars.size := by
    rw [hg.data r (hg₁.built.wellFormed.listed _ r hr).1]
    exact List.mem_map_of_mem hr
  obtain ⟨g₂, hbind, hg₂⟩ := forM_graph (m := m) (l := g₁.allBindings m.graph.vars.size)
    (x := fun r => do bind result (← dataOf r) (view ++ [r]) n)
    (I := fun g => g₁.Adds g fun v d => v = result ∧ d ∈ g₁.allData m.graph.vars.size)
    (.refl hg₁.built) fun r hr g hg => ⟨_, rfl, hg.addBinding
      (hresult.trans_le (hg₁.grows.trans hg.grows).vars_le)
      (hn.trans_le (hg₁.grows.trans hg.grows).nodes_le) ⟨rfl, hdata hr hg.grows⟩ _⟩
  have hall : allBindings m.graph.vars.size { m with graph := g₁ } =
    .ok (g₁.allBindings m.graph.vars.size) { m with graph := g₁ } := rfl
  have hresult₂ (hd : d ∈ g₂.allData result) :
      d ∈ m.graph.allData result ∨ d ∈ m.matchedData σ V := by
    rcases hg₂.only result d hd with hd | ⟨-, hd⟩
    · exact (hg₁.only result d hd).imp_right (·.2)
    · rcases hg₁.only m.graph.vars.size d hd with hd | hd
      · rw [Graph.allData_eq_nil le_rfl] at hd
        cases hd
      · exact .inr hd.2
  rw [callView_eq hfit, ht, bind_eq_of_ok hinstantiate, bind_eq_of_ok hall,
    bind_eq_of_ok hbind] at h
  cases hr : m.receiver? sig view with
  | none =>
    rw [hr] at h
    obtain ⟨-, rfl⟩ := pure_ok.mp h
    exact hresult₂ hd
  | some r =>
    have hle : m.extent ≤ { m with graph := g₂ }.extent :=
      Machine.extent_le_withGraph hm.built.wellFormed (hg₁.grows.trans hg₂.grows)
    obtain ⟨g₃, hmutate, hg₃⟩ := mutate_adds (m := { m with graph := g₂ }) (r := r) hg₂.built
      (hn.trans_le hle.nodes) (hσ.mono hle) (fun name p hp => (hm.store.typeParam? hp).mono hle) f
    rw [hr] at h
    dsimp only at h
    rw [bind_eq_of_ok hmutate] at h
    obtain ⟨-, rfl⟩ := pure_ok.mp h
    rcases hg₃.only result d hd with hd | ⟨name, hname⟩
    · exact hresult₂ hd
    · exact absurd hname (hparams r hr name)

/-- A call comes to one of its views: all its arguments show something, it does not ask for an item
of a dictionary that is known, and the views before have been looked at. -/
structure ComesTo (n : NodeId) (f : NativeValue) (args : CallArgs) (m : Machine)
    (before : List (List BindingId)) (view : List BindingId) (after : List (List BindingId))
    (result : VarId) (mv : Machine) : Prop where
  shut : args.isOpen = false
  shown : ∀ v ∈ args.positional ++ args.named.map (·.2), m.graph.visible v n ≠ []
  reached : ∃ m₁ m₂ fits,
    dictItem n f (args.positional ++ args.named.map (·.2)) m = .ok none m₁ ∧
    newVariable "return" m₁ = .ok result m₂ ∧
    views m₂.options.maxNativeViews
      ((args.positional ++ args.named.map (·.2)).map (m.graph.visible · n)) =
        before ++ view :: after ∧
    before.mapM (callView n f args result) m₂ = .ok fits mv

theorem mapM_visible (vs : List VarId) (n : NodeId) :
    vs.mapM (visible · n) m = .ok (vs.map (m.graph.visible · n)) m := by
  induction vs with
  | nil => rfl
  | cons v vs ih =>
    have hshown : visible v n m = .ok (m.graph.visible v n) m := rfl
    rw [List.mapM_cons]
    exact (bind_eq_of_ok hshown).trans (bind_eq_of_ok ih)

/-- A call that gives something gives up, or knows the item that it asks for, or looks at all of its
views. -/
theorem callLibrary_cases (hcall : (callLibrary n f args).run m = .ok (.ok (stop, v)) m') :
    (args.isOpen = true ∨ ∃ w ∈ args.positional ++ args.named.map (·.2), m.graph.visible w n = []) ∧
        newUnsolvable n m = .ok v m' ∨
      dictItem n f (args.positional ++ args.named.map (·.2)) m = .ok (some v) m' ∨
      args.isOpen = false ∧
        (∀ w ∈ args.positional ++ args.named.map (·.2), m.graph.visible w n ≠ []) ∧ ∃ m₁ m₂ fits,
          dictItem n f (args.positional ++ args.named.map (·.2)) m = .ok none m₁ ∧
          newVariable "return" m₁ = .ok v m₂ ∧
          (views m₂.options.maxNativeViews
            ((args.positional ++ args.named.map (·.2)).map (m.graph.visible · n))).mapM
              (callView n f args v) m₂ = .ok fits m' := by
  unfold callLibrary at hcall
  split at hcall
  · next hopen =>
    obtain ⟨u, m₁, hunsolvable, hcall⟩ := Attempt.bind_ok.mp hcall
    obtain ⟨hpair, rfl⟩ := Attempt.pure_ok.mp hcall
    cases hpair
    exact .inl ⟨.inl hopen, Attempt.lift_ok.mp hunsolvable⟩
  next hopen =>
  extract_lets vars sig accepted at hcall
  have haccepted : (accepted ()).run m = .ok (.ok (stop, v)) m' := by
    split at hcall
    · obtain ⟨_, _, hthrow, -⟩ := Attempt.bind_ok.mp hcall
      cases hthrow
    · exact hcall
  obtain ⟨choices, _, hchoices, hcall⟩ := Attempt.bind_ok.mp haccepted
  rw [Attempt.mapM_lift_ok, mapM_visible] at hchoices
  obtain ⟨rfl, rfl⟩ := EStateM.Result.ok.inj hchoices
  by_cases hshown : ∀ w ∈ vars, m.graph.visible w n ≠ []
  · rw [if_neg] at hcall
    · obtain ⟨item, m₁, hitem, hcall⟩ := Attempt.bind_ok.mp hcall
      rw [Attempt.lift_ok] at hitem
      cases item with
      | some item =>
        obtain ⟨hpair, rfl⟩ := Attempt.pure_ok.mp hcall
        cases hpair
        exact .inr (.inl hitem)
      | none =>
        obtain ⟨result, m₂, hnew, hcall⟩ := Attempt.bind_ok.mp hcall
        rw [Attempt.lift_ok] at hnew
        obtain ⟨_, _, hget, hcall⟩ := Attempt.bind_ok.mp hcall
        cases hget
        obtain ⟨all, m₃, hall, hcall⟩ := Attempt.bind_ok.mp hcall
        rw [Attempt.mapM_lift_ok] at hall
        split at hcall
        · obtain ⟨hpair, rfl⟩ := Attempt.pure_ok.mp hcall
          cases hpair
          exact .inr (.inr ⟨by simpa using hopen, hshown, m₁, m₂, all, hitem, hnew, hall⟩)
        · obtain ⟨_, _, -, hthrow⟩ := Attempt.bind_ok.mp hcall
          cases hthrow
    · simp only [List.any_eq_true, List.isEmpty_iff]
      rintro ⟨_, hmem, rfl⟩
      obtain ⟨w, hw, hnil⟩ := List.mem_map.mp hmem
      exact hshown w hw hnil
  · push Not at hshown
    obtain ⟨w, hw, hnil⟩ := hshown
    rw [if_pos] at hcall
    · obtain ⟨u, m₁, hunsolvable, hcall⟩ := Attempt.bind_ok.mp hcall
      obtain ⟨hpair, rfl⟩ := Attempt.pure_ok.mp hcall
      cases hpair
      exact .inl ⟨.inr ⟨w, hw, hnil⟩, Attempt.lift_ok.mp hunsolvable⟩
    · simp only [List.any_eq_true, List.isEmpty_iff]
      exact ⟨_, List.mem_map.mpr ⟨w, hw, rfl⟩, hnil⟩

/-- From the view on, a call looks at the rest of its views. -/
theorem ComesTo.rest (h : ComesTo n f args m before view after result mv)
    (hcall : (callLibrary n f args).run m = .ok (.ok (stop, v)) m') :
    v = result ∧ ∃ fits, (view :: after).mapM (callView n f args result) mv = .ok fits m' := by
  obtain ⟨m₁, m₂, fits, hitem, hnew, hviews, hbefore⟩ := h.reached
  rcases callLibrary_cases hcall with
    ⟨hopen | ⟨w, hw, hnil⟩, -⟩ | hitem' | ⟨-, -, _, _, all, hitem', hnew', hall⟩
  · rw [h.shut] at hopen
    cases hopen
  · exact absurd hnil (h.shown w hw)
  · rw [hitem] at hitem'
    cases hitem'
  obtain ⟨-, rfl⟩ := EStateM.Result.ok.inj (hitem.symm.trans hitem')
  obtain ⟨rfl, rfl⟩ := EStateM.Result.ok.inj (hnew.symm.trans hnew')
  rw [hviews, List.mapM_append] at hall
  obtain ⟨_, _, hbefore', hall⟩ := bind_ok.mp hall
  obtain ⟨rfl, rfl⟩ := EStateM.Result.ok.inj (hbefore.symm.trans hbefore')
  obtain ⟨fits', _, hrest, hpure⟩ := bind_ok.mp hall
  obtain ⟨-, rfl⟩ := pure_ok.mp hpure
  exact ⟨rfl, fits', hrest⟩

/-- What a call may rely on when it comes to a view. The variable for the result is new, so it is
not a type parameter of an object that was there. -/
structure Ready (m : Machine) (view : List BindingId) (after : List (List BindingId))
    (result : VarId) (mv : Machine) : Prop where
  sound : mv.Sound
  le : m.extent ≤ mv.extent
  hasResult : mv.extent.HasVar result
  hasView : mv.extent.HasBindings view
  hasAfter : ∀ w ∈ after, mv.extent.HasBindings w
  fresh : ∀ r ms, m.store.typeParams? r = some ms → ∀ name : String, ms[name]? ≠ some result

/-- The bindings of views are there. -/
theorem hasBindings_of_mem_views (hm : m.Sound) {cap : Nat} {vars : List VarId}
    (h : view ∈ views cap (vars.map (m.graph.visible · n))) : m.extent.HasBindings view := by
  intro b hb
  obtain ⟨options, hoptions, hb⟩ := mem_of_mem_views h hb
  obtain ⟨v, -, rfl⟩ := List.mem_map.mp hoptions
  exact ((Graph.hasBindings_visible hm.built v n).mono m.graph_extent_le) b hb

theorem ComesTo.ready (h : ComesTo n f args m before view after result mv) (hm : m.Sound)
    (hn : m.extent.HasNode n) : Ready m view after result mv := by
  obtain ⟨m₁, m₂, fits, hitem, hnew, hviews, hbefore⟩ := h.reached
  have hbindings (w : List BindingId) (hw : w ∈ before ++ view :: after) :
      m.extent.HasBindings w := hasBindings_of_mem_views hm (hviews ▸ hw)
  obtain ⟨hm₁, hle₁, -⟩ := (Follows.dictItem hn f _).left hm le_rfl hitem
  obtain ⟨hm₂, hle₂, hresult⟩ := (Follows.newVariable "return").left hm₁ le_rfl hnew
  have hle := hle₁.trans hle₂
  obtain ⟨hmv, hle₃, -⟩ := (Follows.mapM (R := fun _ _ => True) (fun _ _ => trivial)
    fun w hw e he => .callView (hn.mono (hle.trans he)) f args (hresult.mono he)
      ((hbindings w (List.mem_append_left _ hw)).mono (hle.trans he))).left hm₂ le_rfl hbefore
  refine ⟨hmv, hle.trans hle₃, hresult.mono hle₃, (hbindings view (by simp)).mono (hle.trans hle₃),
    fun w hw => (hbindings w (by simp [hw])).mono (hle.trans hle₃), fun r ms hms name hp => ?_⟩
  obtain ⟨rfl, -⟩ := onGraph_ok.mp hnew
  have hparam : m₁.store.typeParam? r name = some m₁.graph.vars.size :=
    (Store.typeParam?_of_typeParams (hle₁.typeParams r ms hms) name).trans hp
  exact Nat.lt_irrefl _ (hm₁.store.typeParam? hparam)

/-- Before the first view there is nothing in the result. -/
theorem ComesTo.unbound (h : ComesTo n f args m [] view after result mv) :
    mv.graph.allData result = [] := by
  obtain ⟨m₁, m₂, fits, -, hnew, -, hbefore⟩ := h.reached
  obtain ⟨-, rfl⟩ := pure_ok.mp hbefore
  obtain ⟨rfl, rfl⟩ := onGraph_ok.mp hnew
  exact (Graph.allData_newVariable ..).trans (Graph.allData_eq_nil le_rfl)

/-- After the view nothing is lost that it has brought about. -/
theorem Ready.later (h : Ready m view after result mv) (hn : m.extent.HasNode n) {fits : List Bool}
    (hrest : (view :: after).mapM (callView n f args result) mv = .ok fits m') :
    ∃ fits m₁, callView n f args result view mv = .ok fits m₁ ∧ m₁.extent ≤ m'.extent ∧
      (after = [] → m₁ = m') := by
  obtain ⟨b, m₁, hview, hrest⟩ := bind_ok.mp (List.mapM_cons (m := Analysis) ▸ hrest)
  obtain ⟨bs, m₂, hafter, hpure⟩ := bind_ok.mp hrest
  obtain ⟨-, rfl⟩ := pure_ok.mp hpure
  have hn := hn.mono h.le
  obtain ⟨hm₁, hle, -⟩ := (Follows.callView hn f args h.hasResult h.hasView).left h.sound le_rfl
    hview
  obtain ⟨-, hle', -⟩ := (Follows.mapM (R := fun _ _ => True) (fun _ _ => trivial)
    fun w hw e he => .callView (hn.mono (hle.trans he)) f args (h.hasResult.mono (hle.trans he))
      ((h.hasAfter w hw).mono (hle.trans he))).left hm₁ le_rfl hafter
  refine ⟨b, m₁, hview, hle', ?_⟩
  rintro rfl
  obtain ⟨-, rfl⟩ := pure_ok.mp hafter
  rfl

/-- The rest of the views takes nothing from the result. -/
theorem Ready.rest (h : Ready m view after result mv) (hn : m.extent.HasNode n) {fits : List Bool}
    (hrest : (view :: after).mapM (callView n f args result) mv = .ok fits m') :
    ∃ fits m₁, callView n f args result view mv = .ok fits m₁ ∧
      m₁.graph.allData result ⊆ m'.graph.allData result ∧ (after = [] → m₁ = m') := by
  obtain ⟨b, m₁, hview, hle, hlast⟩ := h.later hn hrest
  exact ⟨b, m₁, hview, fun d hd => hle.data (show (result, d) ∈ m₁.extent.data from hd), hlast⟩

end Analysis

/-- A function that returns a type variable of its receiver, alone or as one of several types,
returns all that the variable has matched, and all that the receiver holds if it has matched
nothing. If it returns the variable alone and there is one view, then what the receiver held is
among the result just in that case, or if it has been matched as well. -/
theorem callLibrary_typeVariable (hm : m.Sound) (hn : n < m.graph.nodes.size)
    (hview : Analysis.ComesTo n f args m before view after result mv)
    (hfit : mv.fitting? f args view = some (sig, σ)) (hr : mv.receiver? sig view = some r)
    (hp : m.store.typeParam? r V = some p) (hV : sig.result.Offers V)
    (hcall : (Analysis.callLibrary n f args).run m = .ok (.ok (stop, result)) m') :
    (∀ d ∈ mv.matchedData σ V, d ∈ m'.graph.allData result) ∧
    (σ[V]? = none → ∀ d ∈ m.graph.allData p, d ∈ m'.graph.allData result) ∧
    (sig.result = .var V → before = [] → after = [] →
      ((∀ d ∈ m.graph.allData p, d ∈ m'.graph.allData result) ↔
        σ[V]? = none ∨ ∀ d ∈ m.graph.allData p, d ∈ mv.matchedData σ V)) := by
  have hready := hview.ready hm (.inr hn)
  obtain ⟨-, fits, hrest⟩ := hview.rest hcall
  obtain ⟨fit, m₁, hlook, hkept, hlast⟩ := hready.rest (.inr hn) hrest
  have hnode : mv.extent.HasNode n := Extent.HasNode.mono (.inr hn) hready.le
  have hσ := Machine.fitting_hasSubst hfit hready.hasView
  have hgives {d : DataId} (hd : mv.extent.StandsFor σ (some r) V d) :
      d ∈ m'.graph.allData result :=
    hkept (Analysis.callView_gives hready.sound hnode hready.hasView hready.hasResult hfit hV
      (hr ▸ hd) hlook)
  obtain ⟨o, ho, hparam⟩ := Option.bind_eq_some_iff.mp hp
  have hms : m.store.typeParams? r = some o.typeParams := Option.map_eq_some_iff.mpr ⟨o, ho, rfl⟩
  have htypeParam := Store.typeParam?_of_typeParams (hready.le.typeParams r _ hms)
  have hmatched (d : DataId) (hd : d ∈ mv.matchedData σ V) : d ∈ m'.graph.allData result :=
    hgives (Extent.standsFor_of_matched hσ hd)
  have hheld (hs : σ[V]? = none) (d : DataId) (hd : d ∈ m.graph.allData p) :
      d ∈ m'.graph.allData result :=
    hgives (Extent.standsFor_of_held hs ((htypeParam V).trans hparam)
      (hready.le.data (show (p, d) ∈ m.extent.data from hd)))
  refine ⟨hmatched, hheld, fun ht hbefore hafter => ⟨fun hall => ?_, ?_⟩⟩
  · cases hs : σ[V]? with
    | none => exact .inl rfl
    | some sources =>
      refine .inr fun d hd => ?_
      have hresult := hall d hd
      rw [← hlast hafter] at hresult
      refine (Analysis.callView_only hready.sound (hready.sound.lt_of_hasNode le_rfl hnode)
        hready.hasView hready.hasResult hfit ht hs (fun r' hr' name => ?_) hlook
        hresult).resolve_left fun hd => ?_
      · obtain rfl := Option.some.inj (hr.symm.trans hr')
        rw [htypeParam]
        exact hready.fresh r _ hms name
      · subst hbefore
        rw [hview.unbound] at hd
        cases hd
  · rintro (hs | hsub)
    · exact hheld hs
    · exact fun d hd => hmatched d (hsub d hd)

/-- A dictionary that holds a value, a key and another value. -/
def storedDefault : Machine where
  graph :=
    let g := (((Graph.newNode "start").after {}).newVariable "V").2
    let g := (((g.newVariable "d").2.newVariable "key").2.newVariable "default").2
    let g := ((g.addBinding 0 (.value 3) [] 0).2.addBinding 1 (.value 2) [] 0).2
    ((g.addBinding 2 (.value 4) [] 0).2.addBinding 3 (.value 5) [] 0).2
  store := {
    values := #[.unsolvable, .ofClass { name := "dict", template := ["K", "V"], origin := .library },
      .object { cls := .value 1, typeParams := (∅ : Members).insert "V" 0 },
      .object { cls := .value 0 }, .object { cls := .value 0 }, .object { cls := .value 0 }] }

/-- `dict.setdefault`. -/
def setDefault : NativeValue where
  name := "dict.setdefault"
  signatures := [{
    params := [{ name := "self" }, { name := "k", type := some (.var "K") },
      { name := "default", type := some (.var "V") }]
    result := .var "V" }]
  mutates := ["K", "V"]

private theorem storedDefault_sound : storedDefault.Sound := by
  have hnames := (((((Graph.Built.empty none).node "start").var "V").var "d").var "key").var
    "default"
  have hheld := hnames.binding (.value 3) [] (v := 0) (n := 0) (by decide) (by decide)
  have hdict := hheld.binding (.value 2) [] (v := 1) (n := 0) (by decide) (by decide)
  have hkey := hdict.binding (.value 4) [] (v := 2) (n := 0) (by decide) (by decide)
  have hbuilt := hkey.binding (.value 5) [] (v := 3) (n := 0) (by decide) (by decide)
  apply Machine.Sound.of_values hbuilt ⟨by decide, by decide⟩ (by decide) rfl
  · have hheld : storedDefault.graph.extent.HasVar 0 :=
      show 0 < storedDefault.graph.vars.size by decide
    have hnumber : storedDefault.graph.extent.HasValue (.object { cls := .value 0 }) :=
      ⟨Extent.hasMembers_empty _, Extent.hasMembers_empty _, nofun⟩
    simp only [List.forall_mem_cons]
    exact ⟨trivial, Extent.hasMembers_empty _, ⟨(Extent.hasMembers_empty _).insert "V" hheld,
      Extent.hasMembers_empty _, nofun⟩, hnumber, hnumber, hnumber, nofun⟩
  · simp [Value.members?, eq_comm]

def storedDefaultCall : Machine :=
  { storedDefault with graph := (storedDefault.graph.newVariable "return").2 }

def passedDefault : Subst :=
  Subst.add (Subst.add ∅ "K" (.binding 2)) "V" (.binding 3)

private theorem storedDefault_ends : ∃ m',
    (Analysis.callLibrary 0 setDefault { positional := [1, 2, 3] }).run storedDefault =
      .ok (.ok (0, 4)) m' ∧ m'.graph.allData 4 = [.value 5] := by
  have hends : (match (Analysis.callLibrary 0 setDefault { positional := [1, 2, 3] }).run
      storedDefault with
    | .ok (.ok r) m' => r = (0, 4) && m'.graph.allData 4 = [.value 5]
    | .ok (.error _) _ => false
    | .error .. => false) = true := by decide +kernel
  split at hends
  · next r m' h =>
    obtain ⟨rfl, hdata⟩ : r = (0, 4) ∧ m'.graph.allData 4 = [.value 5] := by simpa using hends
    exact ⟨m', h, hdata⟩
  · cases hends
  · cases hends

private theorem storedDefault_comesTo : Analysis.ComesTo 0 setDefault { positional := [1, 2, 3] }
    storedDefault [] [1, 2, 3] [] 4 storedDefaultCall where
  shut := rfl
  shown := by decide +kernel
  reached := ⟨storedDefault, storedDefaultCall, [], rfl, rfl, by decide +kernel, rfl⟩

private theorem storedDefault_fitting : ∃ sig,
    storedDefaultCall.fitting? setDefault { positional := [1, 2, 3] } [1, 2, 3] =
      some (sig, passedDefault) ∧ sig.result = .var "V" ∧
    storedDefaultCall.receiver? sig [1, 2, 3] = some (.value 2) :=
  ⟨_, rfl, rfl, rfl⟩

/-- The value that is passed is returned, but not the one that is held. -/
theorem storedDefault_typeVariable : storedDefault.Sound ∧ 0 < storedDefault.graph.nodes.size ∧
    Analysis.ComesTo 0 setDefault { positional := [1, 2, 3] } storedDefault [] [1, 2, 3] [] 4
      storedDefaultCall ∧
    storedDefault.store.typeParam? (.value 2) "V" = some 0 ∧
    ∃ sig, storedDefaultCall.fitting? setDefault { positional := [1, 2, 3] } [1, 2, 3] =
        some (sig, passedDefault) ∧
      storedDefaultCall.receiver? sig [1, 2, 3] = some (.value 2) ∧ sig.result.Offers "V" ∧
    ∃ m', (Analysis.callLibrary 0 setDefault { positional := [1, 2, 3] }).run storedDefault =
        .ok (.ok (0, 4)) m' ∧
      (∀ d ∈ storedDefaultCall.matchedData passedDefault "V", d ∈ m'.graph.allData 4) ∧
      (passedDefault["V"]? = none → ∀ d ∈ storedDefault.graph.allData 0, d ∈ m'.graph.allData 4) ∧
      ((∀ d ∈ storedDefault.graph.allData 0, d ∈ m'.graph.allData 4) ↔
        passedDefault["V"]? = none ∨
          ∀ d ∈ storedDefault.graph.allData 0, d ∈ storedDefaultCall.matchedData passedDefault "V") := by
  obtain ⟨sig, hfit, hresult, hr⟩ := storedDefault_fitting
  obtain ⟨m', hcall, -⟩ := storedDefault_ends
  have hV : sig.result.Offers "V" := hresult ▸ .var
  obtain ⟨hmatched, hheld, hiff⟩ := callLibrary_typeVariable storedDefault_sound (by decide)
    storedDefault_comesTo hfit hr rfl hV hcall
  exact ⟨storedDefault_sound, by decide, storedDefault_comesTo, rfl, sig, hfit, hr, hV, m', hcall,
    hmatched, hheld, hiff hresult rfl rfl⟩

/-- So it is not the case that the result always has what the receiver holds. -/
theorem callLibrary_drops_held : ¬ ∀ {m mv m' : Machine} {n stop : NodeId} {f : NativeValue}
    {args : CallArgs} {before after : List (List BindingId)} {view : List BindingId}
    {result p : VarId} {sig : Signature} {σ : Subst} {r : DataId} {V : String},
    m.Sound → n < m.graph.nodes.size →
    Analysis.ComesTo n f args m before view after result mv →
    mv.fitting? f args view = some (sig, σ) → mv.receiver? sig view = some r →
    m.store.typeParam? r V = some p → sig.result.Offers V →
    (Analysis.callLibrary n f args).run m = .ok (.ok (stop, result)) m' →
    (∀ d ∈ m.graph.allData p, d ∈ m'.graph.allData result) ∧
      ∀ d ∈ mv.matchedData σ V, d ∈ m'.graph.allData result := by
  intro h
  obtain ⟨sig, hfit, hresult, hr⟩ := storedDefault_fitting
  obtain ⟨m', hcall, hdata⟩ := storedDefault_ends
  have hheld := (h storedDefault_sound (by decide) storedDefault_comesTo hfit hr rfl
    (hresult ▸ .var : sig.result.Offers "V") hcall).1 (.value 3) (by decide)
  rw [hdata] at hheld
  exact absurd hheld (by decide)

end ValueTrace
