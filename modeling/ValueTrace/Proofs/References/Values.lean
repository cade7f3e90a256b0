import ValueTrace.Machine.Class
import ValueTrace.Machine.Instantiate
import ValueTrace.Proofs.References.Following

/-! Values that are shared or made anew refer only to what is there. -/

namespace ValueTrace.Analysis.Follows

variable {e : Extent} {n : NodeId} {v : VarId} {name : String}

/-- A class keeps its members when it gets its linearisation. -/
theorem modifyClass (d : DataId) {h : ClassValue → ClassValue}
    (hh : ∀ c, (h c).members = c.members) :
    Keeps e (Analysis.setStore (·.modify d fun
      | .ofClass c => .ofClass (h c)
      | v => v)) fun _ _ => True := by
  refine setStore (fun s _ hs => Extent.HasStore.modify hs rfl fun x hx => ?_) (fun s =>
    .modify s d rfl fun o => ⟨o, rfl, rfl, rfl⟩) fun s => .modifyClass s d hh
  cases x with
  | ofClass c =>
    change Extent.HasMembers _ (h c).members
    rw [hh]
    exact hx
  | _ => exact hx

theorem libraryClassWithin (fuel : Nat) (name : String) :
    Keeps e (libraryClassWithin fuel name) fun _ _ => True := by
  induction fuel generalizing e name with
  | zero => exact throw _
  | succ fuel ih =>
    unfold Analysis.libraryClassWithin
    refine bind get fun _ m _ => ?_
    split
    · exact pure fun _ => trivial
    · refine bind get fun _ m _ => ?_
      split
      · refine bind (addValue (Extent.hasMembers_empty _)
          (.of_members? (fun _ h => by cases h; rfl) rfl)) fun _ id _ => ?_
        refine bind (share fun _ => rfl) fun _ _ _ => ?_
        refine bind (mapM (R := fun _ _ => True) (fun _ _ => trivial) fun base _ _ _ => ?_)
          fun _ bases _ => ?_
        · refine bind (ih base) fun _ d _ => ?_
          refine bind (variableHolding base d (Extent.hasNode_root _)) fun _ _ _ => ?_
          exact pure fun _ => trivial
        refine bind get fun _ m _ => ?_
        dsimp only
        split
        · exact bind (modifyClass id fun _ => rfl) fun _ _ _ => pure fun _ => trivial
        · exact throw _
      · exact throw _

theorem libraryClass (name : String) : Keeps e (libraryClass name) fun _ _ => True :=
  bind get fun _ _ _ => libraryClassWithin _ name

theorem libraryClassVar_new (name : String) :
    Keeps e (libraryClassVar name) (Extent.HasNew e) :=
  bind (libraryClass name) fun he _ _ => (variableWith_new _ _ (Extent.hasBindings_nil _)
    (Extent.hasNode_root _)).weaken fun _ _ hv => ⟨hv.own, he.vars.trans hv.new⟩

theorem libraryClassVar (name : String) : Keeps e (libraryClassVar name) Extent.HasVar :=
  (libraryClassVar_new name).weaken fun _ _ hv => hv.own.hasVar

/-- An object may be added whose type parameters are new variables. -/
theorem left_withObject {m m₁ : Machine} (hm₁ : m₁.Sound) (hle : m.extent ≤ m₁.extent)
    (cls : DataId) {params : List (String × VarId)}
    (hnew : ∀ entry ∈ params, Extent.HasNew m.extent m₁.extent entry.2) {payload : Option Payload}
    (hitems : ∀ items, payload = some (.tuple items) → m₁.extent.HasVars items) :
    let s := (m₁.store.add (.object { cls, typeParams := .ofList params, payload })).2
    Machine.Sound { m₁ with store := s } ∧ m.extent ≤ { m₁ with store := s }.extent := by
  let o : Object := { cls, typeParams := .ofList params, payload }
  have hslots : Value.slots (.object o) = ∅ := by
    refine Set.eq_empty_of_forall_notMem ?_
    rintro slot ⟨ms, hms, hslot⟩
    cases hms
    rwa [slotsOf_empty] at hslot
  have hgains : m₁.store.Gains (m₁.store.add (.object o)).2 ∅ (Value.params (.object o)) :=
    hslots ▸ .add m₁.store (.object o)
  have hP {v : VarId} (hv : v ∈ Value.params (.object o)) :
      Extent.HasNew m.extent m₁.extent v := by
    obtain ⟨o', name, ho, hv⟩ := hv
    cases ho
    have hslot : (v, name) ∈ slotsOf (.ofList params) := hv
    exact hnew (name, v) (slotsOf_ofList hslot)
  have hvalue : m₁.extent.HasValue (.object o) :=
    ⟨Extent.hasMembers_ofList fun entry hentry => (hnew entry hentry).own.hasVar,
      Extent.hasMembers_empty _, hitems⟩
  exact left_withGains hm₁ hle (hm₁.store.add hvalue) (.add m₁.store (.object o)) hgains nofun hP
    nofun nofun

/-- What is known of a new object is kept. -/
theorem newObject (cls : DataId) {payload : Option Payload}
    (h : ∀ items, payload = some (.tuple items) → e.HasVars items) :
    Keeps e (newObject cls payload) fun e' d => ∀ p, payload = some p → e'.payloads d = some p := by
  refine Keeps.of_left fun m hm he => ?_
  have hparams : Keeps m.extent ((m.store.template cls).mapM fun name => do
      return (name, ← Analysis.newVariable name))
      fun e' params => ∀ entry ∈ params, Extent.HasNew m.extent e' entry.2 :=
    mapM (R := fun e' (r : String × VarId) => Extent.HasNew m.extent e' r.2)
      (fun he hv => hv.mono he) fun name _ _ he' => bind (newVariable_new name)
        fun he _ hv => pure fun he'' => ⟨hv.own.mono he'', he'.vars.trans hv.new⟩
  refine (hparams.leaves hm le_rfl).bind fun params m₁ _ hm₁ hle hnew => ?_
  obtain ⟨hm₂, hle₂⟩ := left_withObject hm₁ hle cls hnew fun items hitems =>
    (h items hitems).mono (he.trans hle)
  refine ⟨hm₂, hle₂, fun p hp => ?_⟩
  let o : Object := { cls, typeParams := .ofList params, payload }
  change (m₁.store.add (.object o)).2.payload? (m₁.store.add (.object o)).1 = some p
  rw [Store.payload?_eq, Store.get_add, if_pos rfl]
  exact hp

/-- An object of which no more is known than its class. -/
theorem newObject_none (cls : DataId) : Keeps e (Analysis.newObject cls none) fun _ _ => True :=
  (newObject cls fun _ h => by cases h).weaken fun _ _ _ => trivial

theorem sharedObject (cls : DataId) : Keeps e (sharedObject cls) fun _ _ => True := by
  unfold Analysis.sharedObject
  refine bind get fun _ m _ => ?_
  split
  · exact newObject_none cls
  · refine bind get fun _ m _ => ?_
    split
    · exact pure fun _ => trivial
    · exact bind (newObject_none cls) fun _ d _ => bind (share fun _ => rfl) fun _ _ _ =>
        pure fun _ => trivial

theorem plainObject (name : String) : Keeps e (plainObject name) fun _ _ => True :=
  bind (libraryClass name) fun _ cls _ => sharedObject cls

theorem fillTypeParam (d : DataId) (param : String) (items : List VarId) (hn : e.HasNode n) :
    Keeps e (fillTypeParam d param items n) fun _ _ => True := by
  unfold Analysis.fillTypeParam
  refine bind get fun he m hm => ?_
  split
  · next v hv =>
    have hv := (hasStore hm).typeParam? hv
    exact forM fun item _ _ he' => paste (hv.mono he') (hn.mono (he.trans he')) item
  · exact pure fun _ => trivial

theorem tupleObject {items : List VarId} (hitems : e.HasVars items) (hn : e.HasNode n) :
    Keeps e (tupleObject items n) fun e' d => e'.payloads d = some (.tuple items) := by
  refine bind (libraryClass _) fun he cls _ => bind (newObject cls fun vs h => ?_) fun he' d hd =>
    bind (fillTypeParam d _ items (hn.mono (he.trans he'))) fun he₃ _ _ => pure fun he₄ =>
      (he₃.trans he₄).payloads d _ (hd _ rfl)
  cases h
  exact hitems.mono he

/-- A literal is shared with a variable that begins with its value at the root. -/
theorem shareLiteral {key : List Nat} {d : DataId} {p : Payload} (hp : e.payloads d = some p)
    (hkey : p.Spells key) :
    Keeps e (do
      let v ← Analysis.variableWith "const" d [] Machine.root
      Analysis.share fun s => { s with constants := s.constants.insert key (d, v) }
      return (d, v)) fun e' r => e'.HasVar r.2 := by
  refine Keeps.of_left fun m hm he => ?_
  let v := (m.graph.newVariable "const").1
  let g := ((m.graph.newVariable "const").2.addBinding v d [] Machine.root).2
  let shared : Shared := { m.shared with constants := m.shared.constants.insert key (d, v) }
  have hv : v < (m.graph.newVariable "const").2.vars.size := by simp [v, Graph.newVariable]
  have hs : m.graph.Succeeds g :=
    ((Graph.Succeeds.refl hm.built hm.closed).newVariable "const").addBinding hv hm.root
      (fun _ h => by simp at h) (fun _ => le_rfl) d
  have hle : m.extent ≤ { m with graph := g, shared }.extent := by
    have hgraph := Machine.extent_le_withGraph (m := m) hm.built.wellFormed hs.grows
    refine ⟨hgraph.nodes, hgraph.vars, hgraph.bindings, hgraph.bound, hgraph.data, fun w hw => ?_,
      fun _ _ h => h, fun _ _ h => h, fun _ _ => .inl, fun _ => .inl, .refl _⟩
    obtain ⟨key', d', hw⟩ := hw
    change (m.shared.constants.insert key (d, v))[key']? = _ at hw
    rw [Std.TreeMap.getElem?_insert] at hw
    split at hw
    · cases hw
      exact .inr le_rfl
    · exact .inl ⟨key', d', hw⟩
  change Left m.extent _ (.ok (d, v) { m with graph := g, shared })
  refine ⟨⟨hs.built, hs.closed, hm.root.trans_le hle.nodes, hm.start.mono hle, hm.store.mono hle,
    fun key' d' w hw => ?_, fun f hf => (hm.frames f hf).mono hle, hm.apart⟩, hle,
    hv.trans_le (Graph.addBinding_vars_size v d [] Machine.root).ge⟩
  change (m.shared.constants.insert key (d, v))[key']? = _ at hw
  rw [Std.TreeMap.getElem?_insert] at hw
  split at hw
  · next heq =>
    cases hw
    obtain rfl := Std.LawfulEqCmp.compare_eq_iff_eq.mp heq
    exact ⟨_, ⟨p, he.payloads d p hp, hkey⟩, .newVariable hm.built.wellFormed "const" d _⟩
  · obtain ⟨b, hb⟩ := hm.literals key' d' w hw
    exact ⟨b, hb.grows hs.grows (hs.copies w hb.var_lt)⟩

mutual

theorem constant {e : Extent} (place : List Nat) (c : Constant) :
    Keeps e (constant place c) fun e' r => e'.HasVar r.2 := by
  unfold Analysis.constant
  refine bind get fun _ m hm => ?_
  split
  · next known hknown =>
    obtain ⟨b, hb⟩ := hm.1.literals _ known.1 known.2 hknown
    exact pure fun he => Extent.HasVar.mono (e := m.extent) hb.var_lt (hm.2.trans he)
  · refine bind get fun _ m _ => bind (libraryClass _) fun _ cls _ => ?_
    extract_lets finish
    have hfinish {e : Extent} {d : DataId} {p : Payload} (hp : e.payloads d = some p)
        (hkey : p.Spells (c.key place)) : Keeps e (finish d) fun e' r => e'.HasVar r.2 :=
      shareLiteral hp hkey
    split
    · next items _ =>
      refine bind (constants place 0 items) fun _ vs hvs =>
        bind (tupleObject hvs.1 (Extent.hasNode_root _)) fun _ d hd =>
          hfinish hd ⟨Constant.keys place 0 items, ?_⟩
      rw [Constant.key, hvs.2]
    · exact bind (newObject cls fun _ h => by cases h) fun _ d hd => hfinish (hd _ rfl) rfl
    · next htuple hcode =>
      refine bind (newObject cls fun _ h => by cases h) fun _ d hd => hfinish (hd _ rfl) fun _ => ?_
      cases c with
      | tuple items => exact absurd rfl (htuple items)
      | code code => exact absurd rfl (hcode code)
      | _ => simp only [Constant.key]
termination_by sizeOf c

theorem constants {e : Extent} (place : List Nat) (i : Nat) (cs : List Constant) :
    Keeps e (constants place i cs) fun e' vs => e'.HasVars vs ∧ vs.length = cs.length := by
  cases cs with
  | nil =>
    unfold Analysis.constants
    exact pure fun _ => ⟨Extent.hasVars_nil _, rfl⟩
  | cons c cs =>
    unfold Analysis.constants
    exact bind (constant _ c) fun _ r hr => bind (constants place _ cs) fun he vs hvs =>
      pure fun he' => ⟨.cons (hr.mono (he.trans he')) (hvs.1.mono he'), congrArg Nat.succ hvs.2⟩
termination_by sizeOf cs

end

theorem literal (c : Constant) : Keeps e (literal c) fun _ _ => True :=
  bind (constant [] c) fun _ _ _ => pure fun _ => trivial

theorem literalVar (c : Constant) : Keeps e (literalVar c) Extent.HasVar :=
  bind (constant [] c) fun _ _ hr => pure fun he => hr.mono he

theorem newNone (hn : e.HasNode n) : Keeps e (newNone n) Extent.HasVar :=
  bind (literal .none) fun he d _ => variableHolding _ d (hn.mono he)

theorem truth (b : Option Bool) : Keeps e (truth b) fun _ _ => True := by
  cases b with
  | none => exact plainObject _
  | some b => exact literal _

theorem libraryFunction (f : LibraryFunction) : Keeps e (libraryFunction f) fun _ _ => True := by
  unfold Analysis.libraryFunction
  refine bind get fun _ m _ => ?_
  split
  · exact pure fun _ => trivial
  · exact bind (addValue trivial (.of_members? (fun _ h => by cases h) rfl)) fun _ d _ =>
      bind (share fun _ => rfl) fun _ _ _ => pure fun _ => trivial

theorem libraryBuiltin (name : String) : Keeps e (libraryBuiltin name) fun _ _ => True := by
  unfold Analysis.libraryBuiltin
  refine bind get fun _ m _ => ?_
  dsimp only
  split
  · exact map (libraryClass name) (fun _ _ _ => trivial) fun _ _ => trivial
  · exact weaken (optionMapM (R := fun _ _ => True) (fun _ _ => trivial) fun f _ =>
      libraryFunction f) fun _ _ _ => trivial

theorem libraryModule (name : String) : Keeps e (libraryModule name) fun _ _ => True := by
  unfold Analysis.libraryModule
  refine bind get fun _ m _ => ?_
  split
  · exact pure fun _ => trivial
  · refine bind get fun _ m _ => ?_
    split
    · exact pure fun _ => trivial
    · exact bind (addValue (Extent.hasMembers_empty _)
          (.of_members? (fun _ h => by cases h; rfl) rfl)) fun _ d _ =>
        bind (share fun _ => rfl) fun _ _ _ => pure fun _ => trivial

theorem pasteSource {s : TypeSource} (hv : e.HasVar v) (hn : e.HasNode n)
    (hs : ∀ b, s = .binding b → e.HasBinding b) : Keeps e (pasteSource v n s) fun _ _ => True := by
  cases s with
  | binding b =>
    exact bind (dataOf b) fun he d _ => bindVariable (hv.mono he) (hn.mono he)
      ((hs b rfl).mono he).single (List.cons_ne_nil _ _) d
  | param p => exact paste hv hn p

/-- All that a type variable matched is copied. -/
theorem pasteSources {σ : Subst} (hσ : e.HasSubst σ) {sources : List TypeSource}
    (hs : σ[name]? = some sources) (hv : e.HasVar v) (hn : e.HasNode n) :
    Keeps e (sources.forM (Analysis.pasteSource v n)) fun _ _ => True :=
  forM fun _ hmem _ he => pasteSource (hv.mono he) (hn.mono he) fun b hb =>
    (hσ name sources hs b (hb ▸ hmem)).mono he

mutual

theorem instantiate {e : Extent} {σ : Subst} (hn : e.HasNode n) (hσ : e.HasSubst σ)
    (receiver : Option DataId)
    (t : TypeExpr) : Keeps e (instantiate n σ receiver t) (Extent.HasNew e) := by
  unfold Analysis.instantiate
  refine bind (newVariable_new _) fun {e₁} he v hnew => ?_
  have hv : e₁.HasVar v := hnew.own.hasVar
  have hn := hn.mono he
  have hσ := hσ.mono he
  extract_lets finish
  have hfinish {e' : Extent} (he : e₁ ≤ e') (u : Unit) : Keeps e' (finish u) (Extent.HasNew e) :=
    pure fun he' => hnew.mono (he.trans he')
  have hbind {e' : Extent} (he : e₁ ≤ e') (d : DataId) :
      Keeps e' (Analysis.bind v d [] n >>= finish) (Extent.HasNew e) :=
    bind (bindOwn (hnew.own.mono he) (hn.mono he) (Extent.hasBindings_nil _) d) fun he' u _ =>
      hfinish (he.trans he') u
  cases t with
  | any => exact hbind le_rfl _
  | name name =>
    dsimp only
    split
    · exact bind (literal _) fun he d _ => hbind he d
    · exact bind (plainObject _) fun he d _ => hbind he d
  | generic name params =>
    refine bind (libraryClass _) fun he _ _ => ?_
    refine bind (newObject_none _) fun he' d _ => ?_
    refine bind get fun he'' m _ => ?_
    refine bind (instantiateParams (hn.mono (by grind)) (hσ.mono (by grind)) receiver d _ _)
      fun _ _ _ => ?_
    exact hbind (by grind) d
  | var name =>
    dsimp only
    split
    · next sources hs => exact bind (pasteSources hσ hs hv hn) fun he u _ => hfinish he u
    · split
      · refine bind get fun he m hm => ?_
        split
        · next p _ =>
          exact bind (paste (hv.mono he) (hn.mono he) p) fun he' u _ => hfinish (he.trans he') u
        · exact hfinish he ()
      · exact hfinish le_rfl ()
  | union options =>
    exact bind (instantiateOptions hn hσ receiver hv options) fun he u _ => hfinish he u
termination_by sizeOf t

theorem instantiateParams {e : Extent} {σ : Subst} (hn : e.HasNode n) (hσ : e.HasSubst σ)
    (receiver : Option DataId) (d : DataId) (template : List String) (params : List TypeExpr) :
    Keeps e (instantiateParams n σ receiver d template params) fun _ _ => True := by
  cases params with
  | nil =>
    unfold Analysis.instantiateParams
    split
    · contradiction
    · exact pure fun _ => trivial
  | cons t params =>
    cases template with
    | nil =>
      unfold Analysis.instantiateParams
      exact pure fun _ => trivial
    | cons name template =>
      unfold Analysis.instantiateParams
      exact bind (instantiate hn hσ receiver t) fun he v _ =>
        bind (fillTypeParam d name [v] (hn.mono he)) fun he' _ _ =>
          instantiateParams (hn.mono (he.trans he')) (hσ.mono (he.trans he')) receiver d template
            params
termination_by sizeOf params

theorem instantiateOptions {e : Extent} {v : VarId} {σ : Subst} (hn : e.HasNode n)
    (hσ : e.HasSubst σ)
    (receiver : Option DataId) (hv : e.HasVar v) (options : List TypeExpr) :
    Keeps e (instantiateOptions n σ receiver v options) fun _ _ => True := by
  cases options with
  | nil =>
    unfold Analysis.instantiateOptions
    exact pure fun _ => trivial
  | cons t options =>
    unfold Analysis.instantiateOptions
    exact bind (instantiate hn hσ receiver t) fun he part _ =>
      bind (paste (hv.mono he) (hn.mono he) part) fun he' _ _ =>
        instantiateOptions (hn.mono (he.trans he')) (hσ.mono (he.trans he')) receiver
          (hv.mono (he.trans he')) options
termination_by sizeOf options

end

end ValueTrace.Analysis.Follows
