import ValueTrace.Proofs.References.SharedSlots
import ValueTrace.Step.Functions
import ValueTrace.Step.Imports
import ValueTrace.Step.Regions

/-! Names, attributes and classes: what is looked up is there, and so is what is stored. -/

namespace ValueTrace

theorem Extent.HasStore.tupleItems? {e : Extent} {s : Store} {d : DataId} {items : List VarId}
    (hs : e.HasStore s) (h : s.tupleItems? d = some items) : e.HasVars items := by
  unfold Store.tupleItems? at h
  split at h
  · next hpayload =>
    cases h
    obtain ⟨o, ho, ho'⟩ := Option.bind_eq_some_iff.mp hpayload
    exact (hs.object? ho).2.2 items ho'
  · cases h

namespace Analysis.Follows

variable {e : Extent} {n : NodeId} {v : VarId} {ms : Members}

/-- The answer of a lookup that remembers what it has made. -/
theorem remember {z : Analysis VarId} (d : DataId) (name : String)
    (hz : ∀ {e'}, e ≤ e' → Keeps e' z (Extent.HasNew e')) :
    Keeps e (do let v ← z; Analysis.addMember d name v; return some v) Extent.HasVar? :=
  bindSlot hz (fun _ _ _ hv hs => hs.modify rfl fun _ hx => hx.addMember name hv)
    (fun _ s => .modify s d rfl fun _ => ⟨_, rfl, rfl, rfl⟩) (fun v s => .addMember s d name v)
    fun _ _ hv => pure fun he => (hv.mono he).some

/-- A new variable for what the library declares. -/
theorem declared_new {x : Analysis DataId} (name : String) (hx : ∀ {e'}, e ≤ e' →
    Keeps e' x fun _ _ => True) {e' : Extent} (he : e ≤ e') :
    Keeps e' (x >>= fun d => Analysis.variableWith name d [] Machine.root) (Extent.HasNew e') :=
  bind (hx he) fun he _ _ => (variableWith_new _ _ (Extent.hasBindings_nil _)
    (Extent.hasNode_root _)).weaken fun _ _ hv => ⟨hv.own, he.vars.trans hv.new⟩

theorem libraryMember (cls : DataId) (name : String) :
    Keeps e (libraryMember cls name) Extent.HasVar? := by
  unfold Analysis.libraryMember
  refine bind get fun _ m _ => ?_
  cases m.library.class? (m.store.className cls) with
  | none => exact pure fun _ => Extent.hasVar?_none _
  | some decl =>
    dsimp only
    split
    · rw [← bind_assoc]
      exact remember cls name fun he => declared_new name (fun _ => libraryFunction _) he
    · exact remember cls name fun _ => instantiate (Extent.hasNode_root _)
        (Extent.hasSubst_empty _) none _
    · exact pure fun _ => Extent.hasVar?_none _

theorem memberAlong (name : String) (ds : List DataId) :
    Keeps e (memberAlong name ds) Extent.HasVar? := by
  induction ds generalizing e with
  | nil => exact pure fun _ => Extent.hasVar?_none _
  | cons d ds ih =>
    unfold Analysis.memberAlong
    refine bind get fun _ m hm => ?_
    split
    · exact ih
    · next c hc =>
      split
      · next v hv =>
        have hmembers := (hasStore hm).class? hc
        exact pure fun he => ((hmembers name v hv).mono he).some
      · split
        · refine bind (libraryMember d name) fun _ o ho => ?_
          split
          · exact pure fun he => ho.mono he
          · exact ih
        · exact ih

theorem classMember (cls : DataId) (name : String) :
    Keeps e (classMember cls name) Extent.HasVar? :=
  bind get fun _ _ _ => memberAlong name _

theorem moduleMember (d : DataId) (module : String) (hms : e.HasMembers ms) (name : String) :
    Keeps e (moduleMember d module ms name) Extent.HasVar? := by
  unfold Analysis.moduleMember
  extract_lets finish
  have hfinish {e : Extent} {z : Analysis VarId}
      (hz : ∀ {e'}, e ≤ e' → Keeps e' z (Extent.HasNew e')) :
      Keeps e (z >>= finish) Extent.HasVar? := remember d name hz
  split
  · next v hv => exact pure fun he => ((hms name v hv).mono he).some
  · refine bind get fun _ m _ => ?_
    dsimp only
    split
    · split
      · rw [← bind_assoc]
        exact hfinish fun he => declared_new name (fun _ => libraryFunction _) he
      · exact pure fun _ => Extent.hasVar?_none _
    · exact hfinish fun _ => libraryClassVar_new _
    · exact hfinish fun _ => instantiate (Extent.hasNode_root _) (Extent.hasSubst_empty _) none _
    · refine bind (libraryModule _) fun _ o _ => ?_
      split
      · exact hfinish fun _ => variableWith_new _ _ (Extent.hasBindings_nil _)
          (Extent.hasNode_root _)
      · exact pure fun _ => Extent.hasVar?_none _

theorem bindMethods (hn : e.HasNode n) (d : DataId) (hv : e.HasVar v) {receiver : Option BindingId}
    (hr : e.HasBindings receiver.toList) :
    Keeps e (bindMethods n d v receiver) Extent.HasVar := by
  unfold Analysis.bindMethods
  refine bind get fun he m _ => ?_
  dsimp only
  split
  · exact pure fun he' => hv.mono (he.trans he')
  · refine bind (variableWith _ d (hr.mono he) (hn.mono he)) fun he₁ self hself => ?_
    refine bind (newVariable _) fun he₂ bound hbound => ?_
    refine bind (allBindings v) fun he₃ bs hbs => ?_
    refine bind (forM fun b hb e₄ he₄ => ?_) fun he₄ _ _ => pure fun he₅ => by grind
    have hn : e₄.HasNode n := by grind
    have hself : e₄.HasVar self := by grind
    have hbound : e₄.HasVar bound := by grind
    have hb : e₄.HasBindings [b] := ((hbs b hb).mono he₄).single
    refine bind (dataOf b) fun he₅ f _ => bind (value f) fun he₆ x _ => ?_
    split
    · have hbare : (Value.method self f).IsBare := .of_members? (fun _ h => by cases h) rfl
      exact bind (addValue (hself.mono (by grind)) hbare) fun he₇ d _ =>
        bindVariable (by grind) (by grind) (by grind) (List.cons_ne_nil _ _) d
    · exact bind (pure (Q := fun _ _ => True) fun _ => trivial) fun he₇ d _ =>
        bindVariable (by grind) (by grind) (by grind) (List.cons_ne_nil _ _) d

theorem ofFunction (name : String) (hms : e.HasMembers ms) :
    Keeps e (attributeOf.ofFunction name ms) Extent.HasVar? := by
  unfold attributeOf.ofFunction
  split
  · next v hv => exact pure fun he => ((hms name v hv).mono he).some
  · exact bind (libraryClass _) fun _ cls _ => classMember cls name

theorem attributeOf (hn : e.HasNode n) (d : DataId) (name : String) {receiver : Option BindingId}
    (hr : e.HasBindings receiver.toList) :
    Keeps e (attributeOf n d name receiver) Extent.HasVar? := by
  unfold Analysis.attributeOf
  refine bind (value d) fun he x hx => ?_
  have hnone {e : Extent} := ofFunction name (Extent.hasMembers_empty e)
  cases x with
  | object o =>
    dsimp only
    split
    · next v hv => exact pure fun he' => ((hx.2.1 name v hv).mono he').some
    · exact bind (classMember _ name) fun he' o ho => optionMapM (fun he hv => hv.mono he)
        fun v hv => bindMethods (by grind) d (ho v hv) (hr.mono (by grind))
  | ofClass c => exact classMember d name
  | function f => exact ofFunction name hx.1
  | native f | special form => exact hnone
  | method receiver f =>
    refine bind (value f) fun _ x hx => ?_
    cases x with
    | function f => exact ofFunction name hx.1
    | _ => exact hnone
  | module module members => exact moduleMember d module hx name
  | unknown members =>
    dsimp only
    split
    · next v hv => exact pure fun he' => ((hx name v hv).mono he').some
    · exact remember d name fun _ => newUnknown_new (Extent.hasNode_root _)
  | unsolvable =>
    exact map (newUnsolvable (hn.mono he)) (fun _ v hv => hv.some) fun he' ho => ho.mono he'

theorem pasteAttribute (hn : e.HasNode n) (hv : e.HasVar v) (attr : VarId) {b : BindingId}
    (hb : e.HasBinding b) : Keeps e (pasteAttribute n v attr b) fun _ _ => True := by
  refine bind (visible attr n) fun _ _ has => ?_
  refine bind (forM fun a ha _ he => ?_) fun _ _ _ => pure fun _ => trivial
  refine bind (dataOf a) fun he' d _ => ?_
  exact bindVariable (by grind) (by grind) (.cons ((has a ha).mono (by grind))
    (hb.mono (by grind)).single) (List.cons_ne_nil _ _) d

theorem loadAttribute? (hn : e.HasNode n) (obj : VarId) (name : String) :
    Keeps e (loadAttribute? n obj name) Extent.HasVar? := by
  unfold Analysis.loadAttribute?
  refine bind (newVariable name) fun he₁ result hresult => ?_
  refine bind (visible obj n) fun he₂ bs hbs => ?_
  refine bind (mapM (R := fun _ _ => True) (fun _ _ => trivial) fun b hb e₃ he₃ => ?_)
    fun he₃ found _ => pure fun he₄ => ?_
  · refine bind (dataOf b) fun he₄ d _ => bind (attributeOf (by grind) d name ?_) fun he₅ o _ => ?_
    · exact ((hbs b hb).mono (by grind)).single
    · split
      · exact pasteAttribute (by grind) (by grind) _ ((hbs b hb).mono (by grind))
      · exact pure fun _ => trivial
  · split
    · exact (hresult.mono (by grind)).some
    · exact Extent.hasVar?_none _

theorem loadAttribute (hn : e.HasNode n) (obj : VarId) (name : String) :
    Keeps e (loadAttribute n obj name) Extent.HasVar := by
  unfold Analysis.loadAttribute
  refine bind (loadAttribute? hn obj name) fun {e₁} he₁ o ho => ?_
  extract_lets finish
  have hfinish {e : Extent} (he : e₁ ≤ e) (u : Unit) : Keeps e (finish u) Extent.HasVar :=
    newUnsolvable (by grind)
  split
  · next v => exact pure fun he => (ho v rfl).mono he
  · refine bind (dataAt obj n) fun he₂ data _ => bind get fun he₃ m _ => ?_
    dsimp only
    split
    · exact hfinish (by grind) ()
    · split
      · exact bind (report ..) fun he₄ u _ => hfinish (by grind) u
      · split
        · exact bind (report ..) fun he₄ u _ => hfinish (by grind) u
        · exact bind (report ..) fun he₄ u _ => hfinish (by grind) u

theorem memberVar (d : DataId) (name : String) : Keeps e (memberVar d name) Extent.HasVar? := by
  unfold Analysis.memberVar
  refine bind (value d) fun _ x hx => ?_
  split
  · exact pure fun _ => Extent.hasVar?_none _
  · next members hmembers =>
    split
    · next v hv => exact pure fun he => ((hx.members? hmembers name v hv).mono he).some
    · exact remember d name fun _ => newVariable_new name

theorem setMember (hn : e.HasNode n) (d : DataId) (name : String) (v : VarId) :
    Keeps e (setMember n d name v) fun _ _ => True := by
  unfold Analysis.setMember
  refine bind (memberVar d name) fun he o ho => ?_
  split
  · next slot => exact paste (ho slot rfl) (hn.mono he) v
  · exact pure fun _ => trivial

theorem storeAttribute (hn : e.HasNode n) (obj : VarId) (name : String) (v : VarId) :
    Keeps e (storeAttribute n obj name v) fun _ _ => True :=
  bind (dataAt obj n) fun he _ _ => forM fun d _ _ he' =>
    setMember (hn.mono (he.trans he')) d name v

theorem typeNames (v : VarId) (n : NodeId) : Keeps e (typeNames v n) fun _ _ => True :=
  bind get fun _ _ _ => bind (dataAt v n) fun _ _ _ => pure fun _ => trivial

theorem textIn (v : VarId) (n : NodeId) : Keeps e (textIn v n) fun _ _ => True :=
  bind get fun _ _ _ => bind (dataAt v n) fun _ _ _ => pure fun _ => trivial

theorem intIn (v : VarId) (n : NodeId) : Keeps e (intIn v n) fun _ _ => True :=
  bind get fun _ _ _ => bind (dataAt v n) fun _ _ _ => pure fun _ => trivial

theorem isAllNone (v : VarId) (n : NodeId) : Keeps e (isAllNone v n) fun _ _ => True :=
  bind get fun _ _ _ => bind (dataAt v n) fun _ _ _ => pure fun _ => trivial

theorem objectMembers (v : VarId) (n : NodeId) :
    Keeps e (objectMembers v n) Extent.HasMembers := by
  refine bind get fun _ m hm => bind (dataAt v n) fun he data _ => pure fun he' => ?_
  cases hms : data.findSome? fun d => (m.store.object? d).map (·.members) with
  | none => exact Extent.hasMembers_empty _
  | some members =>
    obtain ⟨d, -, hd⟩ := List.exists_of_findSome?_eq_some hms
    obtain ⟨o, ho, rfl⟩ := Option.map_eq_some_iff.mp hd
    have hmembers := ((hasStore hm).object? ho).2.1
    exact hmembers.mono (he.trans he')

theorem tupleItems (v : VarId) (n : NodeId) :
    Keeps e (tupleItems v n) fun e' o => ∀ items, o = some items → e'.HasVars items := by
  unfold Analysis.tupleItems
  refine bind (dataAt v n) fun _ data _ => ?_
  split
  · next d =>
    exact bind get fun _ m hm => pure fun he items h => ((hasStore hm).tupleItems? h).mono he
  · exact pure fun _ _ h => by cases h

theorem namedPairs (n : NodeId) (vs : List VarId) : Keeps e (namedPairs n vs) fun _ _ => True := by
  refine weaken (mapM (R := fun _ _ => True) (fun _ _ => trivial) fun a _ _ _ => ?_)
    fun _ _ _ => trivial
  exact bind (textIn a.1 n) fun _ _ _ => pure fun _ => trivial

theorem usableBases (n : NodeId) (vs : List VarId) :
    Keeps e (usableBases n vs) fun _ _ => True := by
  induction vs generalizing e with
  | nil => exact pure fun _ => trivial
  | cons v vs ih =>
    unfold Analysis.usableBases
    refine bind (dataAt v n) fun _ data _ => bind get fun _ m _ => ?_
    dsimp only
    split
    · exact bind ih fun _ _ _ => pure fun _ => trivial
    · exact bind (report ..) fun _ _ _ => bind ih fun _ _ _ => pure fun _ => trivial

/-- A class has the slots of what it is made of. -/
theorem makeClass (hn : e.HasNode n) (name : String) (bases : List VarId) (hms : e.HasMembers ms) :
    KeepsWith (slotsOf ms) e (makeClass n name bases ms) Extent.HasVar := by
  unfold Analysis.makeClass
  refine .bind (usableBases n bases) (.usableBases n bases) fun {e₁} he₁ usable _ => ?_
  obtain ⟨vars, classes⟩ := usable
  dsimp -zeta only
  extract_lets finish
  have hfinish {e : Extent} (he : e₁ ≤ e) (r : List VarId × List DataId) :
      KeepsWith (slotsOf ms) e (finish r) Extent.HasVar := by
    have hgains (s : Store) (c : ClassValue) (hc : c.members = ms) :
        s.Gains (s.add (.ofClass c)).2 (slotsOf ms) ∅ := by
      have hparams : Value.params (.ofClass c) = ∅ :=
        Set.eq_empty_of_forall_notMem fun _ ⟨_, _, ho, _⟩ => by cases ho
      have hslots : Value.slots (.ofClass c) ⊆ slotsOf ms := by
        rintro slot ⟨ms', hms', hslot⟩
        cases hms'
        rwa [hc] at hslot
      have h := Store.Gains.add s (.ofClass c)
      exact ⟨h.slots.trans (Set.union_subset_union_right _ hslots), hparams ▸ h.params⟩
    refine .gains (·.add (.ofClass _)) (fun _ he' hs => hs.add (hms.mono (he₁.trans (he.trans he'))))
      (fun s => .add s _) (fun s => hgains s _ rfl) fun he₂ id => bind get fun he₃ m _ => ?_
    dsimp only
    split
    · exact bind (modifyClass id fun _ => rfl) fun he₄ _ _ =>
        variableHolding _ id (hn.mono (by grind))
    · exact bind (report ..) fun he₄ _ _ => newUnsolvable (by grind)
  split
  · refine .bind (libraryClass _) (.libraryClass _) fun he₂ object _ => ?_
    refine .bind (libraryClassVar _) (.libraryClassVar _) fun he₃ v _ => ?_
    refine .bind (pure (Q := fun _ _ => True) fun _ => trivial) (.pure _) fun he₄ r _ => ?_
    exact hfinish (by grind) r
  · exact .bind (pure (Q := fun _ _ => True) fun _ => trivial) (.pure _) fun he₂ r _ => hfinish he₂ r

/-- The members of an object may be shared. -/
theorem withMembers {β : Type} {R : Extent → β → Prop} {f : Members → Analysis β} (v : VarId)
    (h : ∀ {e'}, e ≤ e' → ∀ ms, e'.HasMembers ms → KeepsWith (slotsOf ms) e' (f ms) R) :
    Keeps e (Analysis.objectMembers v n >>= f) R := by
  refine Keeps.of_left fun m hm he =>
    ((objectMembers v n).leaves hm he).bind fun ms m₁ hr hm₁ hle hms => ?_
  refine ((h (he.trans hle) ms hms).leaves m₁ hm₁ le_rfl ?_).after hle
  cases hr
  cases hfound : (m.graph.visibleData v n).findSome? fun d => (m.store.object? d).map (·.members) with
  | none => exact slotsOf_empty.subset.trans (Set.empty_subset _)
  | some members =>
    obtain ⟨d, -, hd⟩ := List.exists_of_findSome?_eq_some hfound
    obtain ⟨o, ho, rfl⟩ := Option.map_eq_some_iff.mp hd
    exact fun slot hslot => .inl ⟨d, o.members, by rw [Store.get_of_object? ho]; rfl, hslot⟩

theorem visibleIn (ns : NamespaceId) (name : String) (hn : e.HasNode n) :
    Keeps e (visibleIn ns name n) Extent.HasVar? := by
  unfold Analysis.visibleIn
  refine bind get fun he m _ => ?_
  split
  · exact pure fun _ => Extent.hasVar?_none _
  · refine bind (copyVisible _ (hn.mono he)) fun he₁ copy hcopy =>
      bind (isBound copy) fun he₂ b _ => pure fun he₃ => ?_
    cases b with
    | true => exact (hcopy.mono (by grind)).some
    | false => exact Extent.hasVar?_none _

theorem visibleInAny (name : String) (hn : e.HasNode n) (nss : List NamespaceId) :
    Keeps e (visibleInAny name n nss) Extent.HasVar? := by
  induction nss generalizing e with
  | nil => exact pure fun _ => Extent.hasVar?_none _
  | cons ns nss ih =>
    unfold Analysis.visibleInAny
    refine bind (visibleIn ns name hn) fun he o ho => ?_
    split
    · exact pure fun he' => ho.mono he'
    · exact ih (hn.mono he)

theorem specialForm (form : SpecialForm) : Keeps e (specialForm form) Extent.HasVar :=
  bind (addValue (x := .special form) trivial (.of_members? (fun _ h => by cases h) rfl)) fun _ d _ =>
    variableHolding _ d (Extent.hasNode_root _)

theorem loadBuiltin (hn : e.HasNode n) (name : String) :
    Keeps e (loadBuiltin n name) Extent.HasVar? := by
  have hsome {x : Analysis VarId} (hx : Keeps e x Extent.HasVar) :
      Keeps e (some <$> x) Extent.HasVar? :=
    map hx (fun _ v hv => hv.some) fun he ho => ho.mono he
  unfold Analysis.loadBuiltin
  split
  · exact hsome (literalVar _)
  · exact hsome (literalVar _)
  · exact hsome (literalVar _)
  · exact hsome (specialForm _)
  · exact hsome (specialForm _)
  · exact hsome (bind (truth none) fun he d _ => variableHolding _ d (hn.mono he))
  · exact hsome (newUnknown hn)
  · refine bind (visibleIn _ name hn) fun _ o ho => ?_
    split
    · exact pure fun he => ho.mono he
    · exact bind (libraryBuiltin _) fun _ o _ => optionMapM (fun he hv => hv.mono he)
        fun d _ => variableHolding _ d (Extent.hasNode_root _)

theorem storeValue (hn : e.HasNode n) (ns : NamespaceId) (name : String) (v : VarId) :
    Keeps e (storeValue n ns name v) fun _ _ => True := by
  unfold Analysis.storeValue
  refine bind get fun he m hm => ?_
  dsimp only
  split
  · next slot hslot =>
    have hslot := (hasStore hm).lookup? hslot
    exact bind (pure (Q := Extent.HasVar) fun he' => hslot.mono he') fun he' slot hslot =>
      paste hslot (by grind) v
  · exact bindSlot (fun _ => newVariable_new name) (fun _ _ _ hv hs => hs.define name hv)
      (fun _ _ => .of_values rfl) (fun slot s => .define s ns name slot) fun he₁ slot hslot =>
        bind (pure (Q := Extent.HasVar) fun he₂ => hslot.mono he₂) fun he₂ slot hslot =>
          paste hslot (by grind) v

theorem importModule (hn : e.HasNode n) (name : String) (level : Int) (isFrom : Bool) :
    Keeps e (importModule n name level isFrom) Extent.HasVar := by
  unfold Analysis.importModule
  extract_lets finish resolve
  have hfinish {e' : Extent} (he : e ≤ e') (d : DataId) : Keeps e' (finish d) Extent.HasVar :=
    bind (value d) fun he' _ _ => variableHolding _ d (hn.mono (he.trans he'))
  have hresolve {e' : Extent} (he : e ≤ e') (o : Option DataId) :
      Keeps e' (resolve o) Extent.HasVar := by
    dsimp only [resolve]
    split
    · exact bind (report ..) fun he' _ _ => newUnsolvable (hn.mono (he.trans he'))
    · split
      · exact bind (pure (Q := fun _ _ => True) fun _ => trivial) fun he' d _ =>
          hfinish (he.trans he') d
      · exact bind (libraryModule _) fun he' o _ =>
          bind (pure (Q := fun _ _ => True) fun _ => trivial) fun he'' d _ =>
            hfinish (by grind) d
  split
  · exact bind (pure (Q := fun _ _ => True) fun _ => trivial) fun he o _ => hresolve he o
  · exact bind (libraryModule name) fun he o _ => hresolve he o

end Analysis.Follows

end ValueTrace
