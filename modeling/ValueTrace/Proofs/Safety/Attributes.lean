import ValueTrace.Proofs.Literals.Loads
import ValueTrace.Proofs.Safety.Lookups

/-!
# Looking up attributes comes to an end

Values of the types that the library declares are made without fail, and so a lookup always has an
answer, whatever it is looked up on.
-/

namespace ValueTrace.Analysis.Completes

variable {S : Setting} {α β : Type} {x : Analysis α} {Q : α → Prop}

theorem dataOf (b : BindingId) : Completes S (dataOf b) fun _ => True :=
  of_safe (Agree.dataOf b) fun m => ⟨_, m, rfl⟩

theorem newVariable (name : String) : Completes S (newVariable name) fun _ => True :=
  of_safe (Agree.newVariable name) fun _ => ⟨_, _, rfl⟩

theorem bindVariable (v : VarId) (d : DataId) (sources : List BindingId) (n : NodeId) :
    Completes S (Analysis.bind v d sources n) fun _ => True :=
  of_safe (Agree.bindVariable v d sources n) fun _ => ⟨_, _, rfl⟩

theorem paste (dst src : VarId) (n : NodeId) : Completes S (paste dst src n) fun _ => True :=
  of_safe (Agree.paste dst src n) fun _ => ⟨_, _, rfl⟩

theorem variableWith (name : String) (d : DataId) (sources : List BindingId) (n : NodeId) :
    Completes S (variableWith name d sources n) fun _ => True :=
  of_safe (Agree.variableWith name d sources n) fun _ => ⟨_, _, rfl⟩

theorem addMember (d : DataId) (name : String) (v : VarId) :
    Completes S (addMember d name v) fun _ => True :=
  of_safe (Agree.addMember d name v) fun _ => ⟨_, _, rfl⟩

theorem sharedObject (cls : DataId) : Completes S (sharedObject cls) fun _ => True := by
  have hnew : Completes S (Analysis.newObject cls none) fun _ => True :=
    newObject cls fun _ h => by cases h
  unfold Analysis.sharedObject
  refine bind get fun m _ => ?_
  split
  · exact hnew
  · refine bind get fun m _ => ?_
    split
    · exact pure trivial
    · exact bind hnew fun _ _ => bind (of_safe (Agree.share fun _ => rfl) fun _ => ⟨_, _, rfl⟩)
        fun _ _ => pure trivial

theorem plainObject {name : String} (hname : (S.library.class? name).isSome) :
    Completes S (plainObject name) fun _ => True :=
  bind (libraryClass hname) fun _ _ => sharedObject _

theorem pasteSource (v : VarId) (n : NodeId) (s : TypeSource) :
    Completes S (pasteSource v n s) fun _ => True := by
  cases s with
  | binding b => exact bind (dataOf b) fun _ _ => bindVariable _ _ _ _
  | param p => exact paste _ _ _

mutual

theorem instantiate (n : NodeId) (s : Subst) (receiver : Option DataId) (t : TypeExpr)
    (ht : S.library.Names t) : Completes S (instantiate n s receiver t) fun _ => True := by
  unfold Analysis.instantiate
  refine bind (newVariable _) fun v _ => ?_
  extract_lets finish
  have hfinish (u : Unit) : Completes S (finish u) fun _ => True := pure trivial
  have hbind (d : DataId) : Completes S (Analysis.bind v d [] n >>= finish) fun _ => True :=
    bind (bindVariable _ _ _ _) fun u _ => hfinish u
  split
  · exact hbind _
  · next name =>
    split
    · exact bind (bind (constant [] .none rfl) fun _ _ => pure (Q := fun _ => True) trivial)
        fun d _ => hbind d
    · exact bind (plainObject (ht name (by simp [TypeExpr.classNames]))) fun d _ => hbind d
  · next name params =>
    refine bind (libraryClass (ht name (by simp [TypeExpr.classNames]))) fun _ _ => ?_
    refine bind (newObject _ fun _ h => by cases h) fun d _ => ?_
    refine bind get fun _ _ => ?_
    refine bind (instantiateParams n s receiver d _ params fun k hk => ht k ?_) fun _ _ => hbind d
    simp [TypeExpr.classNames, hk]
  · split
    · exact bind (forM fun _ _ => pasteSource _ _ _) fun u _ => hfinish u
    · split
      · refine bind get fun m _ => ?_
        split
        · exact bind (paste _ _ _) fun u _ => hfinish u
        · exact hfinish ()
      · exact hfinish ()
  · next options =>
    refine bind (instantiateOptions n s receiver v options fun k hk => ht k ?_) fun u _ =>
      hfinish u
    simpa [TypeExpr.classNames] using hk
termination_by sizeOf t

theorem instantiateParams (n : NodeId) (s : Subst) (receiver : Option DataId) (d : DataId)
    (template : List String) (params : List TypeExpr)
    (hp : ∀ k ∈ TypeExpr.allClassNames params, (S.library.class? k).isSome) :
    Completes S (instantiateParams n s receiver d template params) fun _ => True := by
  cases params with
  | nil =>
    unfold Analysis.instantiateParams
    split
    · contradiction
    · exact pure trivial
  | cons t params =>
    cases template with
    | nil =>
      unfold Analysis.instantiateParams
      exact pure trivial
    | cons name template =>
      unfold Analysis.instantiateParams
      refine bind (instantiate n s receiver t fun k hk => hp k ?_) fun v _ =>
        bind (fillTypeParam _ _ _ _) fun _ _ =>
          instantiateParams n s receiver d template params fun k hk => hp k ?_
      · simp [TypeExpr.allClassNames, hk]
      · simp [TypeExpr.allClassNames, hk]
termination_by sizeOf params

theorem instantiateOptions (n : NodeId) (s : Subst) (receiver : Option DataId) (v : VarId)
    (options : List TypeExpr)
    (ho : ∀ k ∈ TypeExpr.allClassNames options, (S.library.class? k).isSome) :
    Completes S (instantiateOptions n s receiver v options) fun _ => True := by
  cases options with
  | nil =>
    unfold Analysis.instantiateOptions
    exact pure trivial
  | cons t options =>
    unfold Analysis.instantiateOptions
    refine bind (instantiate n s receiver t fun k hk => ho k ?_) fun part _ =>
      bind (paste _ _ _) fun _ _ =>
        instantiateOptions n s receiver v options fun k hk => ho k ?_
    · simp [TypeExpr.allClassNames, hk]
    · simp [TypeExpr.allClassNames, hk]
termination_by sizeOf options

end

theorem libraryFunction {f : LibraryFunction} (hf : S.library.Returns f.signatures) :
    Completes S (libraryFunction f) fun _ => True :=
  of_safe (Agree.libraryFunction hf) fun m => by
    unfold Analysis.libraryFunction
    rw [bind_eq_of_ok (get_ok.mpr ⟨rfl, rfl⟩)]
    cases m.shared.functions[f.name]? with
    | some d => exact ⟨d, m, rfl⟩
    | none => exact ⟨_, _, rfl⟩

theorem libraryMember (cls : DataId) (name : String) :
    Completes S (libraryMember cls name) fun _ => True := by
  unfold Analysis.libraryMember
  refine bind get fun m hm => ?_
  rw [hm.library_eq]
  cases hdecl : S.library.class? (m.store.className cls) with
  | none => exact pure trivial
  | some decl =>
    dsimp only
    split
    · next f hf =>
      refine bind (libraryFunction (S.complete.method hdecl hf)) fun _ _ => ?_
      refine bind (variableWith _ _ _ _) fun v _ => ?_
      refine bind (addMember _ _ _) fun _ _ => ?_
      exact pure trivial
    · next t _ ht =>
      exact bind (instantiate _ _ _ t (S.complete.slot hdecl ht)) fun v _ =>
        bind (addMember _ _ _) fun _ _ => pure trivial
    · exact pure trivial

theorem memberAlong (name : String) (ds : List DataId) :
    Completes S (memberAlong name ds) fun _ => True := by
  induction ds with
  | nil => exact pure trivial
  | cons d ds ih =>
    unfold Analysis.memberAlong
    refine bind get fun m _ => ?_
    split
    · exact ih
    · split
      · exact pure trivial
      · split
        · refine bind (libraryMember d name) fun v _ => ?_
          split
          · exact pure trivial
          · exact ih
        · exact ih

end ValueTrace.Analysis.Completes
