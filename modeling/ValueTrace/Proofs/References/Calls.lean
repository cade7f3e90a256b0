import ValueTrace.Proofs.References.Instructions
import ValueTrace.Proofs.Safety.Routes
import ValueTrace.Proofs.Signatures.Matching
import ValueTrace.Proofs.Signatures.Views

/-! Calls leave a sound machine if the instructions that they run do. -/

namespace ValueTrace

/-- The second way to call a value follows the first one. Of the answer only the node matters. -/
def ValueCaller.Follows (call call' : ValueCaller) : Prop :=
  ∀ (e : Extent) (n : NodeId) (d : DataId) (b : BindingId) (args : CallArgs), e.HasNode n →
    e.HasBinding b → e.HasArgs args →
      Attempt.Follows e (call n d b args) (call' n d b args) fun e' r => e'.HasNode r.1

/-- The second way to run instructions follows the first one. -/
def Analysis.Stepper.Follows (step step' : Stepper) : Prop :=
  ∀ (e : Extent) (i : Instruction) (p : Path), e.HasPath p →
    Analysis.Follows e (step i p) (step' i p) Extent.HasPath

variable {e : Extent} {n : NodeId}

namespace Attempt.Follows

/-- Whatever a step answers, it can be part of an attempt. -/
theorem liftTrue {α : Type} {x y : Analysis α} (h : Analysis.Follows e x y fun _ _ => True) :
    Follows e (liftM x) (liftM y) fun _ _ => True := lift h fun _ _ => trivial

theorem bindDefaults (hn : e.HasNode n) (p : Parameters) (args : CallArgs)
    (params : List (String × Nat)) (bound : Members) :
    Keeps e (Analysis.bindDefaults n p args params bound) fun _ _ => True := by
  induction params generalizing e bound with
  | nil => exact pure fun _ => trivial
  | cons param params ih =>
    obtain ⟨name, i⟩ := param
    unfold Analysis.bindDefaults
    split
    · exact ih hn bound
    · split
      · exact ih hn _
      · split
        · exact bind (lift (.newUnknown hn) fun he hv => hv.mono he) fun he _ _ => ih (hn.mono he) _
        · split
          · exact throw _
          · exact throw _

theorem bindKwonly (hn : e.HasNode n) (p : Parameters) (args : CallArgs) (names : List String)
    (bound : Members) : Keeps e (Analysis.bindKwonly n p args names bound) fun _ _ => True := by
  induction names generalizing e bound with
  | nil => exact pure fun _ => trivial
  | cons name names ih =>
    unfold Analysis.bindKwonly
    split
    · exact ih hn bound
    · split
      · exact ih hn _
      · split
        · exact bind (lift (.newUnknown hn) fun he hv => hv.mono he) fun he _ _ => ih (hn.mono he) _
        · exact throw _

end Attempt.Follows

namespace Analysis.Follows

theorem surplusTuple (hn : e.HasNode n) (name : String) (star : Option VarId)
    {surplus : List VarId} (hs : e.HasVars surplus) :
    Keeps e (surplusTuple n name star surplus) fun _ _ => True := by
  unfold Analysis.surplusTuple
  cases star with
  | none =>
    exact weaken (bind (tupleObject hs hn) fun he d _ => variableHolding name d (hn.mono he))
      fun _ _ _ => trivial
  | some v =>
    dsimp only
    split
    · exact pure fun _ => trivial
    · exact weaken (newUnsolvable hn) fun _ _ _ => trivial

theorem surplusDict (hn : e.HasNode n) (starStar : Option VarId) (surplus : List (String × VarId)) :
    Keeps e (surplusDict n starStar surplus) fun _ _ => True := by
  unfold Analysis.surplusDict
  cases starStar with
  | none =>
    refine bind (libraryClass _) fun he₁ _ _ => ?_
    refine bind (newObject_none _) fun he₂ d _ => ?_
    refine bind (forM fun entry _ e₃ he₃ => ?_)
      fun he₃ _ _ => weaken (variableHolding _ d (hn.mono (by grind))) fun _ _ _ => trivial
    obtain ⟨name, v⟩ := entry
    refine bind (literalVar _) fun he₄ _ _ => ?_
    refine bind (fillTypeParam d _ _ (hn.mono (by grind))) fun he₅ _ _ => ?_
    refine bind (fillTypeParam d _ _ (hn.mono (by grind))) fun he₆ _ _ => ?_
    exact setMember (hn.mono (by grind)) d name v
  | some v =>
    dsimp only
    split
    · exact pure fun _ => trivial
    · exact weaken (newUnsolvable hn) fun _ _ _ => trivial

end Analysis.Follows

namespace Attempt.Follows

theorem bindArguments (hn : e.HasNode n) (p : Parameters) {args : CallArgs} (ha : e.HasArgs args) :
    Keeps e (Analysis.bindArguments n p args) fun _ _ => True := by
  unfold Analysis.bindArguments
  extract_lets surplus byName
  have hsurplus : e.HasVars surplus := Extent.HasVars.subset ha (List.drop_subset _ _)
  have hbyName {e' : Extent} (he : e ≤ e') (u : Unit) : Keeps e' (byName u) fun _ _ => True := by
    refine bind (ofExcept (Q := fun _ _ => True) fun _ _ _ _ => trivial) fun he₁ r _ => ?_
    obtain ⟨bound, keywords⟩ := r
    dsimp -zeta only
    extract_lets finish byDefault
    have hfinish {e' : Extent} (he : e ≤ e') (bound : Members) :
        Keeps e' (finish bound) fun _ _ => True := by
      dsimp only [finish]
      split
      · exact bind (liftTrue (.surplusDict (hn.mono he) ..)) fun _ _ _ => pure fun _ => trivial
      · exact pure fun _ => trivial
    have hbyDefault {e' : Extent} (he : e ≤ e') (u : Unit) :
        Keeps e' (byDefault u) fun _ _ => True := by
      refine bind (bindDefaults (hn.mono he) ..) fun he₁ bound _ =>
        bind (bindKwonly (hn.mono (by grind)) ..) fun he₂ bound _ => ?_
      split
      · exact bind (liftTrue (.surplusTuple (hn.mono (by grind)) _ _ (hsurplus.mono (by grind))))
          fun he₃ _ _ => bind (pure (Q := fun _ _ => True) fun _ => trivial) fun he₄ bound _ =>
            hfinish (by grind) bound
      · exact bind (pure (Q := fun _ _ => True) fun _ => trivial) fun he₃ bound _ =>
          hfinish (by grind) bound
    split
    · exact bind (throw (Q := fun _ _ => True) _) fun he₂ u _ => hbyDefault (by grind) u
    · exact hbyDefault (by grind) ()
  split
  · exact bind (throw (Q := fun _ _ => True) _) fun he u _ => hbyName he u
  · exact hbyName le_rfl ()

theorem checkAnnotated (n : NodeId) (f : FunctionValue) (bound : Members) :
    Keeps e (Analysis.checkAnnotated n f bound) fun _ _ => True := by
  refine bind get fun _ m _ => forM fun entry _ _ _ => ?_
  obtain ⟨name, cls⟩ := entry
  dsimp only
  split
  · refine bind (liftTrue (.dataAt ..)) fun _ data _ => ?_
    split
    · exact pure fun _ => trivial
    · exact throw _
  · exact pure fun _ => trivial

end Attempt.Follows

namespace Extent.HasSubst

variable {m : Matcher} {σ τ : Subst}

theorem add (hσ : e.HasSubst σ) (name : String) {source : TypeSource}
    (hs : ∀ b, source = .binding b → e.HasBinding b) : e.HasSubst (σ.add name source) := by
  intro name' sources h b hb
  unfold Subst.add at h
  rw [Std.TreeMap.getElem?_insert] at h
  split at h
  · cases h
    rcases List.mem_append.mp hb with hb | hb
    · rw [Std.TreeMap.getD_eq_getD_getElem?] at hb
      cases hold : σ[name]? with
      | none => rw [hold] at hb; cases hb
      | some old =>
        rw [hold] at hb
        exact hσ name old hold b hb
    · exact hs b (List.mem_singleton.mp hb).symm
  · exact hσ name' sources h b hb

/-- What type variables matched are bindings of the arguments. -/
theorem matchSignature {sig : Signature} {positional : List BindingId}
    {named : List (String × BindingId)} (hpositional : e.HasBindings positional)
    (hnamed : ∀ entry ∈ named, e.HasBinding entry.2)
    (h : m.matchSignature sig positional named = some τ) : e.HasSubst τ := by
  refine Matcher.matchSignature_preserves (fun b hb source hsource σ name hσ => hσ.add name ?_)
    (hasSubst_empty e) h
  rintro c rfl
  cases hsource
  rcases List.mem_append.mp hb with hb | hb
  · exact hpositional _ hb
  · obtain ⟨entry, hentry, rfl⟩ := List.mem_map.mp hb
    exact hnamed entry hentry

end Extent.HasSubst

namespace Analysis.Follows

theorem dictItem (hn : e.HasNode n) (f : NativeValue) (args : List VarId) :
    Keeps e (dictItem n f args) fun _ _ => True := by
  unfold Analysis.dictItem
  extract_lets operands
  clear_value operands
  split
  · next dict key assigned =>
    refine bind get fun he₁ m _ => ?_
    extract_lets store
    refine bind (dataAt dict n) fun he₂ data _ => ?_
    split
    · refine bind (dataAt key n) fun he₃ keys _ => ?_
      split
      · split
        · split
          · split
            · exact bind (setMember (hn.mono (by grind)) ..) fun _ _ _ => pure fun _ => trivial
            · split
              · refine bind (visible ..) fun he₄ bs _ => ?_
                split
                · exact pure fun _ => trivial
                · exact bind (copyVisible _ (hn.mono (by grind))) fun _ _ _ => pure fun _ => trivial
              · exact pure fun _ => trivial
          · exact pure fun _ => trivial
        · exact pure fun _ => trivial
      · exact pure fun _ => trivial
    · exact pure fun _ => trivial
  · exact pure fun _ => trivial

theorem mutate (hn : e.HasNode n) (f : NativeValue) (receiver : DataId) {σ : Subst}
    (hσ : e.HasSubst σ) : Keeps e (mutate n f receiver σ) fun _ _ => True := by
  refine forM fun name _ _ he => bind get fun he' m hm => ?_
  split
  · next sources p hs hp =>
    have hp := (hasStore hm).typeParam? hp
    exact pasteSources (hσ.mono (he.trans he')) hs hp (hn.mono (he.trans he'))
  · exact pure fun _ => trivial

/-- What a signature returns is bound to the result. -/
theorem bindResult {result : VarId} {view rs : List BindingId} (hn : e.HasNode n)
    (hresult : e.HasVar result) (hview : e.HasBindings view) (hrs : e.HasBindings rs) :
    Keeps e (rs.forM fun r => do Analysis.bind result (← Analysis.dataOf r) (view ++ [r]) n)
      fun _ _ => True := by
  refine forM fun r hr e' he => ?_
  have hsources : e'.HasBindings (view ++ [r]) := by
    intro b hb
    rcases List.mem_append.mp hb with hb | hb
    · exact (hview b hb).mono he
    · exact List.mem_singleton.mp hb ▸ (hrs r hr).mono he
  exact bind (dataOf r) fun he' d _ => bindVariable (hresult.mono (he.trans he'))
    (hn.mono (he.trans he')) (hsources.mono he') (by simp) d

theorem callView (hn : e.HasNode n) (f : NativeValue) (args : CallArgs) {result : VarId}
    (hresult : e.HasVar result) {view : List BindingId} (hview : e.HasBindings view) :
    Keeps e (callView n f args result view) fun _ _ => True := by
  unfold Analysis.callView
  refine bind get fun he₁ m _ => ?_
  dsimp only
  split
  · next sig σ hsig =>
    obtain ⟨sig', -, hsig'⟩ := List.exists_of_findSome?_eq_some hsig
    obtain ⟨τ, hτ, hpair⟩ := Option.map_eq_some_iff.mp hsig'
    cases hpair
    have hσ : e.HasSubst σ := .matchSignature (fun b hb => hview b (List.mem_of_mem_take hb))
      (fun entry hentry => hview _ (List.mem_of_mem_drop (List.of_mem_zip (a := entry.1)
        (b := entry.2) hentry).2)) hτ
    refine bind (instantiate (hn.mono he₁) (hσ.mono he₁) _ _) fun he₂ ret _ =>
      bind (allBindings ret) fun he₃ rs hrs => bind (bindResult (hn.mono (by grind))
        (hresult.mono (by grind)) (hview.mono (by grind)) hrs) fun he₄ _ _ => ?_
    split
    · exact bind (mutate (hn.mono (by grind)) f _ (hσ.mono (by grind))) fun _ _ _ =>
        pure fun _ => trivial
    · exact pure fun _ => trivial
  · exact pure fun _ => trivial

theorem describeArgs (n : NodeId) (sig : Option Signature) (args : CallArgs) :
    Keeps e (describeArgs n sig args) fun _ _ => True := by
  refine bind (mapM (R := fun _ _ => True) (fun _ _ => trivial) fun _ _ _ _ => ?_) fun _ _ _ => ?_
  · exact bind (typeNames ..) fun _ _ _ => pure fun _ => trivial
  refine bind (mapM (R := fun _ _ => True) (fun _ _ => trivial) fun _ _ _ _ => ?_) fun _ _ _ => ?_
  · exact bind (typeNames ..) fun _ _ _ => pure fun _ => trivial
  exact pure fun _ => trivial

end Analysis.Follows

namespace Attempt.Follows

/-- The attempt ends where it began with something that the analysis has given up on. -/
theorem unsolved (hn : e.HasNode n) :
    Keeps e (do return (n, ← (Analysis.newUnsolvable n : Attempt _)))
      fun e' r => e'.HasNode r.1 :=
  bind (liftTrue (Analysis.Follows.weaken (.newUnsolvable hn) fun _ _ _ => trivial)) fun he _ _ =>
    pure fun he' => hn.mono (he.trans he')

theorem callLibrary (hn : e.HasNode n) (f : NativeValue) (args : CallArgs) :
    Keeps e (Analysis.callLibrary n f args) fun e' r => e'.HasNode r.1 := by
  unfold Analysis.callLibrary
  split
  · exact unsolved hn
  · extract_lets vars sig accepted
    have haccepted {e' : Extent} (he : e ≤ e') (u : Unit) :
        Keeps e' (accepted u) fun e' r => e'.HasNode r.1 := by
      dsimp only [accepted]
      refine bind (mapM (R := Extent.HasBindings) (fun he hbs => hbs.mono he) fun v _ _ _ =>
        lift (.visible v n) fun he hbs => hbs.mono he) fun he₁ choices hchoices => ?_
      split
      · exact unsolved (hn.mono (by grind))
      · refine bind (liftTrue (.dictItem (hn.mono (by grind)) ..)) fun he₂ item _ => ?_
        split
        · exact pure fun he₃ => hn.mono (by grind)
        · refine bind (lift (.newVariable _) fun he hv => hv.mono he) fun he₃ result hresult =>
            bind get fun he₄ m _ => bind (mapM (R := fun _ _ => True) (fun _ _ => trivial)
              fun view hview _ he₅ => liftTrue (.callView (hn.mono (by grind)) f args
                (hresult.mono (by grind)) fun b hb => ?_)) fun he₅ fits _ => ?_
          · obtain ⟨options, hoptions, hb⟩ := mem_of_mem_views hview hb
            exact (hchoices options hoptions b hb).mono (by grind)
          · split
            · exact pure fun he₆ => hn.mono (by grind)
            · exact bind (liftTrue (.describeArgs ..)) fun _ _ _ => throw _
    split
    · exact bind (throw (Q := fun _ _ => True) _) fun he u _ => haccepted he u
    · exact haccepted le_rfl ()

end Attempt.Follows

end ValueTrace
