import ValueTrace.Call.Value
import ValueTrace.Proofs.Safety.Frames
import ValueTrace.Proofs.Safety.Lookups

/-! Calls do nothing unexpected if the code that they run does not. -/

namespace ValueTrace

variable {S : Setting} {n : NodeId}

namespace Attempt.Agree

theorem bindDefaults (p : Parameters) (args : CallArgs) (params : List (String × Nat))
    (bound : Members) : Safe S (Analysis.bindDefaults n p args params bound) fun _ => True := by
  induction params generalizing bound with
  | nil => exact pure trivial
  | cons param params ih =>
    obtain ⟨name, i⟩ := param
    unfold Analysis.bindDefaults
    split
    · exact ih bound
    · split
      · exact ih _
      · split
        · exact bind (lift (.newUnknown n)) fun _ _ => ih _
        · split
          · exact throw _
          · exact throw _

theorem bindKwonly (p : Parameters) (args : CallArgs) (names : List String) (bound : Members) :
    Safe S (Analysis.bindKwonly n p args names bound) fun _ => True := by
  induction names generalizing bound with
  | nil => exact pure trivial
  | cons name names ih =>
    unfold Analysis.bindKwonly
    split
    · exact ih bound
    · split
      · exact ih _
      · split
        · exact bind (lift (.newUnknown n)) fun _ _ => ih _
        · exact throw _

end Attempt.Agree

namespace Analysis.Agree

theorem surplusTuple (name : String) (star : Option VarId) (surplus : List VarId) :
    Safe S (surplusTuple n name star surplus) fun _ => True := by
  unfold Analysis.surplusTuple
  cases star with
  | none => exact bind (tupleObject ..) fun _ _ => variableWith ..
  | some v =>
    dsimp only
    split
    · exact pure trivial
    · exact newUnsolvable n

theorem surplusDict (starStar : Option VarId) (surplus : List (String × VarId)) :
    Safe S (surplusDict n starStar surplus) fun _ => True := by
  unfold Analysis.surplusDict
  cases starStar with
  | none =>
    refine bind (libraryClass (needed (by decide))) fun _ _ => ?_
    refine bind (newObject_none _) fun d _ => ?_
    refine bind (forM fun entry _ => ?_) fun _ _ => variableWith ..
    obtain ⟨name, v⟩ := entry
    refine bind (literalVar rfl) fun _ _ => ?_
    refine bind (fillTypeParam ..) fun _ _ => ?_
    refine bind (fillTypeParam ..) fun _ _ => ?_
    exact setMember ..
  | some v =>
    dsimp only
    split
    · exact pure trivial
    · exact newUnsolvable n

end Analysis.Agree

namespace Attempt.Agree

theorem bindArguments (p : Parameters) (args : CallArgs) :
    Safe S (Analysis.bindArguments n p args) fun _ => True := by
  unfold Analysis.bindArguments
  extract_lets surplus byName
  have hbyName (u : Unit) : Safe S (byName u) fun _ => True := by
    refine bind (ofExcept (Q := fun _ => True) fun _ _ => trivial) fun r _ => ?_
    obtain ⟨bound, keywords⟩ := r
    dsimp -zeta only
    extract_lets finish byDefault
    have hfinish (bound : Members) : Safe S (finish bound) fun _ => True := by
      dsimp only [finish]
      split
      · exact bind (lift (.surplusDict ..)) fun _ _ => pure trivial
      · exact pure trivial
    have hbyDefault (u : Unit) : Safe S (byDefault u) fun _ => True := by
      refine bind (bindDefaults ..) fun bound _ => bind (bindKwonly ..) fun bound _ => ?_
      split
      · exact bind (lift (.surplusTuple ..)) fun _ _ =>
          bind (pure (Q := fun _ => True) trivial) fun bound _ => hfinish bound
      · exact bind (pure (Q := fun _ => True) trivial) fun bound _ => hfinish bound
    split
    · exact bind (throw (Q := fun _ => True) _) fun u _ => hbyDefault u
    · exact hbyDefault ()
  split
  · exact bind (throw (Q := fun _ => True) _) fun u _ => hbyName u
  · exact hbyName ()

theorem checkAnnotated (f : FunctionValue) (bound : Members) :
    Safe S (Analysis.checkAnnotated n f bound) fun _ => True := by
  refine bind get fun m _ => forM fun entry _ => ?_
  obtain ⟨name, cls⟩ := entry
  dsimp only
  split
  · refine bind (lift (.dataAt ..)) fun data _ => ?_
    split
    · exact pure trivial
    · exact throw _
  · exact pure trivial

end Attempt.Agree

namespace Analysis.Agree

theorem dictItem (f : NativeValue) (args : List VarId) :
    Safe S (dictItem n f args) fun _ => True := by
  unfold Analysis.dictItem
  extract_lets operands
  clear_value operands
  split
  · next dict key assigned =>
    refine bind get fun m _ => ?_
    extract_lets store
    refine bind (dataAt dict n) fun data _ => ?_
    split
    · refine bind (dataAt key n) fun keys _ => ?_
      split
      · split
        · split
          · split
            · exact bind (setMember ..) fun _ _ => pure trivial
            · split
              · refine bind (visible ..) fun bs _ => ?_
                split
                · exact pure trivial
                · exact bind (copyVisible ..) fun _ _ => pure trivial
              · exact pure trivial
          · exact pure trivial
        · exact pure trivial
      · exact pure trivial
    · exact pure trivial
  · exact pure trivial

theorem mutate (f : NativeValue) (receiver : DataId) (s : Subst) :
    Safe S (mutate n f receiver s) fun _ => True := by
  refine forM fun name _ => bind get fun m _ => ?_
  split
  · exact forM fun _ _ => pasteSource ..
  · exact pure trivial

theorem callView {f : NativeValue} (hf : S.library.Returns f.signatures) (args : CallArgs)
    (result : VarId) (view : List BindingId) :
    Safe S (callView n f args result view) fun _ => True := by
  unfold Analysis.callView
  refine bind get fun m _ => ?_
  dsimp only
  split
  · next sig s hsig =>
    obtain ⟨sig', hmem, hsig'⟩ := List.exists_of_findSome?_eq_some hsig
    have hsame : sig' = sig := by
      obtain ⟨_, -, h⟩ := Option.map_eq_some_iff.mp hsig'
      exact congrArg Prod.fst h
    subst hsame
    refine bind (instantiate _ _ _ _ (hf _ hmem)) fun ret _ => ?_
    refine bind (allBindings ret) fun rs _ => ?_
    refine bind (forM fun r _ => bind (dataOf r) fun _ _ => bindVariable ..) fun _ _ => ?_
    split
    · exact bind (mutate ..) fun _ _ => pure trivial
    · exact pure trivial
  · exact pure trivial

theorem describeArgs (sig : Option Signature) (args : CallArgs) :
    Safe S (describeArgs n sig args) fun _ => True := by
  refine bind (mapM (R := fun _ => True) fun _ _ => ?_) fun _ _ => ?_
  · exact bind (typeNames ..) fun _ _ => pure trivial
  refine bind (mapM (R := fun _ => True) fun _ _ => ?_) fun _ _ => ?_
  · exact bind (typeNames ..) fun _ _ => pure trivial
  exact pure trivial

end Analysis.Agree

namespace Attempt.Agree

theorem callLibrary {f : NativeValue} (hf : S.library.Returns f.signatures) (args : CallArgs) :
    Safe S (Analysis.callLibrary n f args) fun _ => True := by
  unfold Analysis.callLibrary
  split
  · exact bind (lift (.newUnsolvable n)) fun _ _ => pure trivial
  · extract_lets vars sig accepted
    have haccepted (u : Unit) : Safe S (accepted u) fun _ => True := by
      dsimp only [accepted]
      refine bind (mapM fun v _ => lift (.visible v n)) fun choices _ => ?_
      split
      · exact bind (lift (.newUnsolvable n)) fun _ _ => pure trivial
      · refine bind (lift (.dictItem ..)) fun item _ => ?_
        split
        · exact pure trivial
        · refine bind (lift (.newVariable _)) fun result _ => ?_
          refine bind get fun m _ => ?_
          refine bind (mapM fun view _ => lift (.callView hf ..)) fun fits _ => ?_
          split
          · exact pure trivial
          · exact bind (lift (.describeArgs ..)) fun _ _ => throw _
    split
    · exact bind (throw (Q := fun _ => True) _) fun u _ => haccepted u
    · exact haccepted ()

end Attempt.Agree

end ValueTrace
