import ValueTrace.Call.Value
import ValueTrace.Proofs.Findings.Rollback
import ValueTrace.Proofs.Machine.Frames
import ValueTrace.Step.Instruction

/-! Calls, and what is computed with them, leave the frames as they are if what they call does. -/
namespace ValueTrace

/-- The attempt leaves all frames as they were, whether it succeeds or not. -/
abbrev Attempt.KeepsFrames {α : Type} (x : Attempt α) : Prop := Analysis.KeepsFrames x.run

def Caller.KeepsFrames (call : Caller) : Prop := ∀ n v args, (call n v args).KeepsFrames

namespace Attempt.KeepsFrames

variable {α β : Type} {x : Attempt α} {f : α → Attempt β}

theorem lift {x : Analysis α} (h : Analysis.KeepsFrames x) : KeepsFrames (liftM x : Attempt α) :=
  Analysis.Spares.map h

theorem pure (a : α) : KeepsFrames (pure a) := Analysis.Spares.pure _

theorem throw (e : CallFailure) : KeepsFrames (throw e : Attempt α) := Analysis.Spares.pure _

theorem get : KeepsFrames (get : Attempt Machine) := lift Analysis.Spares.get

theorem bind (hx : KeepsFrames x) (hf : ∀ a, KeepsFrames (f a)) : KeepsFrames (x >>= f) := by
  refine Analysis.Spares.bind (f := ExceptT.bindCont f) hx fun r => ?_
  cases r with
  | ok a => exact hf a
  | error e => exact Analysis.Spares.pure _

theorem ofExcept (r : Except CallFailure α) :
    KeepsFrames (MonadExcept.ofExcept r : Attempt α) := by
  cases r with
  | ok a => exact pure a
  | error e => exact throw e

theorem mapM {f : α → Attempt β} {l : List α} (h : ∀ a ∈ l, KeepsFrames (f a)) :
    KeepsFrames (l.mapM f) := by
  induction l with
  | nil => exact pure []
  | cons a l ih =>
    rw [List.mapM_cons]
    exact bind (h a List.mem_cons_self) fun _ =>
      bind (ih fun b hb => h b (List.mem_cons_of_mem _ hb)) fun _ => pure _

theorem forM {f : α → Attempt Unit} {l : List α} (h : ∀ a ∈ l, KeepsFrames (f a)) :
    KeepsFrames (l.forM f) := by
  induction l with
  | nil => exact pure ()
  | cons a l ih =>
    exact bind (h a List.mem_cons_self) fun _ => ih fun b hb => h b (List.mem_cons_of_mem _ hb)

end Attempt.KeepsFrames

namespace Analysis.Spares

variable {α β γ : Type} {π : Machine → γ} [Machine.Aside π] {call : Caller} {p : Path}
  {i : Instruction}

theorem liftM (z : Except Failure α) : KeepsFrames (liftM z) := by
  cases z with
  | ok a => exact pure a
  | error e => exact throw e

theorem lift (z : EStateM Failure Graph α) : KeepsFrames (lift z) := by
  refine ⟨fun m => ?_⟩
  unfold Analysis.lift
  cases z m.graph with
  | ok a g => rfl
  | error e g => rfl

theorem grow (z : Graph.Growth α) : KeepsFrames (grow z) := lift _

theorem foldlM {f : β → α → Analysis β} {l : List α} (h : ∀ b, ∀ a ∈ l, KeepsFrames (f b a))
    (b : β) : KeepsFrames (l.foldlM f b) := by
  induction l generalizing b with
  | nil => exact pure b
  | cons a l ih =>
    rw [List.foldlM_cons]
    exact bind (h b a List.mem_cons_self) fun c =>
      ih (fun c a ha => h c a (List.mem_cons_of_mem _ ha)) c

theorem frame : KeepsFrames frame := by
  refine bind get fun m => ?_
  split
  · exact pure _
  · exact throw _

theorem isBound (v : VarId) : KeepsFrames (isBound v) := bind (allBindings v) fun _ => pure _

theorem copyVisible (v : VarId) (n : NodeId) : Spares π (copyVisible v n) :=
  bind (visible v n) fun _ => onGraph _

theorem joinNodes (ns : List NodeId) : KeepsFrames (joinNodes ns) := by
  unfold Analysis.joinNodes
  split
  · exact throw _
  · exact pure _
  · exact grow _

theorem literalVar (c : Constant) : KeepsFrames (literalVar c) :=
  bind (constant [] c) fun _ => pure _

theorem truth (b : Option Bool) : KeepsFrames (truth b) := by
  cases b with
  | none => exact plainObject _
  | some b => exact literal _

theorem libraryBuiltin (name : String) : KeepsFrames (libraryBuiltin name) := by
  unfold Analysis.libraryBuiltin
  refine bind get fun m => ?_
  dsimp only
  split
  · exact map (libraryClass name)
  · exact optionMapM libraryFunction _

theorem memberVar (d : DataId) (name : String) : Spares π (memberVar d name) := by
  unfold Analysis.memberVar
  refine bind (value d) fun x => ?_
  split
  · exact pure _
  · split
    · exact pure _
    · exact bind (newVariable _) fun _ => bind (addMember ..) fun _ => pure _

theorem setMember (n : NodeId) (d : DataId) (name : String) (v : VarId) :
    Spares π (setMember n d name v) := by
  unfold Analysis.setMember
  refine bind (memberVar d name) fun o => ?_
  split
  · exact paste ..
  · exact pure _

theorem storeAttribute (n : NodeId) (obj : VarId) (name : String) (v : VarId) :
    KeepsFrames (storeAttribute n obj name v) :=
  bind (dataAt obj n) fun _ => forM fun _ _ => setMember ..

theorem usableBases (n : NodeId) (vs : List VarId) : KeepsFrames (usableBases n vs) := by
  induction vs with
  | nil => exact pure _
  | cons v vs ih =>
    unfold Analysis.usableBases
    refine bind (dataAt v n) fun data => bind get fun m => ?_
    dsimp only
    split
    · exact bind ih fun _ => pure _
    · exact bind (report ..) fun _ => bind ih fun _ => pure _

theorem makeClass (n : NodeId) (name : String) (bases : List VarId) (members : Members) :
    KeepsFrames (makeClass n name bases members) := by
  unfold Analysis.makeClass
  refine bind (usableBases n bases) fun usable => ?_
  obtain ⟨vars, classes⟩ := usable
  dsimp -zeta only
  extract_lets finish
  have hfinish (r : List VarId × List DataId) : KeepsFrames (finish r) := by
    refine bind (addValue _) fun id => bind get fun m => ?_
    dsimp only
    split
    · exact bind (setStore _) fun _ => variableWith ..
    · exact bind (report ..) fun _ => newUnsolvable n
  split
  · exact bind (libraryClass _) fun _ => bind (libraryClassVar _) fun _ => bind (pure _) hfinish
  · exact bind (pure _) hfinish

theorem newFrame (code : PlacedCode) (globals : NamespaceId) (locals : Option NamespaceId)
    (closure : List VarId) (args : Members) (n : NodeId) :
    KeepsFrames (newFrame code globals locals closure args n) := by
  unfold Analysis.newFrame
  extract_lets given finish
  have hfinish (ns : NamespaceId) : KeepsFrames (finish ns) := by
    refine bind (mapM fun name _ => bind (newVariable name) fun cell => ?_) fun cells => ?_
    · dsimp only
      split
      · exact bind (paste ..) fun _ => pure _
      · exact pure _
    refine bind (mapM fun entry _ => ?_) fun free => ?_
    · obtain ⟨name, k⟩ := entry
      dsimp only
      split
      · exact pure _
      · exact newVariable _
    refine bind (forM fun entry _ => ?_) fun _ => ?_
    · exact bind (newVariable _) fun _ => bind (paste ..) fun _ => setStore _
    exact bind (newVariable _) fun _ => bind (newVariable _) fun _ => pure _
  clear_value given
  cases given with
  | some ns => exact bind (pure _) hfinish
  | none => exact bind (onStore _) hfinish

theorem enterNode (n : NodeId) (name : String) : KeepsFrames (enterNode n name) := grow _

theorem typeNames (v : VarId) (n : NodeId) : KeepsFrames (typeNames v n) :=
  bind get fun _ => bind (dataAt v n) fun _ => pure _

theorem textIn (v : VarId) (n : NodeId) : KeepsFrames (textIn v n) :=
  bind get fun _ => bind (dataAt v n) fun _ => pure _

theorem callOrReport (hcall : call.KeepsFrames) (n : NodeId) (func : VarId) (args : CallArgs) :
    KeepsFrames (callOrReport call n func args) := by
  refine bind (hcall n func args) fun r => ?_
  cases r with
  | ok done => exact pure _
  | error e => exact bind (report ..) fun _ => bind (newUnsolvable n) fun _ => pure _

theorem callQuietly (hcall : call.KeepsFrames) (n : NodeId) (func : VarId) (args : CallArgs) :
    KeepsFrames (callQuietly call n func args) := by
  refine bind (hcall n func args) fun r => ?_
  cases r with
  | ok done => exact pure _
  | error e => exact bind (newVariable _) fun _ => pure _

theorem callMethod (hcall : call.KeepsFrames) (n : NodeId) (obj : VarId) (name : String)
    (args : List VarId) : KeepsFrames (callMethod call n obj name args) :=
  bind (loadAttribute ..) fun _ => callOrReport hcall ..

theorem surplusTuple (n : NodeId) (name : String) (star : Option VarId) (surplus : List VarId) :
    KeepsFrames (surplusTuple n name star surplus) := by
  unfold Analysis.surplusTuple
  cases star with
  | none => exact bind (tupleObject ..) fun _ => variableWith ..
  | some v =>
    dsimp only
    split
    · exact pure _
    · exact newUnsolvable n

theorem surplusDict (n : NodeId) (starStar : Option VarId) (surplus : List (String × VarId)) :
    KeepsFrames (surplusDict n starStar surplus) := by
  unfold Analysis.surplusDict
  cases starStar with
  | none =>
    refine bind (libraryClass _) fun _ => ?_
    refine bind (newObject ..) fun d => ?_
    refine bind (forM fun entry _ => ?_) fun _ => variableWith ..
    refine bind (literalVar _) fun _ => ?_
    refine bind (fillTypeParam ..) fun _ => ?_
    refine bind (fillTypeParam ..) fun _ => ?_
    exact setMember ..
  | some v =>
    dsimp only
    split
    · exact pure _
    · exact newUnsolvable n

theorem dictItem (n : NodeId) (f : NativeValue) (args : List VarId) :
    Spares π (dictItem n f args) := by
  unfold Analysis.dictItem
  extract_lets operands
  clear_value operands
  split
  · next dict key assigned =>
    refine bind get fun m => ?_
    extract_lets store
    refine bind (dataAt dict n) fun data => ?_
    split
    · refine bind (dataAt key n) fun keys => ?_
      split
      · split
        · split
          · split
            · exact bind (setMember ..) fun _ => pure _
            · split
              · refine bind (visible ..) fun bs => ?_
                split
                · exact pure _
                · exact bind (copyVisible ..) fun _ => pure _
              · exact pure _
          · exact pure _
        · exact pure _
      · exact pure _
    · exact pure _
  · exact pure _

theorem mutate (n : NodeId) (f : NativeValue) (receiver : DataId) (s : Subst) :
    KeepsFrames (mutate n f receiver s) := by
  refine forM fun name _ => bind get fun m => ?_
  split
  · exact forM fun _ _ => pasteSource ..
  · exact pure _

theorem callView (n : NodeId) (f : NativeValue) (args : CallArgs) (result : VarId)
    (view : List BindingId) : KeepsFrames (callView n f args result view) := by
  unfold Analysis.callView
  refine bind get fun m => ?_
  dsimp only
  split
  · refine bind (instantiate ..) fun ret => ?_
    refine bind (allBindings ret) fun rs => ?_
    refine bind (forM fun r _ => bind (dataOf r) fun _ => bindVariable ..) fun _ => ?_
    split
    · exact bind (mutate ..) fun _ => pure _
    · exact pure _
  · exact pure _

theorem describeArgs (n : NodeId) (sig : Option Signature) (args : CallArgs) :
    KeepsFrames (describeArgs n sig args) := by
  refine bind (mapM fun _ _ => bind (typeNames ..) fun _ => pure _) fun _ => ?_
  refine bind (mapM fun _ _ => bind (typeNames ..) fun _ => pure _) fun _ => ?_
  exact pure _

theorem callEach {call : NodeId → DataId → BindingId → CallArgs → Attempt (NodeId × VarId)}
    (hcall : ∀ n d b args, (call n d b args).KeepsFrames) :
    (Analysis.callEach call).KeepsFrames := by
  intro n func args
  refine bind (newVariable _) fun result => ?_
  refine bind (visible ..) fun bs => ?_
  refine bind (mapM fun b _ => bind (dataOf b) fun d => bind (hcall n d b args) fun _ => pure _)
    fun tries => ?_
  dsimp only
  split
  · split
    · exact pure _
    · exact pure _
  · exact bind (joinNodes _) fun stop => bind (forM fun entry _ => bind (visible ..) fun rs =>
      forM fun r _ => bind (dataOf r) fun _ => bindVariable ..) fun _ => pure _

theorem typeOf (n : NodeId) (v : VarId) : KeepsFrames (typeOf n v) := by
  refine bind (newVariable _) fun result => ?_
  refine bind (visible v n) fun bs => ?_
  refine bind (forM fun b _ => bind (dataOf b) fun d => bind (value d) fun x => ?_) fun _ => pure _
  extract_lets finish
  have hfinish (cls : DataId) : KeepsFrames (finish cls) := bindVariable ..
  split
  · exact bind (pure _) hfinish
  · exact bind (libraryClass _) hfinish
  · exact bind (libraryClass _) hfinish
  · exact bind (libraryClass _) hfinish
  · exact bind (libraryClass _) hfinish
  · exact bind (libraryClass _) hfinish
  · exact bind (libraryClass _) hfinish
  · exact bind (pure _) hfinish
  · exact bind (pure _) hfinish

theorem isInstance (n : NodeId) (obj cls : VarId) : KeepsFrames (isInstance n obj cls) := by
  refine bind (newVariable _) fun result => ?_
  refine bind (visible obj n) fun _ => ?_
  refine bind (visible cls n) fun _ => ?_
  refine bind (forM fun o _ => forM fun c _ => ?_) fun _ => pure _
  refine bind get fun _ => ?_
  refine bind (dataOf c) fun _ => ?_
  refine bind (dataOf o) fun _ => ?_
  refine bind (truth _) fun _ => ?_
  exact bindVariable ..

end Analysis.Spares

namespace Attempt.KeepsFrames

variable {n : NodeId}

theorem bindDefaults (p : Parameters) (args : CallArgs) (params : List (String × Nat))
    (bound : Members) : KeepsFrames (Analysis.bindDefaults n p args params bound) := by
  induction params generalizing bound with
  | nil => exact pure _
  | cons param params ih =>
    obtain ⟨name, i⟩ := param
    unfold Analysis.bindDefaults
    split
    · exact ih bound
    · split
      · exact ih _
      · split
        · exact bind (lift (.newUnknown n)) fun _ => ih _
        · split
          · exact throw _
          · exact throw _

theorem bindKwonly (p : Parameters) (args : CallArgs) (names : List String) (bound : Members) :
    KeepsFrames (Analysis.bindKwonly n p args names bound) := by
  induction names generalizing bound with
  | nil => exact pure _
  | cons name names ih =>
    unfold Analysis.bindKwonly
    split
    · exact ih bound
    · split
      · exact ih _
      · split
        · exact bind (lift (.newUnknown n)) fun _ => ih _
        · exact throw _

theorem bindArguments (p : Parameters) (args : CallArgs) :
    KeepsFrames (Analysis.bindArguments n p args) := by
  unfold Analysis.bindArguments
  extract_lets surplus byName
  have hbyName (u : Unit) : KeepsFrames (byName u) := by
    refine bind (ofExcept _) fun r => ?_
    obtain ⟨bound, keywords⟩ := r
    dsimp -zeta only
    extract_lets finish byDefault
    have hfinish (bound : Members) : KeepsFrames (finish bound) := by
      dsimp only [finish]
      split
      · exact bind (lift (.surplusDict ..)) fun _ => pure _
      · exact pure _
    have hbyDefault (u : Unit) : KeepsFrames (byDefault u) := by
      refine bind (bindDefaults ..) fun bound => bind (bindKwonly ..) fun bound => ?_
      split
      · exact bind (lift (.surplusTuple ..)) fun _ => bind (pure _) hfinish
      · exact bind (pure _) hfinish
    split
    · exact bind (throw _) hbyDefault
    · exact hbyDefault ()
  split
  · exact bind (throw _) hbyName
  · exact hbyName ()

theorem checkAnnotated (f : FunctionValue) (bound : Members) :
    KeepsFrames (Analysis.checkAnnotated n f bound) := by
  refine bind get fun m => forM fun entry _ => ?_
  obtain ⟨name, cls⟩ := entry
  dsimp only
  split
  · refine bind (lift (.dataAt ..)) fun data => ?_
    split
    · exact pure _
    · exact throw _
  · exact pure _

theorem callLibrary (f : NativeValue) (args : CallArgs) :
    KeepsFrames (Analysis.callLibrary n f args) := by
  unfold Analysis.callLibrary
  split
  · exact bind (lift (.newUnsolvable n)) fun _ => pure _
  · extract_lets vars sig accepted
    have haccepted (u : Unit) : KeepsFrames (accepted u) := by
      dsimp only [accepted]
      refine bind (mapM fun v _ => lift (.visible v n)) fun choices => ?_
      split
      · exact bind (lift (.newUnsolvable n)) fun _ => pure _
      · refine bind (lift (.dictItem ..)) fun item => ?_
        split
        · exact pure _
        · refine bind (lift (.newVariable _)) fun result => ?_
          refine bind get fun m => ?_
          refine bind (mapM fun view _ => lift (.callView ..)) fun fits => ?_
          split
          · exact pure _
          · exact bind (lift (.describeArgs ..)) fun _ => throw _
    split
    · exact bind (throw _) haccepted
    · exact haccepted ()

theorem instantiateClass {call : Caller} (hcall : call.KeepsFrames) (cls : DataId) (c : ClassValue)
    (args : CallArgs) : KeepsFrames (Analysis.instantiateClass call n cls c args) := by
  unfold Analysis.instantiateClass
  split
  · exact bind (lift (.typeOf ..)) fun _ => pure _
  · extract_lets finish
    have hfinish (d : DataId) : KeepsFrames (finish d) := by
      refine bind (lift (.variableWith ..)) fun v => ?_
      refine bind (lift (.allBindings v)) fun bs => ?_
      refine bind (lift (.attributeOf ..)) fun o => ?_
      split
      · exact pure _
      · exact bind (hcall ..) fun _ => pure _
    split
    · exact bind (lift (.sharedObject cls)) hfinish
    · exact bind (lift (.newObject ..)) hfinish

end Attempt.KeepsFrames

namespace Analysis.Spares

variable {α : Type} {call : Caller} {p : Path} {i : Instruction} {n : NodeId}

theorem argument (i : Instruction) : KeepsFrames (argument i) := by
  unfold Analysis.argument
  cases i.arg with
  | none => exact throw _
  | some n => exact pure n

theorem target (i : Instruction) : KeepsFrames (target i) := by
  unfold Analysis.target
  cases i.target with
  | none => exact throw _
  | some n => exact pure n

theorem entryAt (table : CodeTable) (entries : Frame → List α) (i : Instruction) :
    KeepsFrames (entryAt table entries i) := by
  refine bind (argument i) fun k => bind frame fun f => ?_
  cases (entries f)[k]? with
  | none => exact throw _
  | some a => exact pure a

theorem nameAt (i : Instruction) : KeepsFrames (nameAt i) := entryAt ..

theorem localAt (i : Instruction) : KeepsFrames (localAt i) := entryAt ..

theorem cellAt (i : Instruction) : KeepsFrames (cellAt i) := entryAt ..

theorem constAt (i : Instruction) : KeepsFrames (constAt i) := by
  refine bind (entryAt ..) fun _ => ?_
  refine bind frame fun _ => ?_
  refine bind (argument i) fun _ => ?_
  refine bind (constant ..) fun _ => ?_
  exact pure _

theorem visibleIn (ns : NamespaceId) (name : String) (n : NodeId) :
    KeepsFrames (visibleIn ns name n) := by
  refine bind get fun m => ?_
  split
  · exact pure _
  · exact bind (copyVisible ..) fun _ => bind (isBound _) fun _ => pure _

theorem visibleInAny (name : String) (n : NodeId) (scopes : List NamespaceId) :
    KeepsFrames (visibleInAny name n scopes) := by
  induction scopes with
  | nil => exact pure _
  | cons ns rest ih =>
    unfold Analysis.visibleInAny
    refine bind (visibleIn ns name n) fun o => ?_
    split
    · exact pure _
    · exact ih

theorem specialForm (form : SpecialForm) : KeepsFrames (specialForm form) :=
  bind (addValue _) fun _ => variableWith ..

theorem loadBuiltin (n : NodeId) (name : String) : KeepsFrames (loadBuiltin n name) := by
  unfold Analysis.loadBuiltin
  split
  · exact map (literalVar _)
  · exact map (literalVar _)
  · exact map (literalVar _)
  · exact map (specialForm _)
  · exact map (specialForm _)
  · exact map (bind (truth _) fun _ => variableWith ..)
  · exact map (newUnknown n)
  · refine bind (visibleIn ..) fun o => ?_
    split
    · exact pure _
    · exact bind (libraryBuiltin name) fun o => optionMapM (fun _ => variableWith ..) o

theorem loadName (scope : Scope) (name : String) (p : Path) :
    KeepsFrames (loadName scope name p) := by
  unfold Analysis.loadName
  refine bind frame fun f => bind (visibleInAny ..) fun o => ?_
  split
  · exact pure _
  · split
    · refine bind (libraryClassVar _) fun _ => ?_
      refine bind (newUnknown _) fun _ => ?_
      refine bind (newUnknown _) fun _ => ?_
      exact pure _
    · refine bind (loadBuiltin ..) fun o => ?_
      split
      · exact pure _
      · exact bind (report ..) fun _ => bind (newUnsolvable _) fun _ => pure _

theorem storeValue (n : NodeId) (ns : NamespaceId) (name : String) (v : VarId) :
    KeepsFrames (storeValue n ns name v) := by
  unfold Analysis.storeValue
  refine bind get fun m => ?_
  dsimp only
  split
  · exact bind (pure _) fun _ => paste ..
  · refine bind (newVariable _) fun _ => ?_
    refine bind (setStore _) fun _ => ?_
    refine bind (pure _) fun _ => ?_
    exact paste ..

theorem storeName (ns : NamespaceId) (name : String) (p : Path) :
    KeepsFrames (storeName ns name p) :=
  bind (liftM _) fun _ => bind (storeValue ..) fun _ => grow _

theorem loadCell (cell : VarId) (p : Path) : KeepsFrames (loadCell cell p) :=
  bind (copyVisible ..) fun _ => pure _

theorem storeCell (cell : VarId) (p : Path) : KeepsFrames (storeCell cell p) :=
  bind (liftM _) fun _ => bind (paste ..) fun _ => grow _

theorem loadLocals (p : Path) : KeepsFrames (loadLocals p) := by
  refine bind frame fun _ => ?_
  refine bind get fun _ => ?_
  refine bind (libraryClass _) fun _ => ?_
  refine bind (newObject ..) fun _ => ?_
  refine bind (setStore _) fun _ => ?_
  refine bind (variableWith ..) fun _ => ?_
  exact pure _

theorem objectMembers (v : VarId) (n : NodeId) : KeepsFrames (objectMembers v n) :=
  bind get fun _ => bind (dataAt v n) fun _ => pure _

theorem tryMethod (hcall : call.KeepsFrames) (n : NodeId) (obj : VarId) (method : String)
    (arg : VarId) : KeepsFrames (tryMethod call n obj method arg) := by
  unfold Analysis.tryMethod
  refine bind (loadAttribute? ..) fun o => ?_
  split
  · exact pure _
  · exact bind (callQuietly hcall ..) fun _ => bind (isBound _) fun _ => pure _

theorem tryOperator (hcall : call.KeepsFrames) (n : NodeId) (method : String) (x y : VarId) :
    KeepsFrames (tryOperator call n method x y) := by
  unfold Analysis.tryOperator
  refine bind (tryMethod hcall ..) fun o => ?_
  split
  · exact pure _
  · refine bind get fun m => ?_
    split
    · exact pure _
    · split
      · exact tryMethod hcall ..
      · exact pure _

theorem applyOperator (hcall : call.KeepsFrames) (n : NodeId) (method : String) (x y : VarId) :
    KeepsFrames (applyOperator call n method x y) := by
  unfold Analysis.applyOperator
  refine bind (tryOperator hcall ..) fun o => ?_
  have hfinish : KeepsFrames (do return (n, ← Analysis.newUnsolvable n)) :=
    bind (newUnsolvable n) fun _ => pure _
  split
  · exact pure _
  · refine bind (visible x n) fun _ => bind (visible y n) fun _ => ?_
    split
    · exact hfinish
    · refine bind (typeNames ..) fun _ => ?_
      refine bind (typeNames ..) fun _ => ?_
      refine bind (report ..) fun _ => ?_
      exact hfinish

theorem binaryOperator (hcall : call.KeepsFrames) (method : String) (p : Path) :
    KeepsFrames (binaryOperator call method p) :=
  bind (liftM _) fun _ => bind (applyOperator hcall ..) fun _ => pure _

theorem subscript (hcall : call.KeepsFrames) (p : Path) : KeepsFrames (subscript call p) := by
  rw [subscript_eq]
  exact binaryOperator hcall _ p

theorem runOperator (hcall : call.KeepsFrames) (op : Op) (p : Path) :
    KeepsFrames (runOperator call op p) := by
  unfold Analysis.runOperator
  split
  · exact binaryOperator hcall _ p
  · refine bind (liftM _) fun _ => bind (tryMethod hcall ..) fun o => ?_
    split
    · exact pure _
    · exact bind (applyOperator hcall ..) fun _ => pure _
  · exact pure _

theorem unaryOperator (hcall : call.KeepsFrames) (method : String) (p : Path) :
    KeepsFrames (unaryOperator call method p) :=
  bind (liftM _) fun _ => bind (callMethod hcall ..) fun _ => pure _

theorem unaryNot (p : Path) : KeepsFrames (unaryNot p) := by
  refine bind (liftM _) fun _ => ?_
  refine bind (newVariable _) fun _ => ?_
  refine bind (visible ..) fun _ => ?_
  refine bind (forM fun _ _ => bind get fun _ => bind (truth _) fun _ => bindVariable ..)
    fun _ => ?_
  exact pure _

theorem unaryConvert (p : Path) : KeepsFrames (unaryConvert p) := by
  refine bind (liftM _) fun _ => ?_
  refine bind (plainObject _) fun _ => ?_
  refine bind (variableWith ..) fun _ => ?_
  exact pure _

theorem unknownTruth (n : NodeId) (vars : List VarId) : KeepsFrames (unknownTruth n vars) := by
  refine bind (truth none) fun _ => ?_
  refine bind (newVariable _) fun _ => ?_
  refine bind get fun _ => ?_
  refine bind (bindVariable ..) fun _ => ?_
  exact pure _

theorem identity (n : NodeId) (x y : VarId) (negated : Bool) :
    KeepsFrames (identity n x y negated) := by
  refine bind (newVariable _) fun _ => ?_
  refine bind (visible ..) fun _ => ?_
  refine bind (visible ..) fun _ => ?_
  refine bind (forM fun a _ => forM fun b _ => ?_) fun _ => pure _
  refine bind get fun _ => ?_
  refine bind (dataOf a) fun _ => ?_
  refine bind (dataOf b) fun _ => ?_
  refine bind (truth _) fun _ => ?_
  exact bindVariable ..

theorem compareOperands (hcall : call.KeepsFrames) (number : Nat) (p : Path) :
    KeepsFrames (compareOperands call number p) := by
  unfold Analysis.compareOperands
  refine bind (liftM _) fun r => ?_
  obtain ⟨x, y, q⟩ := r
  cases Comparison.ofNat? number with
  | none => exact throw _
  | some c =>
    dsimp only
    split
    · refine bind (tryOperator hcall ..) fun o => ?_
      split
      · exact pure _
      · exact bind (newVariable _) fun _ => bind (unknownTruth ..) fun _ => pure _
    · split
      · exact bind (identity ..) fun _ => pure _
      · exact bind (identity ..) fun _ => pure _
      · exact bind (unknownTruth ..) fun _ => pure _

theorem buildTuple (count : Nat) (p : Path) : KeepsFrames (buildTuple count p) := by
  refine bind (liftM _) fun _ => ?_
  refine bind (tupleObject ..) fun _ => ?_
  refine bind (variableWith ..) fun _ => ?_
  exact pure _

theorem buildContainer (cls : String) (count : Nat) (p : Path) :
    KeepsFrames (buildContainer cls count p) := by
  refine bind (liftM _) fun _ => ?_
  refine bind (libraryClass _) fun _ => ?_
  refine bind (newObject ..) fun _ => ?_
  refine bind (fillTypeParam ..) fun _ => ?_
  refine bind (variableWith ..) fun _ => ?_
  exact pure _

theorem buildMap (p : Path) : KeepsFrames (buildMap p) := by
  refine bind (libraryClass _) fun _ => ?_
  refine bind (newObject ..) fun _ => ?_
  refine bind (variableWith ..) fun _ => ?_
  exact pure _

theorem newSlice (n : NodeId) : KeepsFrames (newSlice n) :=
  bind (plainObject _) fun _ => variableWith ..

theorem buildSlice (count : Nat) (p : Path) : KeepsFrames (buildSlice count p) :=
  bind (liftM _) fun _ => bind (newSlice _) fun _ => pure _

theorem storeItem (hcall : call.KeepsFrames) (obj key v : VarId) (p : Path) :
    KeepsFrames (storeItem call obj key v p) := bind (callMethod hcall ..) fun _ => pure _

theorem addEntry (hcall : call.KeepsFrames) {depth : Analysis Nat} (hdepth : KeepsFrames depth)
    (p : Path) : KeepsFrames (addEntry call depth p) := by
  refine bind (liftM _) fun _ => ?_
  refine bind hdepth fun _ => ?_
  refine bind (liftM _) fun _ => ?_
  exact storeItem hcall ..

theorem storeSubscript (hcall : call.KeepsFrames) (p : Path) :
    KeepsFrames (storeSubscript call p) :=
  bind (liftM _) fun _ => bind (storeItem hcall ..) fun _ => grow _

theorem deleteSubscript (hcall : call.KeepsFrames) (p : Path) :
    KeepsFrames (deleteSubscript call p) :=
  bind (liftM _) fun _ => bind (callMethod hcall ..) fun _ => pure _

theorem addItem (hcall : call.KeepsFrames) (method : String) {depth : Analysis Nat}
    (hdepth : KeepsFrames depth) (p : Path) : KeepsFrames (addItem call method depth p) := by
  refine bind (liftM _) fun _ => ?_
  refine bind hdepth fun _ => ?_
  refine bind (liftM _) fun _ => ?_
  refine bind (callMethod hcall ..) fun _ => ?_
  exact pure _

theorem loadSlice (hcall : call.KeepsFrames) (bounds : Nat) (p : Path) :
    KeepsFrames (loadSlice call bounds p) := by
  refine bind (liftM _) fun _ => ?_
  refine bind (liftM _) fun _ => ?_
  refine bind (newSlice _) fun _ => ?_
  refine bind (applyOperator hcall ..) fun _ => ?_
  exact pure _

theorem storeSlice (hcall : call.KeepsFrames) (bounds : Nat) (p : Path) :
    KeepsFrames (storeSlice call bounds p) := by
  refine bind (liftM _) fun _ => ?_
  refine bind (liftM _) fun _ => ?_
  refine bind (liftM _) fun _ => ?_
  refine bind (newSlice _) fun _ => ?_
  exact storeItem hcall ..

theorem deleteSlice (hcall : call.KeepsFrames) (bounds : Nat) (p : Path) :
    KeepsFrames (deleteSlice call bounds p) := by
  refine bind (liftM _) fun _ => ?_
  refine bind (liftM _) fun _ => ?_
  refine bind (newSlice _) fun _ => ?_
  refine bind (callMethod hcall ..) fun _ => ?_
  exact pure _

theorem pasteVia (dst src : VarId) (via : BindingId) (n : NodeId) :
    KeepsFrames (pasteVia dst src via n) :=
  bind (allBindings src) fun _ => forM fun b _ => bind (dataOf b) fun _ => bindVariable ..

theorem unpackValue (n : NodeId) (outputs : List VarId) (b : BindingId) :
    KeepsFrames (unpackValue n outputs b) := by
  unfold Analysis.unpackValue
  refine bind get fun m => bind (dataOf b) fun d => ?_
  dsimp only
  split
  · exact forM fun _ _ => pasteVia ..
  · exact forM fun _ _ => pasteVia ..
  · exact forM fun _ _ => bindVariable ..

theorem unpack (count : Nat) (p : Path) : KeepsFrames (unpack count p) := by
  refine bind (liftM _) fun _ => ?_
  refine bind (mapM fun _ _ => newVariable _) fun _ => ?_
  refine bind (visible ..) fun _ => ?_
  refine bind (forM fun _ _ => unpackValue ..) fun _ => ?_
  exact pure _

theorem getIterator (hcall : call.KeepsFrames) (p : Path) : KeepsFrames (getIterator call p) := by
  unfold Analysis.getIterator
  refine bind (liftM _) fun r => ?_
  obtain ⟨seq, q⟩ := r
  refine bind (loadAttribute? ..) fun o => ?_
  split
  · exact bind (callOrReport hcall ..) fun _ => pure _
  · refine bind (loadAttribute? ..) fun o => ?_
    split
    · exact bind (newUnsolvable _) fun _ => pure _
    · exact bind (loadAttribute ..) fun _ => pure _

theorem isAllNone (v : VarId) (n : NodeId) : KeepsFrames (isAllNone v n) :=
  bind get fun _ => bind (dataAt v n) fun _ => pure _

theorem leaveContext (hcall : call.KeepsFrames) (p : Path) :
    KeepsFrames (leaveContext call p) := by
  unfold Analysis.leaveContext
  refine bind (liftM _) fun v => bind (isAllNone ..) fun nothing => ?_
  split
  · exact bind (liftM _) fun _ => bind (callOrReport hcall ..) fun _ => pure _
  · refine bind (liftM _) fun _ => ?_
    refine bind (liftM _) fun _ => ?_
    refine bind (callOrReport hcall ..) fun _ => ?_
    exact pure _

theorem endCleanup (p : Path) : KeepsFrames (endCleanup p) := by
  unfold Analysis.endCleanup
  refine bind (liftM _) fun r => bind (isAllNone ..) fun nothing => ?_
  split
  · exact pure _
  · exact liftM _

theorem unknownException (n : NodeId) : KeepsFrames (unknownException n) := by
  refine bind (newUnknown n) fun _ => ?_
  refine bind (newUnknown n) fun _ => ?_
  refine bind (newUnknown n) fun _ => ?_
  exact pure _

theorem raise (count : Nat) (p : Path) : KeepsFrames (raise count p) := by
  unfold Analysis.raise
  split
  · split
    · exact bind (pure _) fun _ => pure _
    · exact bind (unknownException _) fun _ => pure _
  · refine bind (liftM _) fun r => ?_
    refine bind (unknownException _) fun e => ?_
    refine bind get fun m => ?_
    split
    · exact pure _
    · exact pure _

theorem returnValue (p : Path) : KeepsFrames (returnValue p) := by
  refine bind (liftM _) fun _ => ?_
  refine bind frame fun _ => ?_
  refine bind (paste ..) fun _ => ?_
  exact pure _

theorem yieldValue (p : Path) : KeepsFrames (yieldValue p) := by
  refine bind (liftM _) fun _ => ?_
  refine bind frame fun _ => ?_
  refine bind (paste ..) fun _ => ?_
  exact pure _

theorem tupleItems (v : VarId) (n : NodeId) : KeepsFrames (tupleItems v n) := by
  refine bind (dataAt v n) fun data => ?_
  split
  · exact bind get fun _ => pure _
  · exact pure _

theorem namedPairs (n : NodeId) (vs : List VarId) : KeepsFrames (namedPairs n vs) :=
  mapM fun _ _ => bind (textIn ..) fun _ => pure _

theorem callOperands (hcall : call.KeepsFrames) (counts : Nat) (star starStar : Option VarId)
    (p : Path) : KeepsFrames (callOperands call counts star starStar p) := by
  unfold Analysis.callOperands
  refine bind (liftM _) fun _ => ?_
  refine bind (namedPairs ..) fun _ => ?_
  refine bind (liftM _) fun _ => ?_
  refine bind (liftM _) fun _ => ?_
  cases star with
  | none => exact bind (pure _) fun _ => bind (callOrReport hcall ..) fun _ => pure _
  | some v => exact bind (tupleItems ..) fun _ => bind (callOrReport hcall ..) fun _ => pure _

theorem popIf (present : Bool) (p : Path) : KeepsFrames (callWith.popIf present p) := by
  unfold callWith.popIf
  cases present with
  | true => exact bind (liftM _) fun _ => pure _
  | false => exact pure _

theorem callWith (hcall : call.KeepsFrames) (i : Instruction) (hasStar hasStarStar : Bool)
    (p : Path) : KeepsFrames (callWith call i hasStar hasStarStar p) := by
  refine bind (argument i) fun _ => ?_
  refine bind (popIf ..) fun _ => ?_
  refine bind (popIf ..) fun _ => ?_
  exact callOperands hcall ..

theorem annotatedClass (n : NodeId) (name : String) (v : VarId) :
    KeepsFrames (annotatedClass n name v) := by
  unfold Analysis.annotatedClass
  refine bind get fun m => bind (dataAt v n) fun data => ?_
  extract_lets single finish
  have hfinish (u : Unit) : KeepsFrames (finish u) := bind (report ..) fun _ => pure _
  clear_value single
  cases single with
  | none => exact hfinish ()
  | some d =>
    dsimp only
    split
    · exact pure _
    · split
      · exact pure _
      · exact hfinish ()

theorem popAnnotated (count : Nat) (p : Path) : KeepsFrames (popAnnotated count p) := by
  unfold Analysis.popAnnotated
  split
  · exact pure _
  · refine bind (liftM _) fun _ => ?_
    refine bind (liftM _) fun _ => ?_
    refine bind (tupleItems ..) fun _ => ?_
    refine bind (mapM fun _ _ => textIn ..) fun names => ?_
    refine bind (foldlM (fun classes entry _ => ?_) _) fun _ => pure _
    obtain ⟨name, v⟩ := entry
    dsimp only
    split
    · exact pure _
    · refine bind (annotatedClass ..) fun o => ?_
      cases o with
      | some d => exact pure _
      | none => exact pure _

theorem popFunctionParts (counts : Nat) (hasClosure : Bool) (p : Path) :
    KeepsFrames (popFunctionParts counts hasClosure p) := by
  unfold Analysis.popFunctionParts
  refine bind get fun m => ?_
  extract_lets third finish
  have hfinish (r : List VarId × Path) : KeepsFrames (finish r) := by
    dsimp only [finish]
    split
    · refine bind (popAnnotated ..) fun _ => ?_
      refine bind (liftM _) fun _ => ?_
      refine bind (namedPairs ..) fun _ => ?_
      refine bind (liftM _) fun _ => ?_
      exact pure _
    · exact bind (liftM _) fun _ => pure _
  split
  · exact bind (liftM _) fun _ => bind (tupleItems ..) fun _ => bind (pure _) hfinish
  · exact bind (pure _) hfinish

theorem makeFunction (i : Instruction) (hasClosure : Bool) (p : Path) :
    KeepsFrames (makeFunction i hasClosure p) := by
  unfold Analysis.makeFunction
  refine bind (argument i) fun counts => bind get fun m => ?_
  extract_lets finish
  have hfinish (q : Path) : KeepsFrames (finish q) := by
    refine bind (liftM _) fun _ => ?_
    refine bind (popFunctionParts ..) fun _ => ?_
    refine bind get fun _ => ?_
    refine bind (dataAt ..) fun _ => ?_
    dsimp only
    split
    · exact bind (newUnsolvable _) fun _ => pure _
    · refine bind frame fun _ => ?_
      refine bind (addValue _) fun _ => ?_
      refine bind (variableWith ..) fun _ => ?_
      exact pure _
  split
  · exact bind (liftM _) hfinish
  · exact bind (pure _) hfinish

theorem buildClassFromParts (p : Path) : KeepsFrames (buildClassFromParts p) := by
  refine bind (liftM _) fun _ => ?_
  refine bind get fun _ => ?_
  refine bind (textIn ..) fun _ => ?_
  refine bind (dataAt ..) fun _ => ?_
  refine bind (objectMembers ..) fun _ => ?_
  refine bind (makeClass ..) fun _ => ?_
  exact pure _

theorem intIn (v : VarId) (n : NodeId) : KeepsFrames (intIn v n) :=
  bind get fun _ => bind (dataAt v n) fun _ => pure _

theorem importModule (n : NodeId) (name : String) (level : Int) (isFrom : Bool) :
    KeepsFrames (importModule n name level isFrom) := by
  unfold Analysis.importModule
  extract_lets push find
  have hpush (d : DataId) : KeepsFrames (push d) := bind (value d) fun _ => variableWith ..
  have hfind (o : Option DataId) : KeepsFrames (find o) := by
    dsimp only [find]
    cases o with
    | none => exact bind (report ..) fun _ => newUnsolvable n
    | some d =>
      dsimp only
      split
      · exact bind (pure d) hpush
      · exact bind (libraryModule _) fun _ => bind (pure _) hpush
  split
  · exact bind (pure none) hfind
  · exact bind (libraryModule name) hfind

theorem importName (name : String) (p : Path) : KeepsFrames (importName name p) := by
  refine bind (liftM _) fun _ => ?_
  refine bind (intIn ..) fun _ => ?_
  refine bind get fun _ => ?_
  refine bind (dataAt ..) fun _ => ?_
  refine bind (importModule ..) fun _ => ?_
  exact pure _

theorem importFrom (name : String) (p : Path) : KeepsFrames (importFrom name p) := by
  unfold Analysis.importFrom
  refine bind (liftM _) fun module => ?_
  refine bind (newVariable name) fun result => ?_
  refine bind (visible ..) fun bs => ?_
  refine bind (mapM fun b _ => ?_) fun found => ?_
  · refine bind (dataOf b) fun d => bind (value d) fun x => ?_
    split
    · exact bind (bindVariable ..) fun _ => pure _
    · refine bind (attributeOf ..) fun o => ?_
      split
      · exact pasteAttribute ..
      · exact pure _
  · split
    · exact pure _
    · refine bind get fun _ => ?_
      refine bind (report ..) fun _ => ?_
      refine bind (newUnsolvable _) fun _ => ?_
      exact pure _

theorem importStar (p : Path) : KeepsFrames (importStar p) := by
  refine bind (liftM _) fun r => ?_
  refine bind frame fun f => ?_
  refine bind get fun m => ?_
  refine bind (dataAt ..) fun data => ?_
  refine bind (forM fun d _ => bind (value d) fun x => ?_) fun _ => grow _
  split
  · split
    · refine forM fun k _ => bind (attributeOf ..) fun o => ?_
      split
      · exact storeValue ..
      · exact pure _
    · exact pure _
  · exact pure _

end Analysis.Spares

end ValueTrace
