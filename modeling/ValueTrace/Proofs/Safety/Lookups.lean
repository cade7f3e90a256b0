import ValueTrace.Proofs.Safety.Values
import ValueTrace.Step.Functions
import ValueTrace.Step.Imports
import ValueTrace.Step.Regions

/-! Names, attributes and classes: looking them up and storing them does nothing unexpected. -/
namespace ValueTrace.Analysis.Agree

variable {S : Setting}

theorem addMember (d : DataId) (name : String) (v : VarId) :
    Safe S (addMember d name v) fun _ => True := by
  refine modifyValue (fun x hx => ?_) rfl fun c => ⟨_, rfl, rfl, rfl⟩
  cases x with
  | object o =>
    obtain ⟨cls, params, members, payload⟩ := o
    rcases payload with _ | _ | _ | _ <;> exact hx
  | function f => exact hx
  | native f => exact hx
  | ofClass _ | method _ _ | module _ _ | unknown _ | unsolvable | special _ => trivial

theorem libraryMember (cls : DataId) (name : String) :
    Safe S (libraryMember cls name) fun _ => True := by
  unfold Analysis.libraryMember
  refine bind get fun m hm => ?_
  rw [hm.library_eq]
  cases hdecl : S.library.class? (m.store.className cls) with
  | none => exact pure trivial
  | some decl =>
    dsimp only
    split
    · next f hf =>
      refine bind (libraryFunction (S.complete.method hdecl hf)) fun _ _ => ?_
      refine bind (variableWith ..) fun v _ => ?_
      refine bind (addMember ..) fun _ _ => ?_
      exact pure trivial
    · next t _ ht =>
      exact bind (instantiate _ _ _ t (S.complete.slot hdecl ht)) fun v _ =>
        bind (addMember ..) fun _ _ => pure trivial
    · exact pure trivial

theorem memberAlong (name : String) (ds : List DataId) :
    Safe S (memberAlong name ds) fun _ => True := by
  induction ds with
  | nil => exact pure trivial
  | cons d ds ih =>
    unfold Analysis.memberAlong
    refine bind get fun m _ => ?_
    split
    · exact ih
    · split
      · exact pure trivial
      · split
        · refine bind (libraryMember d name) fun v _ => ?_
          split
          · exact pure trivial
          · exact ih
        · exact ih

theorem classMember (cls : DataId) (name : String) : Safe S (classMember cls name) fun _ => True :=
  bind get fun _ _ => memberAlong ..

theorem moduleMember (d : DataId) (module : String) (members : Members) (name : String) :
    Safe S (moduleMember d module members name) fun _ => True := by
  unfold Analysis.moduleMember
  extract_lets finish
  have hfinish (v : VarId) : Safe S (finish v) fun _ => True :=
    bind (addMember ..) fun _ _ => pure trivial
  split
  · exact pure trivial
  · refine bind get fun m hm => ?_
    rw [hm.library_eq]
    dsimp only
    split
    · split
      · next f hf =>
        exact bind (libraryFunction (S.complete.function hf)) fun _ _ =>
          bind (variableWith ..) fun v _ => hfinish v
      · exact pure trivial
    · next c hc =>
      obtain ⟨decl, hdecl, hmember⟩ := Option.bind_eq_some_iff.mp hc
      exact bind (libraryClassVar (S.complete.member hdecl hmember)) fun v _ => hfinish v
    · next t ht =>
      obtain ⟨decl, hdecl, hmember⟩ := Option.bind_eq_some_iff.mp ht
      exact bind (instantiate _ _ _ t (S.complete.constant hdecl hmember)) fun v _ => hfinish v
    · refine bind (libraryModule _) fun d _ => ?_
      split
      · exact bind (variableWith ..) fun v _ => hfinish v
      · exact pure trivial

theorem bindMethods (n : NodeId) (d : DataId) (attr : VarId) (receiver : Option BindingId) :
    Safe S (bindMethods n d attr receiver) fun _ => True := by
  unfold Analysis.bindMethods
  refine bind get fun m _ => ?_
  dsimp only
  split
  · exact pure trivial
  · refine bind (variableWith ..) fun self _ => ?_
    refine bind (newVariable _) fun bound _ => ?_
    refine bind (allBindings attr) fun bs _ => ?_
    refine bind (forM fun b _ => ?_) fun _ _ => pure trivial
    refine bind (dataOf b) fun f _ => bind (value f) fun x _ => ?_
    split
    · exact bind (addValue trivial) fun _ _ => bindVariable ..
    · exact bindVariable ..

theorem ofFunction (name : String) (members : Members) :
    Safe S (attributeOf.ofFunction name members) fun _ => True := by
  unfold attributeOf.ofFunction
  split
  · exact pure trivial
  · exact bind (libraryClass (needed (by decide))) fun cls _ => classMember cls name

theorem attributeOf (n : NodeId) (d : DataId) (name : String) (receiver : Option BindingId) :
    Safe S (attributeOf n d name receiver) fun _ => True := by
  unfold Analysis.attributeOf
  refine bind (value d) fun x _ => ?_
  split
  · split
    · exact pure trivial
    · exact bind (classMember ..) fun _ _ => optionMapM fun _ => bindMethods ..
  · exact classMember d name
  · exact ofFunction ..
  · exact ofFunction ..
  · exact ofFunction ..
  · refine bind (value _) fun x _ => ?_
    split
    · exact ofFunction ..
    · exact ofFunction ..
  · exact moduleMember ..
  · split
    · exact pure trivial
    · exact bind (newUnknown _) fun v _ => bind (addMember ..) fun _ _ => pure trivial
  · exact map (newUnsolvable n) fun _ _ => trivial

theorem pasteAttribute (n : NodeId) (result attr : VarId) (b : BindingId) :
    Safe S (pasteAttribute n result attr b) fun _ => True :=
  bind (visible attr n) fun _ _ =>
    bind (forM fun a _ => bind (dataOf a) fun _ _ => bindVariable ..) fun _ _ => pure trivial

theorem loadAttribute? (n : NodeId) (obj : VarId) (name : String) :
    Safe S (loadAttribute? n obj name) fun _ => True := by
  unfold Analysis.loadAttribute?
  refine bind (newVariable name) fun result _ => ?_
  refine bind (visible obj n) fun bs _ => ?_
  refine bind (mapM fun b _ => (?_ : Safe S _ fun _ => True)) fun found _ => pure trivial
  refine bind (dataOf b) fun d _ => bind (attributeOf ..) fun o _ => ?_
  split
  · exact pasteAttribute ..
  · exact pure trivial

theorem loadAttribute (n : NodeId) (obj : VarId) (name : String) :
    Safe S (loadAttribute n obj name) fun _ => True := by
  unfold Analysis.loadAttribute
  refine bind (loadAttribute? n obj name) fun o _ => ?_
  extract_lets finish
  have hfinish (u : Unit) : Safe S (finish u) fun _ => True := newUnsolvable n
  split
  · exact pure trivial
  · refine bind (dataAt obj n) fun data _ => bind get fun m _ => ?_
    dsimp only
    split
    · exact hfinish ()
    · split
      · exact bind (report ..) fun u _ => hfinish u
      · split
        · exact bind (report ..) fun u _ => hfinish u
        · exact bind (report ..) fun u _ => hfinish u

theorem memberVar (d : DataId) (name : String) : Safe S (memberVar d name) fun _ => True := by
  unfold Analysis.memberVar
  refine bind (value d) fun x _ => ?_
  split
  · exact pure trivial
  · split
    · exact pure trivial
    · exact bind (newVariable name) fun v _ => bind (addMember ..) fun _ _ => pure trivial

theorem setMember (n : NodeId) (d : DataId) (name : String) (v : VarId) :
    Safe S (setMember n d name v) fun _ => True := by
  unfold Analysis.setMember
  refine bind (memberVar d name) fun o _ => ?_
  split
  · exact paste ..
  · exact pure trivial

theorem storeAttribute (n : NodeId) (obj : VarId) (name : String) (v : VarId) :
    Safe S (storeAttribute n obj name v) fun _ => True :=
  bind (dataAt obj n) fun _ _ => forM fun _ _ => setMember ..

theorem typeNames (v : VarId) (n : NodeId) : Safe S (typeNames v n) fun _ => True :=
  bind get fun _ _ => bind (dataAt v n) fun _ _ => pure trivial

theorem textIn (v : VarId) (n : NodeId) : Safe S (textIn v n) fun _ => True :=
  bind get fun _ _ => bind (dataAt v n) fun _ _ => pure trivial

theorem intIn (v : VarId) (n : NodeId) : Safe S (intIn v n) fun _ => True :=
  bind get fun _ _ => bind (dataAt v n) fun _ _ => pure trivial

theorem isAllNone (v : VarId) (n : NodeId) : Safe S (isAllNone v n) fun _ => True :=
  bind get fun _ _ => bind (dataAt v n) fun _ _ => pure trivial

theorem objectMembers (v : VarId) (n : NodeId) : Safe S (objectMembers v n) fun _ => True :=
  bind get fun _ _ => bind (dataAt v n) fun _ _ => pure trivial

theorem tupleItems (v : VarId) (n : NodeId) : Safe S (tupleItems v n) fun _ => True := by
  unfold Analysis.tupleItems
  refine bind (dataAt v n) fun data _ => ?_
  split
  · exact bind get fun _ _ => pure trivial
  · exact pure trivial

theorem namedPairs (n : NodeId) (vs : List VarId) : Safe S (namedPairs n vs) fun _ => True := by
  refine weaken (mapM (R := fun _ => True) fun a _ => ?_) fun _ _ => trivial
  exact bind (textIn ..) fun _ _ => pure trivial

theorem usableBases (n : NodeId) (vs : List VarId) : Safe S (usableBases n vs) fun _ => True := by
  induction vs with
  | nil => exact pure trivial
  | cons v vs ih =>
    unfold Analysis.usableBases
    refine bind (dataAt v n) fun data _ => bind get fun m _ => ?_
    dsimp only
    split
    · exact bind ih fun _ _ => pure trivial
    · exact bind (report ..) fun _ _ => bind ih fun _ _ => pure trivial

/-- A new class of the program that has got its linearisation. -/
theorem fits_newClass {m : Machine} (hm : S.Fits m) (c : ClassValue) (mro : List DataId) :
    S.Fits { m with store :=
      (m.store.add (.ofClass c)).2.modify (m.store.add (.ofClass c)).1 fun
        | .ofClass c => .ofClass { c with mro }
        | v => v } := by
  refine ⟨hm.options_eq, hm.library_eq, hm.frames_eq, hm.waits, fun e => ?_, fun {k e} he => ?_⟩
  · dsimp only
    rw [Store.get_modify rfl]
    split
    · next h =>
      rw [Store.get_add, if_pos h]
      trivial
    · next h =>
      rw [Store.get_add, if_neg h]
      exact hm.values e
  · obtain ⟨c', hc', hname, hmro⟩ := hm.classes he
    refine ⟨c', ?_, hname, hmro⟩
    have hne := Store.class?_ne_add (v := .ofClass c) hc'
    unfold Store.class?
    dsimp only
    rw [Store.get_modify rfl, if_neg hne, Store.get_add, if_neg hne]
    exact hc'

theorem makeClass (n : NodeId) (name : String) (bases : List VarId) (members : Members) :
    Safe S (makeClass n name bases members) fun _ => True := by
  unfold Analysis.makeClass
  refine bind (usableBases n bases) fun usable _ => ?_
  obtain ⟨vars, classes⟩ := usable
  dsimp -zeta only
  extract_lets finish
  have hfinish (r : List VarId × List DataId) : Safe S (finish r) fun _ => True := by
    obtain ⟨vars, classes⟩ := r
    refine ⟨fun m hm => ?_⟩
    let c : ClassValue := { name, bases := vars, members, origin := .program }
    have hadd : Analysis.addValue (.ofClass c) m = .ok (m.store.add (.ofClass c)).1
      { m with store := (m.store.add (.ofClass c)).2 } := rfl
    dsimp only [finish]
    rw [bind_eq_of_ok hadd,
      bind_eq_of_ok (show (MonadState.get : Analysis Machine) _ = .ok _ _ from rfl)]
    generalize @linearize DataId _ _ _ _ = linearized
    cases linearized with
    | some mro => exact (variableWith ..).agrees _ (fits_newClass hm c mro)
    | none => exact (bind (report ..) fun _ _ => newUnsolvable n).agrees _ (hm.add trivial)
  split
  · exact bind (libraryClass (needed (by decide))) fun _ _ =>
      bind (libraryClassVar (needed (by decide))) fun _ _ => hfinish _
  · exact hfinish _

theorem visibleIn (ns : NamespaceId) (name : String) (n : NodeId) :
    Safe S (visibleIn ns name n) fun _ => True := by
  unfold Analysis.visibleIn
  refine bind get fun m _ => ?_
  split
  · exact pure trivial
  · exact bind (copyVisible ..) fun _ _ => bind (isBound _) fun _ _ => pure trivial

theorem visibleInAny (name : String) (n : NodeId) (nss : List NamespaceId) :
    Safe S (visibleInAny name n nss) fun _ => True := by
  induction nss with
  | nil => exact pure trivial
  | cons ns nss ih =>
    unfold Analysis.visibleInAny
    refine bind (visibleIn ns name n) fun o _ => ?_
    split
    · exact pure trivial
    · exact ih

theorem specialForm (form : SpecialForm) : Safe S (specialForm form) fun _ => True :=
  bind (addValue trivial) fun _ _ => variableWith ..

theorem loadBuiltin (n : NodeId) (name : String) : Safe S (loadBuiltin n name) fun _ => True := by
  unfold Analysis.loadBuiltin
  split
  · exact map (literalVar rfl) fun _ _ => trivial
  · exact map (literalVar rfl) fun _ _ => trivial
  · exact map (literalVar rfl) fun _ _ => trivial
  · exact map (specialForm _) fun _ _ => trivial
  · exact map (specialForm _) fun _ _ => trivial
  · exact map (bind (truth none) fun _ _ => variableWith ..) fun _ _ => trivial
  · exact map (newUnknown n) fun _ _ => trivial
  · refine bind (visibleIn ..) fun o _ => ?_
    split
    · exact pure trivial
    · exact bind (libraryBuiltin _) fun _ _ => optionMapM fun _ => variableWith ..

theorem storeValue (n : NodeId) (ns : NamespaceId) (name : String) (v : VarId) :
    Safe S (storeValue n ns name v) fun _ => True := by
  unfold Analysis.storeValue
  refine bind get fun m _ => ?_
  dsimp only
  split
  · exact paste ..
  · exact bind (newVariable name) fun _ _ => bind (setNamespaces fun _ => rfl) fun _ _ => paste ..

theorem importModule (n : NodeId) (name : String) (level : Int) (isFrom : Bool) :
    Safe S (importModule n name level isFrom) fun _ => True := by
  unfold Analysis.importModule
  extract_lets finish resolve
  have hfinish (d : DataId) : Safe S (finish d) fun _ => True :=
    bind (value d) fun _ _ => variableWith ..
  have hresolve (o : Option DataId) : Safe S (resolve o) fun _ => True := by
    dsimp only [resolve]
    split
    · exact bind (report ..) fun _ _ => newUnsolvable n
    · split
      · exact hfinish _
      · exact bind (libraryModule _) fun _ _ => hfinish _
  split
  · exact hresolve none
  · exact bind (libraryModule name) fun o _ => hresolve o

end ValueTrace.Analysis.Agree
