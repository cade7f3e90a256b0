import ValueTrace.Machine.Attribute
import ValueTrace.Proofs.Machine.Blindness

/-!
# Lookups that do not see what has been bound elsewhere

What a lookup makes is new: library classes, functions and objects, and the variables of members that
it finds declared. Otherwise it ends in a variable that was there. If that is clear of what has been
bound elsewhere, and so is what the attribute is looked up on, the lookup is blind to it.
-/

namespace ValueTrace

/-- The member that a lookup in these classes ends in, as far as members have been made. -/
def Store.along (s : Store) (name : String) (ds : List DataId) : Option VarId :=
  ds.findSome? fun d => (s.class? d).bind (·.members[name]?)

/-- Where a lookup on an object ends: in a member of its own, or else in one of its classes. -/
def Store.slot? (s : Store) (d : DataId) (name : String) : Option VarId :=
  match s.object? d with
  | some o => o.members[name]?.or (s.along name (s.mro o.cls))
  | none => none

def Store.IsInstance (s : Store) (d : DataId) : Prop :=
  ∃ o c, s.get d = .object o ∧ s.get o.cls = .ofClass c

theorem Store.slot?_of_instance {s : Store} {d : DataId} {o : Object} {c : ClassValue}
    (ho : s.get d = .object o) (hc : s.get o.cls = .ofClass c) (name : String) :
    s.slot? d name = o.members[name]?.or (s.along name c.mro) := by
  unfold slot? object? mro class?
  rw [ho]
  dsimp only [Value.object?]
  rw [hc]
  rfl

namespace Analysis

open Machine (root)

variable {V : Vantage} {m : Machine} {d cls : DataId} {v obj attr : VarId} {b : BindingId}
  {n : NodeId} {name : String} {payload : Option Payload} {receiver : Option BindingId}

namespace Blind

theorem libraryClassWithin (fuel : Nat) (name : String) :
    Blind V (libraryClassWithin fuel name) fun _ => True := by
  induction fuel generalizing name with
  | zero => exact throw _
  | succ fuel ih =>
    unfold Analysis.libraryClassWithin
    refine getRest (fun _ _ => rfl) fun m _ => ?_
    split
    · exact pure trivial
    · refine getRest (fun _ _ => rfl) fun m _ => ?_
      split
      · refine bind (addValue (fun name v hv => ?_) (fun _ h => by cases h) rfl) fun id hid => ?_
        · cases Std.TreeMap.getElem?_emptyc.symm.trans hv
        · refine bind (share _) fun _ _ => ?_
          refine bind (mapM (R := fun _ => True) fun base _ => ?_) fun bases _ => ?_
          · refine bind (ih base) fun d _ => ?_
            exact bind (variableWith base d (by simp) root) fun v _ => pure trivial
          refine getRest (fun _ _ => rfl) fun m _ => ?_
          dsimp only
          split
          · exact bind (modify (fun m hm => hm.completeClass hid _ _) (fun _ => rfl) fun _ _ => rfl)
              fun _ _ => pure trivial
          · exact throw _
      · exact throw _

theorem libraryClass (name : String) : Blind V (libraryClass name) fun _ => True :=
  getRest (fun _ _ => rfl) fun _ _ => libraryClassWithin _ name

theorem newObject (cls : DataId) (hpayload : ∀ c, payload = some (.constant c) → c.str? = none) :
    Blind V (newObject cls payload) fun d => ¬ V.machine.store.Has d := by
  refine getRest (fun _ _ => rfl) fun m _ => ?_
  refine bind (mapM (R := fun entry => V.New entry.2) fun name _ =>
    bind (newVariable name) fun v hv => pure hv) fun params hparams =>
      addValue (fun name v hv => ?_) (fun o ho name p hp => ?_) ?_
  · cases Std.TreeMap.getElem?_emptyc.symm.trans hv
  · cases ho
    have hslot : (p, name) ∈ slotsOf (.ofList params) := hp
    exact hparams _ (slotsOf_ofList hslot)
  · cases payload with
    | none => rfl
    | some payload =>
      cases payload with
      | constant c => exact hpayload c rfl
      | _ => rfl

theorem plainObject (name : String) : Blind V (plainObject name) fun _ => True := by
  have hnew (cls : DataId) : Blind V (Analysis.newObject cls none) fun _ => True := by
    refine (newObject cls ?_).weaken fun _ _ => trivial
    exact nofun
  refine bind (libraryClass name) fun cls _ => ?_
  unfold Analysis.sharedObject
  refine getRest (fun _ _ => rfl) fun m _ => ?_
  split
  · exact hnew cls
  · refine getRest (fun _ _ => rfl) fun m _ => ?_
    split
    · exact pure trivial
    · exact bind (hnew cls) fun d _ => bind (share _) fun _ _ => pure trivial

theorem noneLiteral : Blind V (literal .none) fun _ => True := by
  refine bind (Q := fun _ => True) ?_ fun _ _ => pure trivial
  unfold Analysis.constant
  refine getRest (fun _ _ => rfl) fun m _ => ?_
  split
  · exact pure trivial
  · refine getRest (fun _ _ => rfl) fun m _ => ?_
    refine bind (libraryClass _) fun cls _ => ?_
    refine bind (newObject cls fun c hc => by cases hc; rfl) fun d _ => ?_
    refine bind (variableWith _ d (by simp) root) fun v _ => ?_
    refine bind (share _) fun _ _ => ?_
    exact pure trivial

theorem libraryFunction (f : LibraryFunction) : Blind V (libraryFunction f) fun _ => True := by
  unfold Analysis.libraryFunction
  refine getRest (fun _ _ => rfl) fun m _ => ?_
  split
  · exact pure trivial
  · have hnative : Blind V (Analysis.addValue (.native ⟨f.name, f.signatures, f.mutates⟩))
        fun d => ¬ V.machine.store.Has d :=
      addValue (fun _ _ h => by cases h) (fun _ h => by cases h) rfl
    exact bind hnative fun d _ => bind (share _) fun _ _ => pure trivial

/-- The type parameters of a new object are new. -/
theorem fillTypeParam (hd : ¬ V.machine.store.Has d) (param : String) (hv : V.ClearOf v)
    (n : NodeId) : Blind V (fillTypeParam d param [v] n) fun _ => True := by
  unfold Analysis.fillTypeParam
  refine getRest (fun _ _ => rfl) fun m hm => ?_
  split
  · next p hp =>
    have hnew : V.New p := by
      refine (hm.param d param p hp).resolve_left fun hold => ?_
      unfold Store.typeParam? Store.object? at hold
      rw [Store.get_eq_of_not_has hd] at hold
      cases hold
    exact forM fun item hitem => List.mem_singleton.mp hitem ▸ paste hnew hv n
  · exact pure trivial

mutual

/-- What a type without type variables stands for is new. -/
theorem instantiate (n : NodeId) (t : TypeExpr) : Blind V (instantiate n ∅ none t) V.New := by
  unfold Analysis.instantiate
  refine bind (newVariable _) fun v hv => ?_
  have hbound (d : DataId) : Blind V (Analysis.bind v d [] n) fun _ => True := bindVar hv d (by simp) n
  cases t with
  | any => exact bind (hbound _) fun _ _ => pure hv
  | name name =>
    dsimp only
    split
    · exact bind noneLiteral fun d _ => bind (hbound d) fun _ _ => pure hv
    · exact bind (plainObject name) fun d _ => bind (hbound d) fun _ _ => pure hv
  | generic name params =>
    refine bind (libraryClass name) fun cls _ => ?_
    refine bind (newObject cls nofun) fun d hd => ?_
    refine getRest (fun _ _ => rfl) fun _ _ => ?_
    refine bind (instantiateParams n hd _ params) fun _ _ => ?_
    exact bind (hbound d) fun _ _ => pure hv
  | var name =>
    dsimp only
    split
    · next h => cases Std.TreeMap.getElem?_emptyc.symm.trans h
    · exact pure hv
  | union options => exact bind (instantiateOptions n hv options) fun _ _ => pure hv
termination_by sizeOf t

theorem instantiateParams {d : DataId} (n : NodeId) (hd : ¬ V.machine.store.Has d) (template : List String)
    (params : List TypeExpr) :
    Blind V (instantiateParams n ∅ none d template params) fun _ => True := by
  cases template with
  | nil =>
    unfold Analysis.instantiateParams
    exact pure trivial
  | cons name template =>
    cases params with
    | nil =>
      unfold Analysis.instantiateParams
      exact pure trivial
    | cons t params =>
      unfold Analysis.instantiateParams
      exact bind (instantiate n t) fun v hv => bind (fillTypeParam hd name hv.clearOf n) fun _ _ =>
        instantiateParams n hd template params
termination_by sizeOf params

theorem instantiateOptions {v : VarId} (n : NodeId) (hv : V.New v) (options : List TypeExpr) :
    Blind V (instantiateOptions n ∅ none v options) fun _ => True := by
  cases options with
  | nil =>
    unfold Analysis.instantiateOptions
    exact pure trivial
  | cons t options =>
    unfold Analysis.instantiateOptions
    exact bind (instantiate n t) fun part hpart => bind (paste hv hpart.clearOf n) fun _ _ =>
      instantiateOptions n hv options
termination_by sizeOf options

end

theorem addMember (hd : V.machine.store.member? d name = none) (hv : V.New v) :
    Blind V (addMember d name v) fun _ => True :=
  modify (fun _ hm => hm.addMember hd hv) (fun _ => rfl) fun _ _ => rfl

/-- A member that the library declares is made in a new variable. -/
theorem libraryMember (hd : V.machine.store.member? cls name = none) :
    Blind V (libraryMember cls name) fun found => ∀ v ∈ found, V.New v := by
  have hmade {x : Analysis VarId} (hx : Blind V x V.New) : Blind V (do
      let v ← x
      Analysis.addMember cls name v
      return some v) fun found => ∀ v ∈ found, V.New v :=
    bind hx fun v hv => bind (addMember hd hv) fun _ _ => pure (by simpa using hv)
  unfold Analysis.libraryMember
  refine getRest (fun _ _ => rfl) fun m _ => ?_
  split
  · next decl _ =>
    cases decl.methods[name]? with
    | some f =>
      have hmethod : Blind V (do Analysis.variableWith name (← Analysis.libraryFunction f) [] root)
          V.New := bind (libraryFunction f) fun d _ => variableWith name d (by simp) root
      have hrun := hmade hmethod
      rw [bind_assoc] at hrun
      exact hrun
    | none =>
      cases decl.attributes[name]? with
      | some t => exact hmade (instantiate root t)
      | none => exact pure nofun
  · exact pure nofun

/-- A lookup along classes ends in what they had, or in a new member. -/
theorem memberAlong (ds : List DataId)
    (h : ∀ v ∈ V.machine.store.along name ds, V.ClearOf v) :
    Blind V (memberAlong name ds) fun found => ∀ v ∈ found, V.ClearOf v := by
  induction ds with
  | nil => exact pure nofun
  | cons d ds ih =>
    unfold Analysis.memberAlong
    refine getRest (fun _ _ => rfl) fun m hm => ?_
    -- If the class did not have the member, those behind it are what was asked for.
    have hrest (hno : (V.machine.store.class? d).bind (·.members[name]?) = none) :
        ∀ v ∈ V.machine.store.along name ds, V.ClearOf v := by
      unfold Store.along at h ⊢
      rwa [List.findSome?_cons, hno] at h
    cases hc : m.store.class? d with
    | none =>
      refine ih (hrest ?_)
      cases hold : V.machine.store.class? d with
      | none => rfl
      | some c =>
        rw [(hm.class_of_class hold).choose_spec.1] at hc
        cases hc
    | some c =>
      have hmember : m.store.member? d name = c.members[name]? :=
        Store.member?_of_class (Store.get_of_class? hc) name
      dsimp only
      cases hslot : c.members[name]? with
      | some v =>
        refine pure fun w hw => ?_
        obtain rfl := Option.mem_some_iff.mp hw
        rcases hm.slot d name v (hmember.trans hslot) with hold | hnew
        · obtain ⟨c₀, hc₀⟩ := hm.class_of_member hc hold
          refine h v ?_
          unfold Store.along
          rw [List.findSome?_cons, hc₀, Option.bind_some,
            ← Store.member?_of_class (Store.get_of_class? hc₀), hold]
          rfl
        · exact hnew.clearOf
      | none =>
        have hno : V.machine.store.member? d name = none := by
          by_contra hne
          obtain ⟨v, hv⟩ := Option.ne_none_iff_exists'.mp hne
          rw [hm.member d name v hv, hslot] at hmember
          cases hmember
        have hih := ih (hrest ?_)
        · dsimp only
          split
          · refine bind (libraryMember hno) fun found hfound => ?_
            cases found with
            | some v => exact pure fun w hw => (hfound w hw).clearOf
            | none => exact hih
          · exact hih
        · cases hold : V.machine.store.class? d with
          | none => rfl
          | some c₀ =>
            rw [Option.bind_some, ← Store.member?_of_class (Store.get_of_class? hold)]
            exact hno

theorem classMember {c : ClassValue} (hc : V.machine.store.class? cls = some c)
    (h : ∀ v ∈ V.machine.store.along name c.mro, V.ClearOf v) :
    Blind V (classMember cls name) fun found => ∀ v ∈ found, V.ClearOf v := by
  refine getRest (fun _ _ => rfl) fun m hm => ?_
  obtain ⟨c', hc', hmro⟩ := hm.class_of_class hc
  have hlist : m.store.mro cls = c.mro := by
    unfold Store.mro
    rw [hc']
    exact hmro
  rw [hlist]
  exact memberAlong c.mro h

/-- Methods are in a new variable, and all else that has been found stays where it is. -/
theorem bindMethods (n : NodeId) (d : DataId) (hattr : V.ClearOf attr)
    (hreceiver : ∀ b ∈ receiver, V.Clear b) :
    Blind V (bindMethods n d attr receiver) V.ClearOf := by
  unfold Analysis.bindMethods
  refine get (fun hb => ?_) fun m hm => ?_
  · simp only [hb.graph.allData, hb.store, hb.graph.var_eq]
  · dsimp only
    split
    · exact pure hattr
    · refine bind (variableWith _ d (by simpa using hreceiver) n) fun self _ => ?_
      refine bind (newVariable _) fun bound hbound => ?_
      refine bind (allBindings hattr) fun bs hbs => ?_
      refine bind (forM fun b hb => bind (dataOf b) fun f _ => ?_) fun _ _ => pure hbound.clearOf
      refine bind (value f) fun x _ => ?_
      have hturned (e : DataId) : Blind V (Analysis.bind bound e [b] n) fun _ => True :=
        bindVar hbound e (by simpa using hbs b hb) n
      split
      · exact bind (addValue nofun nofun rfl) fun e _ => hturned e
      · exact bind (Q := fun _ => True) (pure trivial) fun e _ => hturned e

/-- The attribute of an instance is where the lookup ends, or new. -/
theorem attributeOf (n : NodeId) (hd : V.machine.store.IsInstance d)
    (hslot : ∀ v ∈ V.machine.store.slot? d name, V.ClearOf v) (hreceiver : ∀ b ∈ receiver, V.Clear b) :
    Blind V (attributeOf n d name receiver) fun found => ∀ v ∈ found, V.ClearOf v := by
  obtain ⟨o, c, ho, hc⟩ := hd
  unfold Analysis.attributeOf
  refine bind (value d) fun x hx => ?_
  obtain ⟨m, hm, hx⟩ := hx
  obtain ⟨o', ho', hcls⟩ := hm.object_of_object ho
  obtain rfl := hx.symm ▸ ho'
  have hown : V.machine.store.member? d name = o.members[name]? := Store.member?_of_object ho name
  have hmember : m.store.member? d name = o'.members[name]? := Store.member?_of_object ho' name
  rw [Store.slot?_of_instance ho hc] at hslot
  dsimp only
  cases hfound : o'.members[name]? with
  | some v =>
    refine pure fun w hw => ?_
    obtain rfl := Option.mem_some_iff.mp hw
    rcases hm.slot d name v (hmember.trans hfound) with hold | hnew
    · refine hslot v ?_
      rw [hown] at hold
      simp [hold]
    · exact hnew.clearOf
  | none =>
    have hno : o.members[name]? = none := by
      by_contra hne
      obtain ⟨v, hv⟩ := Option.ne_none_iff_exists'.mp hne
      rw [hm.member d name v (hown.trans hv), hfound] at hmember
      cases hmember
    have hlookup : Blind V (Analysis.classMember o'.cls name) fun found =>
        ∀ v ∈ found, V.ClearOf v := by
      rw [hcls]
      refine classMember (c := c) (by rw [Store.class?, hc]; rfl) fun v hv => hslot v ?_
      simpa [hno] using hv
    refine bind hlookup fun found hfound => ?_
    cases found with
    | none => exact pure fun _ h => by cases h
    | some attr =>
      refine bind (bindMethods n d (hfound attr rfl) hreceiver) fun w hw => pure ?_
      simpa using hw

theorem pasteAttribute (hV : V.Valid) (hresult : V.New v) (hattr : V.ClearOf attr)
    (hb : V.Clear b) : Blind V (pasteAttribute V.node v attr b) fun _ => True := by
  refine bind (visible hV hattr) fun bs hbs => ?_
  refine bind (forM fun a ha => bind (dataOf a) fun d _ => bindVar hresult d ?_ V.node) fun _ _ =>
    pure trivial
  simpa using ⟨hbs a ha, hb⟩

/-- A lookup on instances is blind if the variable of the instances and those where it ends are clear. -/
theorem loadAttribute? (hV : V.Valid) (hobj : V.ClearOf obj) (hold : obj < V.machine.graph.vars.size)
    (hd : ∀ d ∈ V.machine.graph.visibleData obj V.node, V.machine.store.IsInstance d ∧
      ∀ v ∈ V.machine.store.slot? d name, V.ClearOf v) :
    Blind V (loadAttribute? V.node obj name) fun found => ∀ v ∈ found, V.New v := by
  refine bind (newVariable name) fun result hresult => ?_
  refine bind (visible_old hV hobj hold) fun bs hbs => ?_
  refine bind (mapM (R := fun _ => True) fun b hb => ?_) fun found _ => pure ?_
  · obtain ⟨rfl, hclear⟩ := hbs
    have hlt := (hV.sound.built.wellFormed.listed obj b (Graph.mem_of_mem_visible hb)).1
    refine bind (dataOf_old hlt) fun d hdata => ?_
    obtain ⟨hinstance, hslot⟩ := hd d (hdata ▸ List.mem_map_of_mem hb)
    refine bind (attributeOf V.node hinstance hslot (by simpa using hclear b hb)) fun found hfound => ?_
    cases found with
    | some attr => exact pasteAttribute hV hresult (hfound attr rfl) (hclear b hb)
    | none => exact pure trivial
  · split
    · simpa using hresult
    · exact nofun

/-- So is what a lookup reports if it finds nothing. -/
theorem loadAttribute (hV : V.Valid) (hobj : V.ClearOf obj) (hold : obj < V.machine.graph.vars.size)
    (hd : ∀ d ∈ V.machine.graph.visibleData obj V.node, V.machine.store.IsInstance d ∧
      ∀ v ∈ V.machine.store.slot? d name, V.ClearOf v) :
    Blind V (loadAttribute V.node obj name) V.New := by
  unfold Analysis.loadAttribute
  refine bind (loadAttribute? hV hobj hold hd) fun found hfound => ?_
  cases found with
  | some v => exact pure (hfound v rfl)
  | none =>
    refine bind (dataAt hV hobj) fun data _ => getRest (fun _ _ => rfl) fun m _ => ?_
    have hnew : Blind V (Analysis.newUnsolvable V.node) V.New := newUnsolvable V.node
    dsimp only
    split
    · exact hnew
    · split
      · exact bind (report ..) fun _ _ => hnew
      · split
        · exact bind (report ..) fun _ _ => hnew
        · exact bind (report ..) fun _ _ => hnew

end Blind

end Analysis

end ValueTrace
