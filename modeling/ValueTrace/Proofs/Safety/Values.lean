import ValueTrace.Machine.Attribute
import ValueTrace.Machine.Class
import ValueTrace.Proofs.Safety.Runs
import ValueTrace.Proofs.Success

/-! Looking values up, and making those that are shared, does nothing unexpected. -/
namespace ValueTrace

section Linearization

variable {α : Type} [BEq α] [LawfulBEq α] {a b : α} {r : List α} {n : Nat}

theorem mergeWithin_alone (hr : r.Nodup) (hn : r.length ≤ n) :
    Linearization.mergeWithin n [r, []] = some r := by
  induction n generalizing r with
  | zero =>
    obtain rfl := List.length_eq_zero_iff.mp (Nat.le_zero.mp hn)
    rfl
  | succ n ih =>
    cases r with
    | nil => rfl
    | cons c r =>
      obtain ⟨hc, hr⟩ := List.nodup_cons.mp hr
      have htail := ih hr (by simpa using hn)
      simp [Linearization.mergeWithin, Linearization.head?, Linearization.dropHead, hc, htail]

theorem mergeWithin_succ (hb : b ∉ r) : Linearization.mergeWithin (n + 1) [b :: r, [b]] =
    (Linearization.mergeWithin n [r, []]).map (b :: ·) := by
  rw [Linearization.mergeWithin]
  simp only [List.all_cons, List.isEmpty_cons, Bool.false_and, Bool.false_eq_true, if_false]
  simp only [Linearization.head?, List.filterMap_cons, List.head?_cons, List.filterMap_nil,
    List.find?_cons, List.all_cons, List.tail_cons, List.all_nil]
  simp only [List.contains_eq_mem, hb, decide_false, Bool.not_false, List.not_mem_nil,
    Bool.and_true]
  simp only [Option.bind_eq_bind, Option.bind_some, List.map_cons, List.map_nil,
    Linearization.dropHead, beq_self_eq_true, if_true]
  cases Linearization.mergeWithin n [r, []] <;> rfl

/-- The linearisation of the only base stands behind the class. -/
theorem linearize_single (h : (b :: r).Nodup) :
    linearize a [b] [b :: r] = some (a :: b :: r) := by
  obtain ⟨hb, hr⟩ := List.nodup_cons.mp h
  unfold linearize Linearization.merge
  have hlength : ([b :: r] ++ [[b]]).flatten.length = (r.length + 1) + 1 := by simp
  rw [hlength]
  change (Linearization.mergeWithin _ [b :: r, [b]]).map _ = _
  rw [mergeWithin_succ hb, mergeWithin_alone hr (Nat.le_succ _)]
  rfl

/-- A base without a linearisation stands behind the class all alone. -/
theorem linearize_bare : linearize a [b] [[]] = some [a, b] := by
  simp [linearize, Linearization.merge, Linearization.mergeWithin, Linearization.head?]

end Linearization

namespace Analysis.Agree

variable {S : Setting} {α : Type}

theorem newVariable (name : String) : Safe S (newVariable name) fun _ => True := onGraph _

theorem value (d : DataId) : Safe S (value d) (Value.Good S.library) :=
  bind get fun _ hm => pure (hm.values d)

theorem visible (v : VarId) (n : NodeId) : Safe S (visible v n) fun _ => True :=
  bind get fun _ _ => pure trivial

theorem dataAt (v : VarId) (n : NodeId) : Safe S (dataAt v n) fun _ => True :=
  bind get fun _ _ => pure trivial

theorem dataOf (b : BindingId) : Safe S (dataOf b) fun _ => True :=
  bind get fun _ _ => pure trivial

theorem allBindings (v : VarId) : Safe S (allBindings v) fun _ => True :=
  bind get fun _ _ => pure trivial

theorem isBound (v : VarId) : Safe S (isBound v) fun _ => True :=
  bind (allBindings v) fun _ _ => pure trivial

theorem bindVariable (v : VarId) (d : DataId) (sources : List BindingId) (n : NodeId) :
    Safe S (Analysis.bind v d sources n) fun _ => True := onGraph _

theorem paste (dst src : VarId) (n : NodeId) : Safe S (paste dst src n) fun _ => True := onGraph _

theorem variableWith (name : String) (d : DataId) (sources : List BindingId) (n : NodeId) :
    Safe S (variableWith name d sources n) fun _ => True :=
  bind (newVariable name) fun v _ => bind (bindVariable v d sources n) fun _ _ => pure trivial

theorem newUnsolvable (n : NodeId) : Safe S (newUnsolvable n) fun _ => True := variableWith ..

theorem newUnknown (n : NodeId) : Safe S (newUnknown n) fun _ => True :=
  bind (addValue trivial) fun _ _ => variableWith ..

theorem copyVisible (v : VarId) (n : NodeId) : Safe S (copyVisible v n) fun _ => True :=
  bind (visible v n) fun _ _ => onGraph _

theorem joinNodes {ns : List NodeId} (hns : ns ≠ []) : Safe S (joinNodes ns) fun _ => True := by
  unfold Analysis.joinNodes
  split
  · next h =>
    have hmem := List.mem_eraseDups.mpr (List.head_mem hns)
    rw [h] at hmem
    cases hmem
  · exact pure trivial
  · exact ofGrowth fun _ _ _ _ => trivial

theorem report (kind : FindingKind) (message : String) (details : Option String)
    (vars : List VarId) : Safe S (report kind message details vars) fun _ => True :=
  modify fun _ hm => hm.of_eq rfl rfl rfl rfl rfl

end Analysis.Agree

namespace Setting

variable {S : Setting} {m : Machine} {n k : String} {d : DataId}

theorem Lineage.mono {m' : Machine} {mro : List DataId} (h : S.Lineage m n d mro)
    (hmono : ∀ (k : String) (e : DataId), m.shared.classes[k]? = some e →
      m'.shared.classes[k]? = some e) :
    S.Lineage m' n d mro := by
  rcases h with h | ⟨behind, hmro, hnodup, hbehind⟩
  · exact .inl h
  · refine .inr ⟨behind, hmro, hnodup, fun e he => ?_⟩
    obtain ⟨k, hk, hlt⟩ := hbehind e he
    exact ⟨k, hmono k e hk, hlt⟩

namespace Fits

/-- A class is shared under one name only. -/
theorem name_unique (hm : S.Fits m) (hn : m.shared.classes[n]? = some d)
    (hk : m.shared.classes[k]? = some d) : n = k := by
  obtain ⟨c, hc, hname, -⟩ := hm.classes hn
  obtain ⟨c', hc', hname', -⟩ := hm.classes hk
  obtain rfl := Option.some.inj (hc.symm.trans hc')
  exact hname.symm.trans hname'

/-- A new library class, before it has got its linearisation. -/
theorem addClass {c : ClassValue} (hm : S.Fits m) (hn : m.shared.classes[n]? = none)
    (hname : c.name = n) (hmro : c.mro = []) :
    S.Fits { m with
      store := (m.store.add (.ofClass c)).2
      shared := { m.shared with
        classes := m.shared.classes.insert n (m.store.add (.ofClass c)).1 } } := by
  have hadd := hm.add (v := .ofClass c) trivial
  refine ⟨hm.options_eq, hm.library_eq, hm.frames_eq, hm.waits, hadd.values, fun {k e} he => ?_⟩
  dsimp only at he
  rw [Std.TreeMap.getElem?_insert] at he
  split at he
  · next hk =>
    rw [Std.compare_eq_iff_eq] at hk
    cases he
    subst hk
    refine ⟨c, ?_, hname, .inl hmro⟩
    unfold Store.class?
    dsimp only
    rw [Store.get_add, if_pos rfl]
    rfl
  · next hk =>
    rw [Std.compare_eq_iff_eq] at hk
    obtain ⟨c', hc', hname', hmro'⟩ := hadd.classes he
    refine ⟨c', hc', hname', Lineage.mono hmro' fun k' e' he' => ?_⟩
    dsimp only at he' ⊢
    rw [Std.TreeMap.getElem?_insert, if_neg, he']
    rw [Std.compare_eq_iff_eq]
    rintro rfl
    rw [hn] at he'
    cases he'

/-- A shared class that has got its linearisation. -/
theorem finishClass {bases : List VarId} {mro : List DataId} (hm : S.Fits m)
    (hd : m.shared.classes[n]? = some d) (hmro : S.Lineage m n d mro) :
    S.Fits { m with store := m.store.modify d fun
      | .ofClass c => .ofClass { c with bases, mro }
      | v => v } := by
  refine ⟨hm.options_eq, hm.library_eq, hm.frames_eq, hm.waits, fun e => ?_, fun {k e} he => ?_⟩
  · dsimp only
    rw [Store.get_modify rfl]
    have hgood := hm.values e
    split
    · split
      · trivial
      · exact hgood
    · exact hgood
  · obtain ⟨c, hc, hname, hmro'⟩ := hm.classes he
    unfold Store.class?
    dsimp only
    rw [Store.get_modify rfl]
    split
    · next h =>
      subst h
      obtain rfl := hm.name_unique hd he
      rw [Store.get_of_class? hc]
      exact ⟨_, rfl, hname, hmro⟩
    · exact ⟨c, hc, hname, hmro'⟩

/-- The linearisation of a class is never refused: it has at most one base. -/
theorem linearize_base {b : String} {e : DataId} (hm : S.Fits m)
    (he : m.shared.classes[b]? = some e) (hlt : S.rank b < S.rank n) :
    ∃ mro, linearize d [e] [m.store.mro e] = some mro ∧ S.Lineage m n d mro := by
  obtain ⟨c, hc, -, hmro⟩ := hm.classes he
  have hstore : m.store.mro e = c.mro := by simp [Store.mro, hc]
  rw [hstore]
  rcases hmro with hmro | ⟨behind, hmro, hnodup, hbehind⟩
  · rw [hmro]
    refine ⟨_, linearize_bare, .inr ⟨[e], rfl, by simp, fun a ha => ?_⟩⟩
    obtain rfl := List.mem_singleton.mp ha
    exact ⟨b, he, hlt⟩
  · have hcons : (e :: behind).Nodup := by
      refine List.nodup_cons.mpr ⟨fun hmem => ?_, hnodup⟩
      obtain ⟨k, hk, hlt⟩ := hbehind e hmem
      obtain rfl := hm.name_unique he hk
      omega
    rw [hmro]
    refine ⟨_, linearize_single hcons, .inr ⟨_, rfl, hcons, fun a ha => ?_⟩⟩
    rcases List.mem_cons.mp ha with rfl | ha
    · exact ⟨b, he, hlt⟩
    · obtain ⟨k, hk, hkb⟩ := hbehind a ha
      exact ⟨k, hk, hkb.trans hlt⟩

end Fits

end Setting

namespace Analysis

variable {S : Setting} {m : Machine} {name : String}

/-- The machine has the class under its name, and none is lost. -/
def ClassFound (S : Setting) (m : Machine) (name : String) (d : DataId) (m' : Machine) : Prop :=
  S.Fits m' ∧ m'.shared.classes[name]? = some d ∧
    ∀ (k : String) (e : DataId), m.shared.classes[k]? = some e → m'.shared.classes[k]? = some e

/-- A class of the library is always found if there are as many steps as its rank asks for. -/
theorem libraryClassWithin_ok {fuel : Nat} (hfuel : S.rank name < fuel)
    (hname : (S.library.class? name).isSome) (hm : S.Fits m) :
    ∃ d m', libraryClassWithin fuel name m = .ok d m' ∧ ClassFound S m name d m' := by
  induction fuel generalizing name m with
  | zero => omega
  | succ fuel ih =>
    unfold libraryClassWithin
    rw [bind_eq_of_ok (show (get : Analysis Machine) m = .ok m m from rfl)]
    cases hfound : m.shared.classes[name]? with
    | some d => exact ⟨d, m, rfl, hm, hfound, fun _ _ h => h⟩
    | none =>
      obtain ⟨decl, hdecl⟩ := Option.isSome_iff_exists.mp hname
      simp only
      rw [bind_eq_of_ok (show (get : Analysis Machine) m = .ok m m from rfl), hm.library_eq, hdecl]
      simp only
      let c : ClassValue := { name, template := decl.template, origin := .library }
      let d := (m.store.add (.ofClass c)).1
      have hadd : addValue (.ofClass c) m =
          .ok d { m with store := (m.store.add (.ofClass c)).2 } :=
        rfl
      rw [bind_eq_of_ok hadd]
      let m₁ : Machine := { m with
        store := (m.store.add (.ofClass c)).2
        shared := { m.shared with classes := m.shared.classes.insert name d } }
      have hnew : S.Fits m₁ := hm.addClass (c := c) hfound rfl rfl
      have hd : m₁.shared.classes[name]? = some d := by
        change (m.shared.classes.insert name d)[name]? = _
        simp
      have hkeep (k : String) (e : DataId) (hk : m.shared.classes[k]? = some e) :
          m₁.shared.classes[k]? = some e := by
        change (m.shared.classes.insert name d)[k]? = _
        rw [Std.TreeMap.getElem?_insert, if_neg, hk]
        rw [Std.compare_eq_iff_eq]
        rintro rfl
        rw [hfound] at hk
        cases hk
      rw [bind_eq_of_ok (show share _ _ = .ok () m₁ from rfl)]
      rcases S.complete.base hdecl with hbases | ⟨b, hbases, hb, hlt⟩
      · rw [hbases]
        refine ⟨d, _, rfl, hnew.finishClass hd (.inr ⟨[], rfl, .nil, by simp⟩), hd, hkeep⟩
      · obtain ⟨e, m₂, hrun, hm₂, he, hkeep₂⟩ := ih (by omega) hb hnew
        have hd₂ := hkeep₂ name d hd
        let v := (m₂.graph.newVariable b).1
        let m₃ : Machine := { m₂ with
          graph := ((m₂.graph.newVariable b).2.addBinding v e [] Machine.root).2 }
        have hvariable : variableWith b e [] Machine.root m₂ = .ok v m₃ := rfl
        have hm₃ : S.Fits m₃ := hm₂.of_eq rfl rfl rfl rfl rfl
        obtain ⟨mro, hmro, hlineage⟩ := hm₃.linearize_base (d := d) he hlt
        have hmapM : ([b].mapM fun base => do
            let d ← libraryClassWithin fuel base
            return (d, ← variableWith base d [] Machine.root) : Analysis _) m₁ =
              .ok [(e, v)] m₃ := by
          rw [List.mapM_cons, List.mapM_nil, bind_assoc, bind_eq_of_ok hrun, bind_assoc,
            bind_eq_of_ok hvariable]
          rfl
        rw [hbases, bind_eq_of_ok hmapM,
          bind_eq_of_ok (show (get : Analysis Machine) m₃ = .ok m₃ m₃ from rfl)]
        simp only [List.map_cons, List.map_nil, hmro]
        refine ⟨d, _, rfl, hm₃.finishClass hd₂ hlineage, hd₂, fun k e' hk => ?_⟩
        exact hkeep₂ k e' (hkeep k e' hk)

/-- A class of the library is always found. -/
theorem libraryClass_ok (hname : (S.library.class? name).isSome) (hm : S.Fits m) :
    ∃ d m', libraryClass name m = .ok d m' ∧ ClassFound S m name d m' := by
  obtain ⟨c, hc⟩ := Option.isSome_iff_exists.mp hname
  have hfuel : S.rank name < m.library.classes.size + 1 := by
    rw [hm.library_eq]
    exact Nat.lt_succ_of_lt (S.complete.rank_lt hc)
  exact libraryClassWithin_ok hfuel hname hm

namespace Agree

theorem libraryClass (hname : (S.library.class? name).isSome) :
    Safe S (libraryClass name) fun _ => True :=
  Safe.of_leaves fun m hm => by
    obtain ⟨d, m', hrun, hfound⟩ := libraryClass_ok hname hm
    rw [hrun]
    exact ⟨hfound.1, trivial⟩

theorem needed {n : String} (h : n ∈ Library.needed) : (S.library.class? n).isSome :=
  S.complete.needed n h

theorem libraryClassVar (hname : (S.library.class? name).isSome) :
    Safe S (libraryClassVar name) fun _ => True :=
  bind (libraryClass hname) fun _ _ => variableWith ..

theorem newObject (cls : DataId) {payload : Option Payload}
    (h : ∀ c, payload = some (.code c) → c.code.validate = .ok ()) :
    Safe S (newObject cls payload) fun _ => True := by
  refine bind get fun _ _ => bind (mapM fun _ _ =>
    bind (newVariable _) fun _ _ => pure (Q := fun _ => True) trivial) fun _ _ => addValue ?_
  rcases payload with _ | _ | _ | c
  · trivial
  · trivial
  · trivial
  · exact h c rfl

theorem newObject_none (cls : DataId) : Safe S (Analysis.newObject cls none) fun _ => True :=
  newObject cls fun _ h => by cases h

theorem sharedObject (cls : DataId) : Safe S (sharedObject cls) fun _ => True := by
  unfold Analysis.sharedObject
  refine bind get fun m _ => ?_
  split
  · exact newObject_none cls
  · refine bind get fun m _ => ?_
    split
    · exact pure trivial
    · exact bind (newObject_none cls) fun _ _ => bind (share fun _ => rfl) fun _ _ => pure trivial

theorem plainObject (hname : (S.library.class? name).isSome) :
    Safe S (plainObject name) fun _ => True :=
  bind (libraryClass hname) fun cls _ => sharedObject cls

theorem fillTypeParam (d : DataId) (param : String) (items : List VarId) (n : NodeId) :
    Safe S (fillTypeParam d param items n) fun _ => True := by
  unfold Analysis.fillTypeParam
  refine bind get fun m _ => ?_
  split
  · exact forM fun _ _ => paste ..
  · exact pure trivial

theorem tupleObject (items : List VarId) (n : NodeId) :
    Safe S (tupleObject items n) fun _ => True := by
  refine bind (libraryClass (needed (by decide))) fun _ _ => ?_
  refine bind (newObject _ fun _ h => by cases h) fun _ _ => ?_
  refine bind (fillTypeParam ..) fun _ _ => ?_
  exact pure trivial

theorem className_needed (third : Bool) (c : Constant) : c.className third ∈ Library.needed := by
  cases c <;> cases third <;> simp [Constant.className, Library.needed]

mutual

theorem constant (place : List Nat) (c : Constant) (hc : c.validate = .ok ()) :
    Safe S (constant place c) fun _ => True := by
  unfold Analysis.constant
  refine bind get fun m _ => ?_
  split
  · exact pure trivial
  · refine bind get fun m _ => bind (libraryClass (needed (className_needed _ c))) fun cls _ => ?_
    extract_lets finish
    have hfinish (d : DataId) : Safe S (finish d) fun _ => True :=
      bind (variableWith ..) fun _ _ => bind (share fun _ => rfl) fun _ _ => pure trivial
    split
    · next items _ =>
      exact bind (constants place 0 items (by simpa [Constant.validate] using hc)) fun _ _ =>
        bind (tupleObject ..) fun d _ => hfinish d
    · refine bind (newObject cls fun c h => ?_) fun d _ => hfinish d
      cases h
      simpa [Constant.validate] using hc
    · exact bind (newObject cls fun _ h => by cases h) fun d _ => hfinish d
termination_by sizeOf c

theorem constants (place : List Nat) (i : Nat) (cs : List Constant)
    (hcs : Constant.validateAll cs = .ok ()) : Safe S (constants place i cs) fun _ => True := by
  cases cs with
  | nil =>
    unfold Analysis.constants
    exact pure trivial
  | cons c cs =>
    rw [Constant.validateAll, Except.bind_eq_ok] at hcs
    obtain ⟨_, hc, hcs⟩ := hcs
    unfold Analysis.constants
    exact bind (constant _ c hc) fun _ _ => bind (constants place _ cs hcs) fun _ _ => pure trivial
termination_by sizeOf cs

end

theorem literal {c : Constant} (hc : c.validate = .ok ()) : Safe S (literal c) fun _ => True :=
  bind (constant [] c hc) fun _ _ => pure trivial

theorem literalVar {c : Constant} (hc : c.validate = .ok ()) :
    Safe S (literalVar c) fun _ => True := bind (constant [] c hc) fun _ _ => pure trivial

theorem newNone (n : NodeId) : Safe S (newNone n) fun _ => True :=
  bind (literal rfl) fun _ _ => variableWith ..

theorem truth (b : Option Bool) : Safe S (truth b) fun _ => True := by
  cases b with
  | none => exact plainObject (needed (by decide))
  | some b => exact literal rfl

theorem libraryFunction {f : LibraryFunction} (hf : S.library.Returns f.signatures) :
    Safe S (libraryFunction f) fun _ => True := by
  unfold Analysis.libraryFunction
  refine bind get fun m _ => ?_
  split
  · exact pure trivial
  · exact bind (addValue hf) fun _ _ => bind (share fun _ => rfl) fun _ _ => pure trivial

theorem libraryBuiltin (name : String) : Safe S (libraryBuiltin name) fun _ => True := by
  unfold Analysis.libraryBuiltin
  refine bind get fun m hm => ?_
  rw [hm.library_eq]
  dsimp only
  split
  · next h =>
    rw [Bool.and_eq_true] at h
    exact map (libraryClass h.1) fun _ _ => trivial
  · cases hf : S.library.function? name with
    | none => exact pure trivial
    | some f => exact bind (libraryFunction (S.complete.function hf)) fun _ _ => pure trivial

theorem libraryModule (name : String) : Safe S (libraryModule name) fun _ => True := by
  unfold Analysis.libraryModule
  refine bind get fun m _ => ?_
  split
  · exact pure trivial
  · refine bind get fun m _ => ?_
    split
    · exact pure trivial
    · exact bind (addValue trivial) fun _ _ => bind (share fun _ => rfl) fun _ _ => pure trivial

theorem pasteSource (v : VarId) (n : NodeId) (s : TypeSource) :
    Safe S (pasteSource v n s) fun _ => True := by
  cases s with
  | binding b => exact bind (dataOf b) fun _ _ => bindVariable ..
  | param p => exact paste ..

mutual

theorem instantiate (n : NodeId) (s : Subst) (receiver : Option DataId) (t : TypeExpr)
    (ht : S.library.Names t) : Safe S (instantiate n s receiver t) fun _ => True := by
  unfold Analysis.instantiate
  refine bind (newVariable _) fun v _ => ?_
  extract_lets finish
  have hfinish (u : Unit) : Safe S (finish u) fun _ => True := pure trivial
  have hbind (d : DataId) : Safe S (Analysis.bind v d [] n >>= finish) fun _ => True :=
    bind (bindVariable ..) fun u _ => hfinish u
  split
  · exact hbind _
  · next name =>
    split
    · exact bind (literal rfl) fun d _ => hbind d
    · exact bind (plainObject (ht name (by simp [TypeExpr.classNames]))) fun d _ => hbind d
  · next name params =>
    refine bind (libraryClass (ht name (by simp [TypeExpr.classNames]))) fun _ _ => ?_
    refine bind (newObject_none _) fun d _ => ?_
    refine bind get fun _ _ => ?_
    refine bind (instantiateParams n s receiver d _ params fun k hk => ht k ?_) fun _ _ => hbind d
    simp [TypeExpr.classNames, hk]
  · split
    · exact bind (forM fun _ _ => pasteSource ..) fun u _ => hfinish u
    · split
      · refine bind get fun m _ => ?_
        split
        · exact bind (paste ..) fun u _ => hfinish u
        · exact hfinish ()
      · exact hfinish ()
  · next options =>
    refine bind (instantiateOptions n s receiver v options fun k hk => ht k ?_) fun u _ =>
      hfinish u
    simpa [TypeExpr.classNames] using hk
termination_by sizeOf t

theorem instantiateParams (n : NodeId) (s : Subst) (receiver : Option DataId) (d : DataId)
    (template : List String) (params : List TypeExpr)
    (hp : ∀ k ∈ TypeExpr.allClassNames params, (S.library.class? k).isSome) :
    Safe S (instantiateParams n s receiver d template params) fun _ => True := by
  cases params with
  | nil =>
    unfold Analysis.instantiateParams
    split
    · contradiction
    · exact pure trivial
  | cons t params =>
    cases template with
    | nil =>
      unfold Analysis.instantiateParams
      exact pure trivial
    | cons name template =>
      unfold Analysis.instantiateParams
      refine bind (instantiate n s receiver t fun k hk => hp k ?_) fun v _ =>
        bind (fillTypeParam ..) fun _ _ =>
          instantiateParams n s receiver d template params fun k hk => hp k ?_
      · simp [TypeExpr.allClassNames, hk]
      · simp [TypeExpr.allClassNames, hk]
termination_by sizeOf params

theorem instantiateOptions (n : NodeId) (s : Subst) (receiver : Option DataId) (v : VarId)
    (options : List TypeExpr)
    (ho : ∀ k ∈ TypeExpr.allClassNames options, (S.library.class? k).isSome) :
    Safe S (instantiateOptions n s receiver v options) fun _ => True := by
  cases options with
  | nil =>
    unfold Analysis.instantiateOptions
    exact pure trivial
  | cons t options =>
    unfold Analysis.instantiateOptions
    refine bind (instantiate n s receiver t fun k hk => ho k ?_) fun part _ =>
      bind (paste ..) fun _ _ =>
        instantiateOptions n s receiver v options fun k hk => ho k ?_
    · simp [TypeExpr.allClassNames, hk]
    · simp [TypeExpr.allClassNames, hk]
termination_by sizeOf options

end

end Agree

end Analysis

end ValueTrace
