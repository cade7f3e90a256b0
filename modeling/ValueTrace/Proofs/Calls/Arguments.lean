import ValueTrace.Proofs.Calls.Binding
import ValueTrace.Proofs.Calls.Surplus
import ValueTrace.Proofs.References.Soundness

/-!
# Binding the arguments of a call

The names are bound first, which needs no machine, and what is left over is put into new objects
afterwards.
-/

namespace ValueTrace

variable {m m' : Machine} {n : NodeId} {p : Parameters} {args : CallArgs} {bound : Members}
  {keywords : List (String × VarId)}

/-- The parameters for surplus arguments have got objects that hold just these. -/
structure Parameters.Collects (p : Parameters) (args : CallArgs) (n : NodeId) (m m' : Machine)
    (bound : Members) : Prop where
  /-- A tuple has the surplus positional arguments, in order. -/
  varargs : ∀ name, p.varargs = some name → ∃ v o, bound[name]? = some v ∧
    m'.HoldsOnly n v o "tuple" ∧ o.payload = some (.tuple (p.surplusPositional args))
  /-- A dictionary has the surplus keywords. -/
  varkw : ∀ name, p.varkw = some name → ∃ v o, bound[name]? = some v ∧
    m'.HoldsOnly n v o "dict" ∧ m.HoldsKeywords m' o (p.surplusNamed args)

namespace Analysis

/-- Put surplus positional arguments into a new tuple. -/
def collectPositional (n : NodeId) (p : Parameters) (args : CallArgs) (bound : Members) :
    Attempt Members := do
  match p.varargs with
  | some name => pure (bound.insert name (← surplusTuple n name args.star (p.surplusPositional args)))
  | none => pure bound

/-- Put surplus keywords into a new dictionary. -/
def collectNamed (n : NodeId) (p : Parameters) (args : CallArgs)
    (keywords : List (String × VarId)) (bound : Members) : Attempt Members := do
  match p.varkw with
  | some name => return bound.insert name (← surplusDict n args.starStar keywords)
  | none => return bound

theorem bindDefaults_eq (h : args.isOpen = false) (n : NodeId) (l : List (String × Nat))
    (bound : Members) : bindDefaults n p args l bound = MonadExcept.ofExcept
      (fillMissing (p.missing args) (l.map fun (name, i) => (name, p.defaultAt? i)) bound) := by
  induction l generalizing bound with
  | nil => rfl
  | cons entry l ih =>
    obtain ⟨name, i⟩ := entry
    rw [List.map_cons]
    unfold bindDefaults fillMissing
    by_cases hbound : bound.contains name
    · rw [if_pos hbound, if_pos hbound]
      exact ih bound
    · rw [if_neg hbound, if_neg hbound]
      dsimp only
      cases p.defaultAt? i with
      | some v => exact ih _
      | none =>
        rw [h]
        unfold Parameters.missing
        dsimp only
        cases args.named.isEmpty <;> rfl

theorem bindKwonly_eq (h : args.isOpen = false) (n : NodeId) (l : List String) (bound : Members) :
    bindKwonly n p args l bound = MonadExcept.ofExcept
      (fillMissing (.missingParameter p.function) (l.map fun name => (name, p.kwDefaults[name]?))
        bound) := by
  induction l generalizing bound with
  | nil => rfl
  | cons name l ih =>
    rw [List.map_cons]
    unfold bindKwonly fillMissing
    by_cases hbound : bound.contains name
    · rw [if_pos hbound, if_pos hbound]
      exact ih bound
    · rw [if_neg hbound, if_neg hbound]
      cases p.kwDefaults[name]? with
      | some v => exact ih _
      | none =>
        rw [(Bool.or_eq_false_iff.mp h).2]
        rfl

theorem ofExcept_ok_bind {α β : Type} (a : α) (f : α → Attempt β) :
    MonadExcept.ofExcept (.ok a) >>= f = f a := rfl

/-- A call without stars binds the names, and then collects what is left over. -/
theorem bindArguments_eq (h : args.isOpen = false) (n : NodeId) (p : Parameters) :
    bindArguments n p args = (do
      let (bound, keywords) ← MonadExcept.ofExcept (p.bindNames args)
      collectPositional n p args bound >>= collectNamed n p args keywords) := by
  unfold bindArguments Parameters.bindNames
  simp only [bindDefaults_eq h, bindKwonly_eq h]
  unfold Parameters.surplusPositional
  by_cases hcount : (!(args.positional.drop p.positional.length).isEmpty && p.varargs.isNone) = true
  · rw [if_pos hcount, if_pos hcount]
    rfl
  rw [if_neg hcount, if_neg hcount]
  cases p.bindNamed args.named (p.bindPositional args.positional) with
  | error e => rfl
  | ok r =>
    obtain ⟨bound, keywords⟩ := r
    rw [ofExcept_ok_bind]
    change _ = MonadExcept.ofExcept (ite ..) >>= _
    by_cases hknown : (!keywords.isEmpty && p.varkw.isNone) = true
    · rw [if_pos hknown, if_pos hknown]
      rfl
    rw [if_neg hknown, if_neg hknown]
    unfold Parameters.positionalDefaults Parameters.kwonlyDefaults
    cases fillMissing (p.missing args)
      (p.positional.zipIdx.map fun (name, i) => (name, p.defaultAt? i)) bound with
    | error e => rfl
    | ok bound =>
      rw [ofExcept_ok_bind]
      change _ = MonadExcept.ofExcept (_ >>= fun bound => pure (bound, keywords)) >>= _
      unfold collectPositional collectNamed Parameters.surplusPositional
      cases fillMissing (.missingParameter p.function)
        (p.kwonly.map fun name => (name, p.kwDefaults[name]?)) bound with
      | error e => rfl
      | ok bound =>
        cases p.varargs with
        | none => rfl
        | some name => exact (bind_assoc (m := Attempt) ..).symm

end Analysis

/-- Other names may be bound as well. -/
theorem Parameters.Binds.insert (h : p.Binds args bound) {name : String} (hname : name ∉ p.named)
    (v : VarId) : p.Binds args (bound.insert name v) := by
  have hother {x : String} (hx : x ∈ p.named) : (bound.insert name v)[x]? = bound[x]? := by
    rw [Std.TreeMap.getElem?_insert, if_neg]
    rw [Std.LawfulEqCmp.compare_eq_iff_eq]
    rintro rfl
    exact hname hx
  refine ⟨fun i x hi => ?_, fun x hx => ?_⟩
  · rw [hother (List.mem_append_left _ (List.mem_of_getElem? hi))]
    exact h.positional i x hi
  · rw [hother (List.mem_append_right _ hx)]
    exact h.kwonly x hx

namespace Parameters.Proper

theorem varargs_not_mem (hp : p.Proper) {name : String} (h : p.varargs = some name) :
    name ∉ p.named := by
  have hdistinct := hp.distinct
  unfold names at hdistinct
  grind

theorem varkw_not_mem (hp : p.Proper) {name : String} (h : p.varkw = some name) :
    name ∉ p.named ∧ p.varargs ≠ some name := by
  have hdistinct := hp.distinct
  unfold names at hdistinct
  grind

end Parameters.Proper

namespace Analysis

theorem mem_insert {name x : String} {v : VarId} :
    x ∈ bound.insert name v ↔ x = name ∨ x ∈ bound := by
  rw [Std.TreeMap.mem_insert, Std.LawfulEqCmp.compare_eq_iff_eq, eq_comm]

/-- Surplus positional arguments are collected by the parameter for them, which is bound besides. -/
theorem collectPositional_ok {S : Setting} (hfits : S.Fits m) (hm : m.Sound)
    (hn : n < m.graph.nodes.size) (hargs : ∀ v ∈ args.positional, v < m.graph.vars.size)
    (hopen : args.isOpen = false) (hp : p.Proper) (hbinds : p.Binds args bound) : ∃ bound' m',
      (collectPositional n p args bound).run m = .ok (.ok bound') m' ∧ m'.Sound ∧ S.Fits m' ∧
      m.Enlarges m' ∧ p.Binds args bound' ∧
      (∀ x, x ∈ bound' ↔ x ∈ bound ∨ p.varargs = some x) ∧
      ∀ name, p.varargs = some name → ∃ v o, bound'[name]? = some v ∧ m'.HoldsOnly n v o "tuple" ∧
        o.payload = some (.tuple (p.surplusPositional args)) := by
  unfold collectPositional
  cases hname : p.varargs with
  | none =>
    refine ⟨bound, m, rfl, hm, hfits, .refl hm.built, hbinds, fun x => ?_, fun _ h => by cases h⟩
    simp
  | some name =>
    have hstar : args.star = none := by
      have h := (Bool.or_eq_false_iff.mp hopen).1
      simpa using h
    have hsurplus (v : VarId) (hv : v ∈ p.surplusPositional args) : v < m.graph.vars.size :=
      hargs v (List.mem_of_mem_drop hv)
    obtain ⟨v, m', o, htuple, hle, hholds, hpayload⟩ :=
      surplusTuple_ok hfits hm.built hn name (p.surplusPositional args)
    rw [hstar]
    have hinsert : (liftM (surplusTuple n name none (p.surplusPositional args)) >>= fun v =>
        (pure (bound.insert name v) : Attempt Members)).run m = .ok (.ok (bound.insert name v)) m' :=
      Attempt.bind_ok.mpr ⟨v, m', Attempt.lift_ok.mpr htuple, Attempt.pure_ok.mpr ⟨rfl, rfl⟩⟩
    refine ⟨bound.insert name v, m', hinsert, ?_, ?_, hle,
      hbinds.insert (hp.varargs_not_mem hname) v, fun x => ?_, fun x hx => ?_⟩
    · exact ((Follows.surplusTuple (e := m.extent) (.inr hn) name none hsurplus).left hm le_rfl htuple).1
    · exact (Agree.surplusTuple name none _).fits hfits htuple
    · rw [mem_insert, or_comm, Option.some.injEq, eq_comm]
    · cases hx
      exact ⟨v, o, Std.TreeMap.getElem?_insert_self, hholds, hpayload⟩

/-- What is left over is collected by the parameters for it, which are bound besides. -/
theorem collect_ok {S : Setting} (hfits : S.Fits m) (hm : m.Sound)
    (hn : n < m.graph.nodes.size) (hpositional : ∀ v ∈ args.positional, v < m.graph.vars.size)
    (hnamed : ∀ entry ∈ args.named, entry.2 < m.graph.vars.size) (hopen : args.isOpen = false)
    (hp : p.Proper) (hbinds : p.Binds args bound) (hbound : ∀ x, x ∈ bound ↔ x ∈ p.named) :
    ∃ bound' m', (collectPositional n p args bound >>=
        collectNamed n p args (p.surplusNamed args)).run m = .ok (.ok bound') m' ∧
      p.Binds args bound' ∧ (∀ x, x ∈ bound' ↔ x ∈ p.names) ∧ p.Collects args n m m' bound' := by
  obtain ⟨bound₁, m₁, hrun₁, hm₁, hfits₁, hle₁, hbinds₁, hmem₁, hvarargs⟩ :=
    collectPositional_ok hfits hm hn hpositional hopen hp hbinds
  cases hname : p.varkw with
  | none =>
    have hrun : (collectNamed n p args (p.surplusNamed args) bound₁).run m₁ =
        .ok (.ok bound₁) m₁ := by
      unfold collectNamed
      rw [hname]
      rfl
    refine ⟨bound₁, m₁, Attempt.bind_ok.mpr ⟨_, m₁, hrun₁, hrun⟩, hbinds₁, fun x => ?_,
      ⟨hvarargs, fun x hx => by rw [hname] at hx; cases hx⟩⟩
    rw [hmem₁, hbound, Parameters.names, hname]
    simp
  | some name =>
    have hstar : args.starStar = none := by simpa using (Bool.or_eq_false_iff.mp hopen).2
    obtain ⟨hother, hne⟩ := hp.varkw_not_mem hname
    have hkeywords (entry : String × VarId) (h : entry ∈ p.surplusNamed args) :
        entry.2 < m.graph.vars.size := hnamed entry (List.mem_filter.mp h).1
    obtain ⟨v, m₂, o, hdict, hle₂, hholds, hheld⟩ := surplusDict_ok hfits₁ hm₁
      (hn.trans_le hle₁.graph.nodes_le)
      fun entry h => (hkeywords entry h).trans_le hle₁.graph.vars_le
    have hrun : (collectNamed n p args (p.surplusNamed args) bound₁).run m₁ =
        .ok (.ok (bound₁.insert name v)) m₂ := by
      unfold collectNamed
      rw [hname, hstar]
      exact Attempt.bind_ok.mpr ⟨v, m₂, Attempt.lift_ok.mpr hdict, Attempt.pure_ok.mpr ⟨rfl, rfl⟩⟩
    refine ⟨_, m₂, Attempt.bind_ok.mpr ⟨_, m₁, hrun₁, hrun⟩, hbinds₁.insert hother v, fun x => ?_,
      ⟨fun x hx => ?_, fun x hx => ?_⟩⟩
    · rw [mem_insert, hmem₁, hbound, Parameters.names, hname]
      simp [or_comm, or_assoc, eq_comm]
    · obtain ⟨u, t, hu, ht, hpayload⟩ := hvarargs x hx
      refine ⟨u, t, ?_, hle₂.holdsOnly hm₁.built ht, hpayload⟩
      rw [Std.TreeMap.getElem?_insert, if_neg, hu]
      rw [Std.LawfulEqCmp.compare_eq_iff_eq]
      rintro rfl
      exact hne hx
    · obtain rfl := Option.some.inj (hname.symm.trans hx)
      exact ⟨v, o, Std.TreeMap.getElem?_insert_self, hholds,
        hheld.since hm.built.wellFormed hle₁ hkeywords⟩

/-- A call of a function without stars binds its arguments if it keeps to the rules. Then each
parameter is bound, and as the rules say. -/
theorem bindArguments_follows_rules {S : Setting} (hfits : S.Fits m) (hm : m.Sound)
    (hn : n < m.graph.nodes.size) (f : FunctionValue) (hp : (Parameters.ofFunction f).Proper)
    (hpositional : ∀ v ∈ args.positional, v < m.graph.vars.size)
    (hnamed : ∀ entry ∈ args.named, entry.2 < m.graph.vars.size) (hopen : args.isOpen = false) :
    ∃ r m', (bindArguments n (.ofFunction f) args).run m = .ok r m' ∧
      ((∃ bound, r = .ok bound) ↔ (Parameters.ofFunction f).Accepts args) ∧
      ∀ bound, r = .ok bound → (∀ x, x ∈ bound ↔ x ∈ (Parameters.ofFunction f).names) ∧
        (Parameters.ofFunction f).Binds args bound ∧
        (Parameters.ofFunction f).Collects args n m m' bound := by
  rw [bindArguments_eq hopen]
  cases hr : (Parameters.ofFunction f).bindNames args with
  | error failure =>
    refine ⟨.error failure, m, rfl, ?_, fun _ h => by cases h⟩
    rw [← Parameters.exists_bindNames hp, hr]
    simp
  | ok r =>
    obtain ⟨bound, keywords⟩ := r
    obtain ⟨rfl, hbinds, hbound⟩ := Parameters.bindNames_binds hp hr
    obtain ⟨bound', m', hrun, hbinds', hbound', hcollects⟩ :=
      collect_ok hfits hm hn hpositional hnamed hopen hp hbinds hbound
    refine ⟨.ok bound', m', hrun, iff_of_true ⟨_, rfl⟩ ?_, fun _ h => ?_⟩
    · exact (Parameters.exists_bindNames hp).mp ⟨_, hr⟩
    · cases h
      exact ⟨hbound', hbinds', hcollects⟩

/-- A function with two positional parameters, of which the last one has a default, a parameter that
is given by keyword only, and parameters for whatever else there is. -/
def generous : FunctionValue where
  name := "f"
  code := {
    place := []
    code := { (default : Code) with
      argCount := 2
      kwonlyArgCount := 1
      flags := Code.varArgs ||| Code.varKeywords
      varnames := ["a", "b", "c", "rest", "more"] } }
  globals := 0
  defaults := [0]

def mixedArgs : CallArgs where
  positional := [0]
  named := [("c", 0), ("other", 0)]

/-- The second parameter gets its default, and the keyword that names no parameter a member. -/
theorem generous_binds : ∃ (m m' : Machine) (bound : Members),
    (bindArguments Machine.root (.ofFunction generous) mixedArgs).run m = .ok (.ok bound) m' ∧
    (Parameters.ofFunction generous).Binds mixedArgs bound ∧
    (Parameters.ofFunction generous).Collects mixedArgs Machine.root m m' bound := by
  obtain ⟨S, m₀, -, hfits, hm⟩ := Machine.exists_make
  have hnew : newVariable "x" m₀ = .ok m₀.graph.vars.size
    { m₀ with graph := (m₀.graph.newVariable "x").2 } := rfl
  have hsize : 0 < (m₀.graph.newVariable "x").2.vars.size := by simp [Graph.newVariable]
  have hproper : (Parameters.ofFunction generous).Proper := ⟨by decide, by decide⟩
  have hpositional : ∀ v ∈ mixedArgs.positional, v < (m₀.graph.newVariable "x").2.vars.size := by
    simp [mixedArgs, hsize]
  obtain ⟨r, m', hrun, haccepts, hbinds⟩ := bindArguments_follows_rules
    ((Agree.newVariable "x").fits hfits hnew)
    ((Follows.newVariable "x").left hm le_rfl hnew).1 hm.root generous hproper hpositional
    (by simp [mixedArgs, hsize]) rfl
  obtain ⟨bound, rfl⟩ := haccepts.mpr {
    count := by decide
    unfilled := by decide
    once := by decide
    known := by decide
    filled := fun i name _ => by
      change i < 1 ∨ name ∈ ["c", "other"] ∨ 2 ≤ i + 1
      omega
    filledKwonly := by decide }
  obtain ⟨-, h⟩ := hbinds bound rfl
  exact ⟨_, m', bound, hrun, h⟩

end Analysis

end ValueTrace
