import ValueTrace.Proofs.Findings.Subscripts
import ValueTrace.Proofs.Flow.Calls
import ValueTrace.Proofs.Machine.Attributes

/-!
# Attributes that a class does not have

An attribute is looked up along the linearisation of a class. A base that is no class has no place
in it, whatever else may be known of the base, so what cannot be found in the other classes is
reported as missing.
-/

namespace ValueTrace

namespace Machine

/-- The library declares a member for the class. -/
def Declares (m : Machine) (cls : DataId) (name : String) : Prop :=
  ∃ decl, m.library.class? (m.store.className cls) = some decl ∧
    (name ∈ decl.methods ∨ name ∈ decl.attributes)

/-- The class itself has the member, or gets it from its declaration. -/
def Offers (m : Machine) (cls : DataId) (name : String) : Prop :=
  ∃ c, m.store.class? cls = some c ∧
    (name ∈ c.members ∨ c.origin = .library ∧ m.Declares cls name)

def Inherits (m : Machine) (cls : DataId) (name : String) : Prop :=
  ∃ d ∈ m.store.mro cls, m.Offers d name

/-- The value is a class that has the member, or an object that has a slot or gets the member from
its class. -/
def HasAttribute (m : Machine) (d : DataId) (name : String) : Prop :=
  match m.store.get d with
  | .object o => name ∈ o.members ∨ m.Inherits o.cls name
  | .ofClass _ => m.Inherits d name
  | _ => False

/-- What is reported of a variable if no value in it has the attribute. -/
def lackedAttribute (m : Machine) (n : NodeId) (obj : VarId) (name : String) : Finding :=
  let data := m.graph.visibleData obj n
  if data.all m.store.isNone then
    m.finding .noneAttr s!"Access of attribute '{name}' on None" [obj]
  else
    match data with
    | [d] => m.finding .attributeError s!"No attribute '{name}' on {m.store.typeName d}" [obj]
    | _ => m.finding .attributeError s!"No attribute '{name}'" [obj]

def lackReported (m : Machine) (n : NodeId) (obj : VarId) (name : String) : FindingLog :=
  if m.graph.visible obj n = [] then m.log else m.log.report (m.lackedAttribute n obj name)

/-- The answer of a lookup is a variable in which something can be seen at the node. -/
def Shows (m : Machine) (n : NodeId) (o : Option VarId) : Prop :=
  ∃ slot, o = some slot ∧ m.graph.visible slot n ≠ []

end Machine

def Machine.classesIn (m : Machine) (n : NodeId) (vs : List VarId) : List DataId :=
  vs.flatMap fun v => (m.graph.visibleData v n).filter fun d => (m.store.class? d).isSome

def Value.hasClass : Value → Bool
  | .object _ | .ofClass _ => true
  | _ => false

namespace Analysis

variable {α : Type} {m m' m₁ : Machine} {n : NodeId} {obj slot : VarId} {b : BindingId} {d cls : DataId}
  {name : String} {o : Option VarId} {ds : List DataId} {call : Caller} {p : Path}
  {rest : List VarId} {i : Instruction} {receiver : Option BindingId}

private theorem exists_getElem? {t : Std.TreeMap String α} (h : name ∈ t) :
    ∃ a, t[name]? = some a :=
  Option.isSome_iff_exists.mp (Std.TreeMap.mem_iff_isSome_getElem?.mp h)

private theorem not_mem_of_getElem? {t : Std.TreeMap String α} (h : t[name]? = none) :
    name ∉ t := by
  rw [Std.TreeMap.mem_iff_isSome_getElem?, h]
  exact Bool.false_ne_true

/-- A member that is not declared is not there, and looking for it changes nothing. -/
theorem libraryMember_none (h : ¬ m.Declares cls name) : libraryMember cls name m = .ok none m := by
  unfold libraryMember
  rw [bind_eq_of_ok (get_ok.mpr ⟨rfl, rfl⟩)]
  cases hdecl : m.library.class? (m.store.className cls) with
  | none => rfl
  | some decl =>
    have hmethod : decl.methods[name]? = none :=
      Std.TreeMap.getElem?_eq_none fun hmem => h ⟨decl, hdecl, .inl hmem⟩
    have hattr : decl.attributes[name]? = none :=
      Std.TreeMap.getElem?_eq_none fun hmem => h ⟨decl, hdecl, .inr hmem⟩
    simp only [hmethod, hattr]
    rfl

theorem libraryMember_ne_none (h : m.Declares cls name)
    (hr : libraryMember cls name m = .ok o m') : o ≠ none := by
  have hmade {v : VarId} {m₁ : Machine}
      (hr : (do addMember cls name v; return some v) m₁ = .ok o m') : o ≠ none := by
    obtain ⟨_, _, -, hr⟩ := bind_ok.mp hr
    obtain ⟨rfl, -⟩ := pure_ok.mp hr
    exact Option.some_ne_none v
  obtain ⟨decl, hdecl, hname⟩ := h
  unfold libraryMember at hr
  rw [bind_eq_of_ok (get_ok.mpr ⟨rfl, rfl⟩)] at hr
  simp only [hdecl] at hr
  cases hmethod : decl.methods[name]? with
  | some f =>
    simp only [hmethod] at hr
    obtain ⟨_, _, -, hr⟩ := bind_ok.mp hr
    obtain ⟨_, _, -, hr⟩ := bind_ok.mp hr
    exact hmade hr
  | none =>
    obtain ⟨t, hattr⟩ := exists_getElem? (hname.resolve_left (not_mem_of_getElem? hmethod))
    simp only [hmethod, hattr] at hr
    obtain ⟨_, _, -, hr⟩ := bind_ok.mp hr
    exact hmade hr

/-- A class that does not have the member is passed over. -/
theorem memberAlong_cons_of_not_offers (h : ¬ m.Offers d name) :
    memberAlong name (d :: ds) m = memberAlong name ds m := by
  rw [memberAlong, bind_eq_of_ok (get_ok.mpr ⟨rfl, rfl⟩)]
  cases hclass : m.store.class? d with
  | none => rfl
  | some c =>
    have hslot : c.members[name]? = none :=
      Std.TreeMap.getElem?_eq_none fun hmem => h ⟨c, hclass, .inl hmem⟩
    simp only [hslot]
    split
    · next horigin =>
      have hdecl : ¬ m.Declares d name := fun hd => h ⟨c, hclass, .inr ⟨horigin, hd⟩⟩
      rw [bind_eq_of_ok (libraryMember_none hdecl)]
    · rfl

theorem memberAlong_none (h : ∀ d ∈ ds, ¬ m.Offers d name) :
    memberAlong name ds m = .ok none m := by
  induction ds with
  | nil => rfl
  | cons d ds ih =>
    rw [memberAlong_cons_of_not_offers (h d List.mem_cons_self)]
    exact ih fun e he => h e (List.mem_cons_of_mem d he)

theorem memberAlong_ne_none (h : ∃ d ∈ ds, m.Offers d name)
    (hr : memberAlong name ds m = .ok o m') : o ≠ none := by
  induction ds with
  | nil =>
    obtain ⟨_, hd, -⟩ := h
    cases hd
  | cons d ds ih =>
    by_cases hd : m.Offers d name
    · obtain ⟨c, hclass, hname⟩ := hd
      rw [memberAlong, bind_eq_of_ok (get_ok.mpr ⟨rfl, rfl⟩)] at hr
      simp only [hclass] at hr
      cases hslot : c.members[name]? with
      | some v =>
        simp only [hslot] at hr
        obtain ⟨rfl, -⟩ := pure_ok.mp hr
        exact Option.some_ne_none v
      | none =>
        obtain ⟨horigin, hdecl⟩ := hname.resolve_left (not_mem_of_getElem? hslot)
        simp only [hslot, if_pos horigin] at hr
        obtain ⟨r, _, hmember, hr⟩ := bind_ok.mp hr
        obtain ⟨v, rfl⟩ := Option.ne_none_iff_exists'.mp (libraryMember_ne_none hdecl hmember)
        obtain ⟨rfl, -⟩ := pure_ok.mp hr
        exact Option.some_ne_none v
    · rw [memberAlong_cons_of_not_offers hd] at hr
      obtain ⟨e, he, hoffers⟩ := h
      rcases List.mem_cons.mp he with rfl | he
      · exact absurd hoffers hd
      · exact ih ⟨e, he, hoffers⟩ hr

theorem classMember_none (h : ¬ m.Inherits cls name) : classMember cls name m = .ok none m :=
  memberAlong_none fun d hd hoffers => h ⟨d, hd, hoffers⟩

theorem classMember_ne_none (h : m.Inherits cls name) (hr : classMember cls name m = .ok o m') :
    o ≠ none := memberAlong_ne_none h hr

/-- An attribute that a class or an object does not have is not found, and looking for it changes
nothing. -/
theorem attributeOf_none (hd : (m.store.get d).hasClass) (h : ¬ m.HasAttribute d name) :
    attributeOf n d name receiver m = .ok none m := by
  have hvalue : value d m = .ok (m.store.get d) m := rfl
  unfold attributeOf
  rw [bind_eq_of_ok hvalue]
  unfold Machine.HasAttribute at h
  cases hv : m.store.get d with
  | object x =>
    simp only [hv, not_or] at h
    simp only [Std.TreeMap.getElem?_eq_none h.1]
    rw [bind_eq_of_ok (classMember_none h.2)]
    rfl
  | ofClass c =>
    simp only [hv] at h
    exact classMember_none h
  | _ =>
    rw [hv] at hd
    cases hd

theorem attributeOf_ne_none (h : m.HasAttribute d name)
    (hr : attributeOf n d name receiver m = .ok o m') : o ≠ none := by
  have hvalue : value d m = .ok (m.store.get d) m := rfl
  unfold attributeOf at hr
  rw [bind_eq_of_ok hvalue] at hr
  unfold Machine.HasAttribute at h
  cases hv : m.store.get d with
  | object x =>
    simp only [hv] at h hr
    cases hslot : x.members[name]? with
    | some v =>
      simp only [hslot] at hr
      obtain ⟨rfl, -⟩ := pure_ok.mp hr
      exact Option.some_ne_none v
    | none =>
      simp only [hslot] at hr
      obtain ⟨r, _, hmember, hr⟩ := bind_ok.mp hr
      have hinherits := h.resolve_left (not_mem_of_getElem? hslot)
      obtain ⟨v, rfl⟩ := Option.ne_none_iff_exists'.mp (classMember_ne_none hinherits hmember)
      obtain ⟨w, _, -, hr⟩ := bind_ok.mp hr
      obtain ⟨rfl, -⟩ := pure_ok.mp hr
      exact Option.some_ne_none w
  | ofClass c =>
    simp only [hv] at h hr
    exact classMember_ne_none h hr
  | _ => simp only [hv] at h

/-- If no value has the attribute, then this is reported, unless nothing can be in the variable. -/
theorem loadAttribute_lacks (h : loadAttribute? n obj name m = .ok none m₁) :
    loadAttribute n obj name m = .ok m₁.graph.vars.size
      (Machine.givingUp { m₁ with log := m₁.lackReported n obj name } n) := by
  have hdata : dataAt obj n m₁ = .ok (m₁.graph.visibleData obj n) m₁ := rfl
  have hnil : m₁.graph.visibleData obj n = [] ↔ m₁.graph.visible obj n = [] := List.map_eq_nil_iff
  unfold loadAttribute Machine.lackReported Machine.lackedAttribute
  rw [bind_eq_of_ok h]
  refine (bind_eq_of_ok hdata).trans ((bind_eq_of_ok (get_ok.mpr ⟨rfl, rfl⟩)).trans ?_)
  simp only [← hnil]
  cases hshown : m₁.graph.visibleData obj n with
  | nil => rfl
  | cons d ds =>
    rw [if_neg (List.cons_ne_nil d ds), List.isEmpty_cons, if_neg Bool.false_ne_true]
    by_cases hnone : (d :: ds).all m₁.store.isNone = true
    · rw [if_pos hnone, if_pos hnone]
      exact bind_eq_of_ok (report_ok ..)
    · rw [if_neg hnone, if_neg hnone]
      cases ds <;> exact bind_eq_of_ok (report_ok ..)

/-- What a slot shows is copied to the answer, and otherwise nothing is done. -/
theorem pasteAttribute_ok (m : Machine) (n : NodeId) (r slot : VarId) (b : BindingId) :
    ∃ m₁, pasteAttribute n r slot b m = .ok (!(m.graph.visible slot n).isEmpty) m₁ ∧
      (m.graph.visible slot n = [] → m₁ = m) := by
  have hcopy (as : List BindingId) (m : Machine) :
      ∃ m₁, (as.forM fun a => do bind r (← dataOf a) [a, b] n) m = .ok () m₁ ∧
        (as = [] → m₁ = m) := by
    induction as generalizing m with
    | nil => exact ⟨m, rfl, fun _ => rfl⟩
    | cons a as ih =>
      have hstep : (do bind r (← dataOf a) [a, b] n) m = .ok () { m with
        graph := (m.graph.addBinding r (m.graph.dataOf a) [a, b] n).2 } := rfl
      obtain ⟨m₁, hrest, -⟩ := ih _
      exact ⟨m₁, (bind_eq_of_ok hstep).trans hrest, fun h => nomatch h⟩
  have hvisible : visible slot n m = .ok (m.graph.visible slot n) m := rfl
  obtain ⟨m₁, hrun, hkeep⟩ := hcopy (m.graph.visible slot n) m
  refine ⟨m₁, ?_, hkeep⟩
  unfold pasteAttribute
  rw [bind_eq_of_ok hvisible]
  exact bind_eq_of_ok hrun

/-- A lookup on the only value in a variable succeeds if and only if something can be seen in what
the value answers. -/
theorem loadAttribute?_single (hobj : m.graph.visible obj n = [b])
    (h : attributeOf n (m.graph.dataOf b) name (some b)
      { m with graph := (m.graph.newVariable name).2 } = .ok o m₁) :
    ∃ r m', loadAttribute? n obj name m = .ok r m' ∧ m'.log = m.log ∧
      (m₁.Shows n o ∧ r ≠ none ∨ ¬ m₁.Shows n o ∧ r = none ∧ m' = m₁) := by
  let m₀ : Machine := { m with graph := (m.graph.newVariable name).2 }
  have hlog : m₁.log = m₀.log := (Spares.attributeOf (π := Machine.log) ..).of_ok h
  -- The answer is whether the only value had something to give.
  cases o with
  | none =>
    have hnothing : (pure false : Analysis Bool) m₁ = .ok false m₁ := rfl
    have hfound := loadAttribute?_of_single hobj h hnothing
    refine ⟨_, _, hfound, hlog, .inr ⟨?_, rfl, rfl⟩⟩
    rintro ⟨_, hslot, -⟩
    cases hslot
  | some slot =>
    obtain ⟨m', hpaste, hkeep⟩ := pasteAttribute_ok m₁ n m.graph.vars.size slot b
    have hlog' : m'.log = m₁.log := (Spares.pasteAttribute (π := Machine.log) ..).of_ok hpaste
    have hfound := loadAttribute?_of_single hobj h hpaste
    refine ⟨_, _, hfound, hlog'.trans hlog, ?_⟩
    cases hslot : m₁.graph.visible slot n with
    | nil =>
      refine .inr ⟨?_, rfl, hkeep hslot⟩
      rintro ⟨_, heq, hne⟩
      cases heq
      exact hne hslot
    | cons a as =>
      exact .inl ⟨⟨slot, rfl, hslot ▸ List.cons_ne_nil a as⟩, Option.some_ne_none _⟩

/-- An attribute that the only value in a variable does not have is reported, and the analysis gives
up on it. -/
theorem loadAttribute_of_not_hasAttribute (hobj : m.graph.visible obj n = [b])
    (hd : (m.store.get (m.graph.dataOf b)).hasClass)
    (h : ¬ m.HasAttribute (m.graph.dataOf b) name) :
    ∃ v m', loadAttribute n obj name m = .ok v m' ∧
      m'.log = m.log.report (m.lackedAttribute n obj name) := by
  let m₀ : Machine := { m with graph := (m.graph.newVariable name).2 }
  have hnone : attributeOf n (m.graph.dataOf b) name (some b) m₀ = .ok none m₀ :=
    attributeOf_none hd h
  obtain ⟨r, m', hload, -, ⟨⟨_, hslot, -⟩, -⟩ | ⟨-, rfl, rfl⟩⟩ := loadAttribute?_single hobj hnone
  · cases hslot
  · have hv := loadAttribute_lacks hload
    have hsame (w : VarId) : m₀.graph.visible w n = m.graph.visible w n :=
      Graph.visible_newVariable m.graph name w n
    have hlack : m₀.lackedAttribute n obj name = m.lackedAttribute n obj name := by
      have hdata : m₀.graph.visibleData obj n = m.graph.visibleData obj n :=
        congrArg (List.map m.graph.dataOf) (hsame obj)
      unfold Machine.lackedAttribute
      rw [hdata]
      rfl
    refine ⟨_, _, hv, ?_⟩
    change m₀.lackReported n obj name = _
    rw [Machine.lackReported, hsame, hobj, if_neg (List.cons_ne_nil b []), hlack]

theorem step_loadAttr {v : VarId} (hop : i.op = .loadAttr) (hname : nameAt i m = .ok name m)
    (hstack : p.stack = obj :: rest) (h : loadAttribute p.node obj name m = .ok v m') :
    step call i p m = .ok { p with stack := v :: rest } m' := by
  have hpop : p.pop = .ok (obj, { p with stack := rest }) := by
    unfold Path.pop
    rw [hstack]
  unfold step
  rw [hop]
  refine (bind_eq_of_ok hname).trans ((bind_eq_of_ok (liftM_ok.mpr ⟨hpop, rfl⟩)).trans ?_)
  exact bind_eq_of_ok h

/-- Of the bases a class is made from, only the classes in them count. -/
theorem usableBases_ok {vs : List VarId} {r : List VarId × List DataId}
    (h : usableBases n vs m = .ok r m') :
    r.2 = m.classesIn n vs ∧ m'.graph = m.graph ∧ m'.store = m.store := by
  induction vs generalizing m r with
  | nil =>
    obtain ⟨rfl, rfl⟩ := pure_ok.mp h
    exact ⟨rfl, rfl, rfl⟩
  | cons v vs ih =>
    have hdata : dataAt v n m = .ok (m.graph.visibleData v n) m := rfl
    -- Whether or not the base has been reported, the others are gone through.
    have hothers (log : FindingLog) (keep : List VarId → List VarId) (h : (do
        let r ← usableBases n vs
        return (keep r.1,
          ((m.graph.visibleData v n).filter fun d => (m.store.class? d).isSome) ++ r.2))
        { m with log } = .ok r m') :
        r.2 = m.classesIn n (v :: vs) ∧ m'.graph = m.graph ∧ m'.store = m.store := by
      obtain ⟨r', m₁, hrest, hr⟩ := bind_ok.mp h
      obtain ⟨rfl, rfl⟩ := pure_ok.mp hr
      obtain ⟨hclasses, hgraph, hstore⟩ := ih hrest
      exact ⟨congrArg _ hclasses, hgraph, hstore⟩
    unfold usableBases at h
    rw [bind_eq_of_ok hdata, bind_eq_of_ok (get_ok.mpr ⟨rfl, rfl⟩)] at h
    dsimp only at h
    split at h
    · exact hothers m.log (v :: ·) h
    · rw [bind_eq_of_ok (report_ok ..)] at h
      exact hothers _ id h

/-- A base of which nothing is known adds no class. -/
theorem classesIn_cons_of_unknown {v : VarId} {vs : List VarId}
    (h : ∀ d ∈ m.graph.visibleData v n, (m.store.get d).isOpaque) :
    m.classesIn n (v :: vs) = m.classesIn n vs := by
  have hnone : ((m.graph.visibleData v n).filter fun d => (m.store.class? d).isSome) = [] := by
    refine List.filter_eq_nil_iff.mpr fun d hd hclass => ?_
    have hopaque := h d hd
    unfold Store.class? at hclass
    cases hv : m.store.get d <;> simp_all [Value.isOpaque, Value.class?]
  rw [Machine.classesIn, List.flatMap_cons, hnone]
  rfl

/-- A class that is made from bases is linearised along the classes in them. A base in which there
is no class has no part in it. -/
theorem makeClass_class {bases : List VarId} {members : Members} {v : VarId} {mro : List DataId}
    (hw : m.graph.WellFormed) (hne : bases ≠ [])
    (hmro : linearize (.value m.store.values.size) (m.classesIn n bases).eraseDups
      ((m.classesIn n bases).eraseDups.map m.store.mro) = some mro)
    (h : makeClass n name bases members m = .ok v m') :
    (∃ b, m'.graph.BoundBy n v (.value m.store.values.size) b []) ∧
    ∃ c, m'.store.class? (.value m.store.values.size) = some c ∧ c.members = members ∧
      c.mro = mro ∧ c.origin = .program := by
  unfold makeClass at h
  obtain ⟨⟨vars, classes⟩, m₁, hbases, h⟩ := bind_ok.mp h
  obtain ⟨rfl, hgraph, hstore⟩ := usableBases_ok hbases
  have hempty : bases.isEmpty = false := by simpa using hne
  let made (mro : List DataId) : ClassValue :=
    { name, bases := vars, members, mro, origin := .program }
  let m₂ : Machine := { m₁ with store := (m₁.store.add (.ofClass (made []))).2 }
  have hadd : addValue (.ofClass (made [])) m₁ = .ok (.value m.store.values.size) m₂ := by
    rw [← hstore]
    rfl
  -- The new class is none of its bases, so their linearisations are as they were.
  have hsame : (m.classesIn n bases).eraseDups.map m₂.store.mro =
      (m.classesIn n bases).eraseDups.map m.store.mro := by
    refine List.map_congr_left fun d hd => ?_
    obtain ⟨w, -, hd⟩ := List.mem_flatMap.mp (List.mem_eraseDups.mp hd)
    obtain ⟨c, hc⟩ := Option.isSome_iff_exists.mp (List.mem_filter.mp hd).2
    rw [← hstore] at hc ⊢
    unfold Store.mro Store.class?
    rw [show m₂.store = (m₁.store.add (.ofClass (made []))).2 from rfl, Store.get_add,
      if_neg (Store.class?_ne_add hc)]
  simp only [hempty, Bool.false_eq_true, if_false, pure_bind] at h
  rw [bind_eq_of_ok hadd, bind_eq_of_ok (get_ok.mpr ⟨rfl, rfl⟩)] at h
  rw [hsame, hmro] at h
  obtain ⟨_, _, hset, h⟩ := bind_ok.mp h
  obtain rfl := modify_ok.mp hset
  cases h
  have hbound := (Graph.OnlyBinds.newVariable (hgraph ▸ hw) name (.value m.store.values.size)).boundBy
    ((hgraph ▸ hw).newVariable name) (by simp [Graph.newVariable]) [] n
  refine ⟨hbound, made mro, ?_, rfl, rfl, rfl⟩
  rw [← hstore]
  have hvalue (f : Value → Value) (hf : f .unsolvable = .unsolvable) :
      (m₂.store.modify (m₁.store.add (.ofClass (made []))).1 f).get
        (m₁.store.add (.ofClass (made []))).1 = f (.ofClass (made [])) := by
    rw [Store.get_modify hf, if_pos rfl, show m₂.store = (m₁.store.add (.ofClass (made []))).2 from
      rfl, Store.get_add, if_pos rfl]
  exact congrArg Value.class? (hvalue _ rfl)

/-- If nothing is known of the bases, a class that is made has what its body has and no more. -/
theorem hasAttribute_of_unknown_bases {bases : List VarId} {members : Members} {v : VarId}
    {attr : String} (hw : m.graph.WellFormed) (hne : bases ≠ [])
    (hunknown : ∀ w ∈ bases, ∀ d ∈ m.graph.visibleData w n, (m.store.get d).isOpaque)
    (h : makeClass n name bases members m = .ok v m') :
    m'.HasAttribute (.value m.store.values.size) attr ↔ attr ∈ members := by
  have hnone : m.classesIn n bases = [] := by
    clear hne h
    induction bases with
    | nil => rfl
    | cons w ws ih =>
      obtain ⟨hfirst, hothers⟩ := List.forall_mem_cons.mp hunknown
      rw [classesIn_cons_of_unknown hfirst]
      exact ih hothers
  have hlinear : linearize (.value m.store.values.size) (m.classesIn n bases).eraseDups
      ((m.classesIn n bases).eraseDups.map m.store.mro) = some [.value m.store.values.size] := by
    rw [hnone]
    rfl
  obtain ⟨-, c, hc, rfl, hmro, horigin⟩ := makeClass_class hw hne hlinear h
  have hoffers : m'.Offers (.value m.store.values.size) attr ↔ attr ∈ c.members := by
    constructor
    · rintro ⟨c', hc', hmem | ⟨hlibrary, -⟩⟩
      · exact Option.some.inj (hc.symm.trans hc') ▸ hmem
      · rw [← Option.some.inj (hc.symm.trans hc'), horigin] at hlibrary
        cases hlibrary
    · exact fun hmem => ⟨c, hc, .inl hmem⟩
  unfold Machine.HasAttribute Machine.Inherits Store.mro
  rw [Store.get_of_class? hc, hc]
  simp [hmro, hoffers]

end Analysis

open Analysis

/-- An attribute is looked up at the point, and all that is seen of the operand is one class or
object. -/
structure Point.LooksUp (pt : Point) (obj : VarId) (b : BindingId) (name : String)
    (rest : List VarId) : Prop where
  op : pt.instruction.op = .loadAttr
  name : nameAt pt.instruction pt.machine = .ok name pt.machine
  stack : pt.path.stack = obj :: rest
  visible : pt.machine.graph.visible obj pt.path.node = [b]
  hasClass : (pt.machine.store.get (pt.machine.graph.dataOf b)).hasClass

/-- What a class or an object does not have is reported, whatever the bases of the class may be.
What it has is reported only if nothing can be seen in it. -/
theorem loadAttr_log {pt : Point} {obj : VarId} {b : BindingId} {name : String} {rest : List VarId}
    (h : pt.LooksUp obj b name rest) (call : Caller) :
    (¬ pt.machine.HasAttribute (pt.machine.graph.dataOf b) name →
      ∃ v m', step call pt.instruction pt.path pt.machine =
          .ok { pt.path with stack := v :: rest } m' ∧
        m'.log = pt.machine.log.report (pt.machine.lackedAttribute pt.path.node obj name)) ∧
    (pt.machine.HasAttribute (pt.machine.graph.dataOf b) name →
      ∀ o m₁, attributeOf pt.path.node (pt.machine.graph.dataOf b) name (some b)
          { pt.machine with graph := (pt.machine.graph.newVariable name).2 } = .ok o m₁ →
        ∃ slot v m', o = some slot ∧ step call pt.instruction pt.path pt.machine =
            .ok { pt.path with stack := v :: rest } m' ∧
          m'.log = if m₁.graph.visible slot pt.path.node = [] then
              m₁.lackReported pt.path.node obj name
            else pt.machine.log) := by
  refine ⟨fun hlacks => ?_, fun hhas o m₁ hattr => ?_⟩
  · obtain ⟨v, m', hload, hlog⟩ :=
      loadAttribute_of_not_hasAttribute h.visible h.hasClass hlacks
    exact ⟨v, m', step_loadAttr h.op h.name h.stack hload, hlog⟩
  · have hhas' : Machine.HasAttribute
        { pt.machine with graph := (pt.machine.graph.newVariable name).2 }
        (pt.machine.graph.dataOf b) name := hhas
    obtain ⟨slot, rfl⟩ := Option.ne_none_iff_exists'.mp (attributeOf_ne_none hhas' hattr)
    obtain ⟨r, m₂, hload, hlog, ⟨⟨_, hslot, hne⟩, hr⟩ | ⟨hhidden, rfl, rfl⟩⟩ :=
      loadAttribute?_single h.visible hattr
    · obtain rfl := Option.some.inj hslot
      obtain ⟨v, rfl⟩ := Option.ne_none_iff_exists'.mp hr
      refine ⟨slot, v, m₂, rfl, step_loadAttr h.op h.name h.stack (loadAttribute_some hload), ?_⟩
      rw [if_neg hne]
      exact hlog
    · have hempty : m₂.graph.visible slot pt.path.node = [] :=
        not_not.mp fun hne => hhidden ⟨slot, rfl, hne⟩
      have hv := loadAttribute_lacks hload
      refine ⟨slot, _, _, rfl, step_loadAttr h.op h.name h.stack hv, ?_⟩
      rw [if_pos hempty]
      rfl

/-- `pass`. -/
def heirBody : Code where
  name := "A"
  filename := "m.py"
  firstLine := 1
  argCount := 0
  kwonlyArgCount := 0
  flags := 0
  varnames := []
  names := []
  consts := []
  cellvars := []
  freevars := []
  blocks := [{ id := 0, ops := [
    { index := 0, op := .loadLocals, line := 1 },
    { index := 1, op := .returnValue, line := 1 }] }]

/-- `class A(nope): pass` and `y = A.foo`. -/
def heir : Code where
  name := "<module>"
  filename := "m.py"
  firstLine := 1
  argCount := 0
  kwonlyArgCount := 0
  flags := 0
  varnames := []
  names := ["nope", "A", "foo", "y"]
  consts := [.str "A", .code heirBody, .none]
  cellvars := []
  freevars := []
  blocks := [{ id := 0, ops := [
    { index := 0, op := .loadConst, arg := some 0, line := 1 },
    { index := 1, op := .loadName, arg := some 0, line := 1 },
    { index := 2, op := .buildTuple, arg := some 1, line := 1 },
    { index := 3, op := .loadConst, arg := some 1, line := 1 },
    { index := 4, op := .makeFunction, arg := some 0, line := 1 },
    { index := 5, op := .callFunction, arg := some 0, line := 1 },
    { index := 6, op := .buildClass, line := 1 },
    { index := 7, op := .storeName, arg := some 1, line := 1 },
    { index := 8, op := .loadName, arg := some 1, line := 2 },
    { index := 9, op := .loadAttr, arg := some 2, line := 2 },
    { index := 10, op := .storeName, arg := some 3, line := 2 },
    { index := 11, op := .loadConst, arg := some 2, line := 2 },
    { index := 12, op := .returnValue, line := 2 }] }]

def heirLookup : Instruction := { index := 9, op := .loadAttr, arg := some 2, line := 2 }

/-- The module when the class has been loaded: its base is something on which the analysis has given
up. -/
def heirPoint : Point where
  entries := []
  instruction := heirLookup
  path := { node := 0, stack := [1] }
  machine := {
    graph := .drawn [Graph.drawnNode 0 "start" [] [] none [0, 1]] ["unsolvable", "A"]
      [(0, .value 0, ⟨0, [[]]⟩), (1, .value 1, ⟨0, [[]]⟩)] 0
    store := { values := #[.unsolvable,
      .ofClass { name := "A", bases := [0], mro := [.value 1], origin := .program }] }
    frames := [{
      code := ⟨[0], heir⟩
      globals := 0
      locals := 0
      cells := []
      result := 0
      yielded := 0
      current := some heirLookup }] }

theorem heirPoint_log : heirPoint.LooksUp 1 1 "foo" [] ∧
    ¬ heirPoint.machine.HasAttribute (.value 1) "foo" ∧
    ∃ v m', step (callEach (callValue step 0)) heirPoint.instruction heirPoint.path
        heirPoint.machine = .ok { node := 0, stack := [v] } m' ∧
      m'.log.findings = [{
        kind := .attributeError, message := "No attribute 'foo' on Type[A]", filename := "m.py"
        function := "<module>", line := 2, opcode := "LOAD_ATTR", vars := [1] }] := by
  have hlooks : heirPoint.LooksUp 1 1 "foo" [] := {
    op := rfl
    name := rfl
    stack := rfl
    visible := by cbv
    hasClass := rfl }
  have hlacks : ¬ heirPoint.machine.HasAttribute (.value 1) "foo" := by
    rintro ⟨d, hd, c, hc, hname⟩
    obtain rfl : d = .value 1 := List.mem_singleton.mp hd
    obtain rfl := Option.some.inj hc
    rcases hname with hname | ⟨hlibrary, -⟩
    · exact Std.TreeMap.not_mem_emptyc hname
    · cases hlibrary
  obtain ⟨v, m', hstep, hlog⟩ := (loadAttr_log hlooks (callEach (callValue step 0))).1 hlacks
  refine ⟨hlooks, hlacks, v, m', hstep, ?_⟩
  rw [hlog]
  rfl

/-- Whether a base of the class of a value can be something at the node that is not known to be a
class or not. -/
def Machine.hasOpaqueBase (m : Machine) (n : NodeId) (d : DataId) : Bool :=
  (m.store.class? ((m.store.classOf? d).getD d)).any fun c =>
    c.bases.any fun v => (m.graph.visibleData v n).any fun e => (m.store.get e).isOpaque

/-- Whether an attribute of a class or object with such a base, if one is looked up at the point,
leaves the log as it is. -/
def Point.sparesHeirs (pt : Point) (call : Caller) : Bool :=
  match pt.instruction.op, pt.path.stack with
  | .loadAttr, obj :: _ =>
    !((pt.machine.graph.visibleData obj pt.path.node).any
        (pt.machine.hasOpaqueBase pt.path.node)) ||
      match step call pt.instruction pt.path pt.machine with
      | .ok _ m' => m'.log = pt.machine.log
      | .error .. => true
  | _, _ => true

theorem heir_checked :
    analyzeWith (stepTracked (checked fun pt =>
      pt.sparesHeirs (callEach (callValue step 1)) = true) 2) heir {} = .error strayPoint := by
  unfold analyzeWith Machine.make
  rw [Library.builtins_eq]
  decide +kernel

/-- The attribute could come from the base, but it is reported. -/
theorem heir_not_spared : heir.validate = .ok () ∧
    ¬ Always (fun pt => pt.sparesHeirs (callEach (callValue step 1)) = true) heir {} := by
  have hvalid : heir.validate = .ok () := by decide
  have hoptions : ({} : Options).validate = .ok () := by decide
  exact ⟨hvalid, not_always hvalid hoptions heir_checked⟩

end ValueTrace
