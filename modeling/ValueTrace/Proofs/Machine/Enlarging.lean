import ValueTrace.Machine.Instantiate
import ValueTrace.Proofs.Absorption.Variables
import ValueTrace.Proofs.Machine.Steps
import ValueTrace.Proofs.References.Slots

/-!
# Runs that bind new variables only

What such a run makes it may fill as it likes, and nothing that was there holds more than before.
-/

namespace ValueTrace

/-- The value is in the store. -/
def Store.Has (s : Store) : DataId → Prop
  | .value i => i < s.values.size
  | .marker => True

/-- Only new variables have been bound, objects are as they were, and classes have their names. -/
structure Machine.Enlarges (m m' : Machine) : Prop where
  built : m'.graph.Built
  graph : m.graph.Widens m'.graph
  objects : ∀ d o, m.store.get d = .object o → m'.store.get d = .object o
  classes : ∀ d c, m.store.get d = .ofClass c → ∃ c', m'.store.get d = .ofClass c' ∧ c'.name = c.name

variable {m m' m'' m₀ : Machine} {n : NodeId} {v : VarId} {d : DataId} {o : Object} {name : String}

namespace Store

variable {s : Store}

theorem has_of_get (h : s.get d ≠ .unsolvable) : s.Has d := by
  cases d with
  | marker => trivial
  | value i =>
    by_contra hout
    have hnone : s.values[i]? = none := Array.getElem?_eq_none (Nat.le_of_not_lt hout)
    exact h (by simp [get, hnone])

theorem has_add (h : s.Has d) (x : Value) : (s.add x).2.Has d := by
  cases d with
  | marker => trivial
  | value i => exact (show i < s.values.size from h).trans_le (by simp [add])

theorem not_has_fresh (s : Store) (x : Value) : ¬ s.Has (s.add x).1 := Nat.lt_irrefl _

theorem get_add_of_has (h : s.Has d) (x : Value) : (s.add x).2.get d = s.get d := by
  rw [get_add, if_neg]
  rintro rfl
  exact s.not_has_fresh x h

end Store

namespace Machine.Enlarges

theorem refl (h : m.graph.Built) : m.Enlarges m :=
  ⟨h, .refl _, fun _ _ h => h, fun _ c h => ⟨c, h, rfl⟩⟩

theorem trans (h : m.Enlarges m') (h' : m'.Enlarges m'') : m.Enlarges m'' where
  built := h'.built
  graph := h.graph.trans h'.graph
  objects d o ho := h'.objects d o (h.objects d o ho)
  classes d c hc := by
    obtain ⟨c₁, hc₁, hname₁⟩ := h.classes d c hc
    obtain ⟨c₂, hc₂, hname₂⟩ := h'.classes d c₁ hc₁
    exact ⟨c₂, hc₂, hname₂.trans hname₁⟩

theorem onGraph (h : m.Enlarges m') {g : Graph} (hb : g.Built) (hg : m.graph.Widens g) :
    m.Enlarges { m' with graph := g } := ⟨hb, hg, h.objects, h.classes⟩

theorem add (h : m.graph.Built) (x : Value) :
    m.Enlarges { m with store := (m.store.add x).2 } := by
  have hkept (d : DataId) (hd : m.store.get d ≠ .unsolvable) :
      (m.store.add x).2.get d = m.store.get d := by
    rw [Store.get_add, if_neg]
    rintro rfl
    exact hd Store.fresh_add
  refine ⟨h, .refl _, fun d o ho => ?_, fun d c hc => ⟨c, ?_, rfl⟩⟩
  · exact (hkept d (by simp [ho])).trans ho
  · exact (hkept d (by simp [hc])).trans hc

end Machine.Enlarges

namespace Analysis

variable {α β σ : Type} {x : Analysis α} {f : α → Analysis β}

def Enlarging (x : Analysis α) : Prop := ∀ (m : Machine) (a : α) (m' : Machine), m.graph.Built →
  0 < m.graph.nodes.size → x m = .ok a m' → m.Enlarges m'

namespace Enlarging

theorem pure (a : α) : Enlarging (pure a) := fun _ _ _ hb _ h => by
  cases h
  exact .refl hb

theorem get : Enlarging get := fun _ _ _ hb _ h => by
  cases h
  exact .refl hb

theorem throw (failure : Failure) : Enlarging (throw failure : Analysis α) :=
  fun _ _ _ _ _ h => by cases h

theorem bind (hx : Enlarging x) (hf : ∀ a, Enlarging (f a)) : Enlarging (x >>= f) := by
  intro m b m' hb hn h
  obtain ⟨a, m₁, hr, h⟩ := bind_ok.mp h
  have h₁ := hx m a m₁ hb hn hr
  exact h₁.trans (hf a m₁ b m' h₁.built (hn.trans_le h₁.graph.nodes_le) h)

theorem mapM {f : σ → Analysis β} {l : List σ} (hf : ∀ a, Enlarging (f a)) :
    Enlarging (l.mapM f) := by
  induction l with
  | nil => exact pure _
  | cons a l ih =>
    rw [List.mapM_cons]
    exact bind (hf a) fun b => bind ih fun bs => pure _

theorem share (h : Shared → Shared) : Enlarging (share h) := fun m _ _ hb _ hx => by
  cases hx
  exact ⟨hb, .refl _, fun _ _ h => h, fun _ c h => ⟨c, h, rfl⟩⟩

theorem addValue (x : Value) : Enlarging (addValue x) := fun _ _ _ hb _ h => by
  cases h
  exact .add hb x

theorem newVariable (name : String) : Enlarging (newVariable name) := fun _ _ _ hb _ h => by
  cases h
  exact (Machine.Enlarges.refl hb).onGraph (hb.var name) ((Graph.Widens.refl _).newVariable name)

end Enlarging

/-- A new variable is bound to its value only. -/
theorem variableWith_enlarges (hb : m.graph.Built) (hn : n < m.graph.nodes.size) (name : String)
    (d : DataId) (sources : List BindingId) : ∃ v m', variableWith name d sources n m = .ok v m' ∧
      m.Enlarges m' ∧ ∃ b, m'.graph.BoundBy n v d b (.ofList sources) := by
  have hw := hb.wellFormed
  have hv : m.graph.vars.size < (m.graph.newVariable name).2.vars.size := by
    simp [Graph.newVariable]
  refine ⟨_, _, rfl, (Machine.Enlarges.refl hb).onGraph ?_ ?_, ?_⟩
  · exact (hb.var name).binding d sources hv hn
  · exact ((Graph.Widens.refl _).newVariable name).addBinding hw (hw.newVariable name) le_rfl d
      sources n
  · exact (Graph.OnlyBinds.newVariable hw name d).boundBy (hw.newVariable name) hv sources n

namespace Enlarging

theorem variableWith (name : String) (d : DataId) :
    Enlarging (variableWith name d [] Machine.root) := fun m v m' hb hn h => by
  obtain ⟨_, _, h', henlarges, -⟩ :=
    variableWith_enlarges (n := Machine.root) hb hn name d []
  rw [h] at h'
  cases h'
  exact henlarges

theorem modifyClass (d : DataId) {h : ClassValue → ClassValue} (hh : ∀ c, (h c).name = c.name) :
    Enlarging (setStore (·.modify d fun
      | .ofClass c => .ofClass (h c)
      | v => v)) := fun m _ _ hb _ hx => by
  cases hx
  refine ⟨hb, .refl _, fun e o ho => ?_, fun e c hc => ?_⟩
  · dsimp only
    rw [Store.get_modify rfl, ho]
    split <;> rfl
  · dsimp only
    rw [Store.get_modify rfl, hc]
    split
    · exact ⟨_, rfl, hh c⟩
    · exact ⟨c, rfl, rfl⟩

theorem libraryClassWithin (fuel : Nat) (name : String) :
    Enlarging (libraryClassWithin fuel name) := by
  induction fuel generalizing name with
  | zero => exact throw _
  | succ fuel ih =>
    unfold Analysis.libraryClassWithin
    refine bind get fun m => ?_
    split
    · exact pure _
    · refine bind get fun m => ?_
      split
      · refine bind (addValue _) fun id => ?_
        refine bind (share _) fun _ => ?_
        refine bind (mapM fun base => ?_) fun bases => ?_
        · exact bind (ih base) fun d => bind (variableWith base d) fun v => pure _
        refine bind get fun m => ?_
        dsimp only
        split
        · exact bind (modifyClass id fun _ => rfl) fun _ => pure _
        · exact throw _
      · exact throw _

theorem libraryClass (name : String) : Enlarging (libraryClass name) :=
  bind get fun _ => libraryClassWithin _ name

theorem newObject (cls : DataId) (payload : Option Payload) : Enlarging (newObject cls payload) :=
  bind get fun _ => bind (mapM fun _ => bind (newVariable _) fun _ => pure _) fun _ => addValue _

/-- The items of a tuple may be filled in later, so tuples are left out. -/
theorem constant {c : Constant} (hc : ∀ items, c ≠ .tuple items) (place : List Nat) :
    Enlarging (constant place c) := by
  unfold Analysis.constant
  refine bind get fun m => ?_
  split
  · exact pure _
  · cases c with
    | tuple items => exact absurd rfl (hc items)
    | _ =>
      refine bind get fun m => ?_
      refine bind (libraryClass _) fun cls => ?_
      refine bind (newObject cls _) fun d => ?_
      refine bind (variableWith _ d) fun v => ?_
      refine bind (share _) fun _ => ?_
      exact pure _

theorem literalVar (s : String) : Enlarging (literalVar (.str s)) :=
  bind (constant (fun _ h => by cases h) []) fun _ => pure _

theorem plainObject (name : String) : Enlarging (plainObject name) := by
  refine bind (libraryClass name) fun cls => ?_
  unfold Analysis.sharedObject
  refine bind get fun m => ?_
  split
  · exact newObject cls none
  · refine bind get fun m => ?_
    split
    · exact pure _
    · exact bind (newObject cls none) fun d => bind (share _) fun _ => pure _

end Enlarging

def declare (g : Graph) (names : List String) : Graph :=
  names.foldl (fun g name => (g.newVariable name).2) g

theorem declare_vars_size (g : Graph) (names : List String) :
    (declare g names).vars.size = g.vars.size + names.length := by
  induction names generalizing g with
  | nil => rfl
  | cons name names ih =>
    change (declare (g.newVariable name).2 names).vars.size = _
    rw [ih]
    simp [Graph.newVariable]
    omega

theorem declare_allData (g : Graph) (names : List String) (v : VarId) :
    (declare g names).allData v = g.allData v := by
  induction names generalizing g with
  | nil => rfl
  | cons name names ih => exact (ih _).trans (Graph.allData_newVariable g name v)

theorem mapM_newVariable (names : List String) (m : Machine) :
    (names.mapM fun name => do return (name, ← newVariable name)) m =
      .ok (names.zipIdx m.graph.vars.size) { m with graph := declare m.graph names } := by
  induction names generalizing m with
  | nil => rfl
  | cons name names ih =>
    let m₁ : Machine := { m with graph := (m.graph.newVariable name).2 }
    have hnew : (do return (name, ← newVariable name) : Analysis (String × VarId)) m =
        .ok (name, m.graph.vars.size) m₁ := rfl
    have hsize : m₁.graph.vars.size = m.graph.vars.size + 1 := by simp [m₁, Graph.newVariable]
    rw [List.mapM_cons, bind_eq_of_ok hnew, bind_eq_of_ok (ih m₁), hsize]
    rfl

/-- An object of which nothing is known yet but its class and what it is given. Its type parameters
are new variables, a different one for each. -/
structure IsNew (m m' : Machine) (d : DataId) (o : Object) : Prop where
  absent : ∀ o, m.store.get d ≠ .object o
  object : m'.store.get d = .object o
  members : o.members = ∅
  params : ∀ (name : String) (p : VarId), o.typeParams[name]? = some p →
    m.graph.vars.size ≤ p ∧ p < m'.graph.vars.size ∧ m'.graph.allData p = []
  distinct : ∀ (x y : String) (p : VarId), o.typeParams[x]? = some p →
    o.typeParams[y]? = some p → x = y

theorem IsNew.typeParam? (h : IsNew m m' d o) {p : VarId} (hp : m'.store.typeParam? d name = some p) :
    m.graph.vars.size ≤ p ∧ p < m'.graph.vars.size ∧ m'.graph.allData p = [] := by
  rw [Store.typeParam?_of_get h.object] at hp
  exact h.params name p hp

theorem newObject_ok (m : Machine) (cls : DataId) (payload : Option Payload) :
    ∃ d m' o, newObject cls payload m = .ok d m' ∧ IsNew m m' d o ∧ o.cls = cls ∧
      o.payload = payload := by
  let params := (m.store.template cls).zipIdx m.graph.vars.size
  let o : Object := { cls, typeParams := .ofList params, payload }
  have hparam {name : String} {p : VarId} (h : o.typeParams[name]? = some p) :
      m.graph.vars.size ≤ p ∧ (m.store.template cls)[p - m.graph.vars.size]? = some name := by
    have hslot : (p, name) ∈ slotsOf (.ofList params) := h
    exact List.mk_mem_zipIdx_iff_le_and_getElem?_sub.mp (slotsOf_ofList hslot)
  refine ⟨(m.store.add (.object o)).1, { m with
    graph := declare m.graph (m.store.template cls), store := (m.store.add (.object o)).2 }, o, ?_,
    ⟨?_, ?_, rfl, fun name p hp => ?_, fun x y p hx hy => ?_⟩, rfl, rfl⟩
  · exact bind_eq_of_ok (mapM_newVariable _ m)
  · rw [Store.fresh_add]
    exact nofun
  · exact Store.get_add.trans (if_pos rfl)
  · obtain ⟨hle, hget⟩ := hparam hp
    refine ⟨hle, ?_, ?_⟩
    · rw [declare_vars_size]
      exact (Nat.sub_lt_iff_lt_add' hle).mp (List.getElem?_eq_some_iff.mp hget).1
    · rw [declare_allData, Graph.allData_eq_nil hle]
  · exact Option.some.inj ((hparam hx).2.symm.trans (hparam hy).2)

/-- One variable is copied to a type parameter, if there is one of the name. -/
theorem fillTypeParam_one (m : Machine) (d : DataId) (param : String) (v : VarId) (n : NodeId) :
    fillTypeParam d param [v] n m = .ok () { m with
      graph := (m.store.typeParam? d param).elim m.graph (m.graph.pasteVariable · v n) } := by
  unfold fillTypeParam
  rw [bind_eq_of_ok (get_ok.mpr ⟨rfl, rfl⟩)]
  cases m.store.typeParam? d param <;> rfl

/-- New variables are copied to without a trace elsewhere. -/
theorem fillTypeParam_enlarges (h₀ : m₀.graph.Built) (h : m₀.Enlarges m)
    (hn : n < m.graph.nodes.size) (d : DataId) (param : String)
    (hp : ∀ p, m.store.typeParam? d param = some p →
      m₀.graph.vars.size ≤ p ∧ p < m.graph.vars.size) (items : List VarId) :
    ∃ g, fillTypeParam d param items n m = .ok () { m with graph := g } ∧
      m₀.Enlarges { m with graph := g } ∧ m.graph.Grows g := by
  unfold fillTypeParam
  rw [bind_eq_of_ok (get_ok.mpr ⟨rfl, rfl⟩)]
  cases hparam : m.store.typeParam? d param with
  | none => exact ⟨m.graph, rfl, h, .refl _⟩
  | some p =>
    obtain ⟨hnew, hlt⟩ := hp p hparam
    obtain ⟨g, hrun, hg⟩ := forM_graph (m := m) (l := items) (x := fun item => paste p item n)
      (I := fun g => g.Built ∧ m₀.graph.Widens g ∧ m.graph.Grows g) ⟨h.built, h.graph, .refl _⟩
      fun item _ g hg => by
        have hv := hlt.trans_le hg.2.2.vars_le
        have hk := hn.trans_le hg.2.2.nodes_le
        exact ⟨_, rfl, hg.1.pasteVariable hv hk item,
          hg.2.1.pasteVariable h₀.wellFormed hg.1 hnew hv hk item,
          hg.2.2.trans (.pasteVariable ..)⟩
    exact ⟨g, hrun, h.onGraph hg.1 hg.2.1, hg.2.2⟩

/-- A new variable with what a type stands for. -/
structure Makes (m₀ m' : Machine) (v : VarId) : Prop where
  enlarges : m₀.Enlarges m'
  new : m₀.graph.vars.size ≤ v
  lt : v < m'.graph.vars.size

theorem Makes.addBinding (h : Makes m₀ m v) (h₀ : m₀.graph.Built) (hn : n < m.graph.nodes.size)
    (d : DataId) (sources : List BindingId) :
    Makes m₀ { m with graph := (m.graph.addBinding v d sources n).2 } v where
  enlarges := h.enlarges.onGraph (h.enlarges.built.binding d sources h.lt hn)
    (h.enlarges.graph.addBinding h₀.wellFormed h.enlarges.built.wellFormed h.new d sources n)
  new := h.new
  lt := h.lt.trans_le (Graph.Grows.addBinding m.graph v d sources n).vars_le

theorem Makes.pasteVariable (h : Makes m₀ m v) (h₀ : m₀.graph.Built) (hn : n < m.graph.nodes.size)
    (w : VarId) : Makes m₀ { m with graph := m.graph.pasteVariable v w n } v where
  enlarges := h.enlarges.onGraph (h.enlarges.built.pasteVariable h.lt hn w)
    (h.enlarges.graph.pasteVariable h₀.wellFormed h.enlarges.built h.new h.lt hn w)
  new := h.new
  lt := h.lt.trans_le (Graph.Grows.pasteVariable m.graph v w n).vars_le

theorem Makes.later (h : Makes m₀ m v) (hle : m.Enlarges m') : Makes m₀ m' v :=
  ⟨h.enlarges.trans hle, h.new, h.lt.trans_le hle.graph.vars_le⟩

section

variable {receiver : Option DataId} {subst : Subst} {u : Unit} {sources : List TypeSource}

theorem Makes.pasteSources (h : Makes m₀ m v) (h₀ : m₀.graph.Built) (hn : n < m₀.graph.nodes.size)
    (hrun : sources.forM (pasteSource v n) m = .ok u m') : Makes m₀ m' v := by
  induction sources generalizing m with
  | nil =>
    cases hrun
    exact h
  | cons source sources ih =>
    obtain ⟨_, m₁, hfirst, hrest⟩ := bind_ok.mp hrun
    refine ih ?_ hrest
    have hn := hn.trans_le h.enlarges.graph.nodes_le
    cases source with
    | binding b =>
      cases hfirst
      exact h.addBinding h₀ hn _ [b]
    | param w =>
      cases hfirst
      exact h.pasteVariable h₀ hn w

mutual

/-- Making what a type stands for enlarges the machine. -/
theorem instantiate_makes (t : TypeExpr) : ∀ {m v m'}, m.graph.Built → n < m.graph.nodes.size →
    instantiate n subst receiver t m = .ok v m' → Makes m m' v := by
  intro m v m' h₀ hn hrun
  unfold instantiate at hrun
  obtain ⟨w, m₁, hnew, hrun⟩ := bind_ok.mp hrun
  have h₁ : Makes m m₁ w := by
    cases hnew
    refine ⟨(Machine.Enlarges.refl h₀).onGraph (h₀.var _) ((Graph.Widens.refl _).newVariable _),
      le_rfl, ?_⟩
    simp
  have hn₁ {k : Machine} (hk : m.Enlarges k) : n < k.graph.nodes.size :=
    hn.trans_le hk.graph.nodes_le
  have hroot {k : Machine} (hk : m.Enlarges k) : 0 < k.graph.nodes.size :=
    Nat.zero_lt_of_lt (hn₁ hk)
  cases t with
  | any =>
    obtain ⟨_, m₂, hbind, hrun⟩ := bind_ok.mp hrun
    cases hbind
    cases hrun
    exact h₁.addBinding h₀ (hn₁ h₁.enlarges) _ _
  | name name =>
    dsimp only at hrun
    split at hrun
    · obtain ⟨d, m₂, hliteral, hrun⟩ := bind_ok.mp hrun
      obtain ⟨_, m₃, hbind, hrun⟩ := bind_ok.mp hrun
      cases hbind
      cases hrun
      have hle := Enlarging.bind (Enlarging.constant (fun _ h => by cases h) []) (fun _ => .pure _)
        m₁ d m₂ h₁.enlarges.built (hroot h₁.enlarges) hliteral
      exact (h₁.later hle).addBinding h₀ (hn₁ (h₁.later hle).enlarges) _ _
    · obtain ⟨d, m₂, hobject, hrun⟩ := bind_ok.mp hrun
      obtain ⟨_, m₃, hbind, hrun⟩ := bind_ok.mp hrun
      cases hbind
      cases hrun
      have hle := Enlarging.plainObject name m₁ d m₂ h₁.enlarges.built (hroot h₁.enlarges) hobject
      exact (h₁.later hle).addBinding h₀ (hn₁ (h₁.later hle).enlarges) _ _
  | generic name params =>
    dsimp only at hrun
    obtain ⟨cls, m₂, hclass, hrun⟩ := bind_ok.mp hrun
    obtain ⟨d, m₃, hobject, hrun⟩ := bind_ok.mp hrun
    obtain ⟨_, _, hget, hrun⟩ := bind_ok.mp hrun
    cases hget
    obtain ⟨_, m₄, hparams, hrun⟩ := bind_ok.mp hrun
    obtain ⟨_, m₅, hbind, hrun⟩ := bind_ok.mp hrun
    cases hbind
    cases hrun
    have h₂ := h₁.later (Enlarging.libraryClass name m₁ cls m₂ h₁.enlarges.built
      (hroot h₁.enlarges) hclass)
    obtain ⟨_, _, o, hobject', hnew, -⟩ := newObject_ok m₂ cls none
    obtain ⟨rfl, rfl⟩ := EStateM.Result.ok.inj (hobject.symm.trans hobject')
    have h₃ := h₂.later (Enlarging.newObject cls none m₂ d m₃ h₂.enlarges.built
      (hroot h₂.enlarges) hobject)
    obtain ⟨hle, hvars⟩ := instantiateParams_enlarges h₀ hn _ params h₃.enlarges hnew.object
      (fun name p hp => by
        obtain ⟨hle, hlt, -⟩ := hnew.params name p hp
        exact ⟨h₂.enlarges.graph.vars_le.trans hle, hlt⟩) hparams
    have h₄ : Makes m m₄ v := ⟨hle, h₃.new, h₃.lt.trans_le hvars⟩
    exact h₄.addBinding h₀ (hn₁ h₄.enlarges) _ _
  | var name =>
    dsimp only at hrun
    cases hs : subst[name]? with
    | some sources =>
      rw [hs] at hrun
      obtain ⟨_, m₂, hpaste, hrun⟩ := bind_ok.mp hrun
      cases hrun
      exact h₁.pasteSources h₀ hn hpaste
    | none =>
      rw [hs] at hrun
      cases receiver with
      | none =>
        cases hrun
        exact h₁
      | some r =>
        obtain ⟨_, _, hget, hrun⟩ := bind_ok.mp hrun
        cases hget
        cases hp : m₁.store.typeParam? r name with
        | none =>
          rw [hp] at hrun
          cases hrun
          exact h₁
        | some p =>
          rw [hp] at hrun
          obtain ⟨_, m₂, hpaste, hrun⟩ := bind_ok.mp hrun
          cases hpaste
          cases hrun
          exact h₁.pasteVariable h₀ (hn₁ h₁.enlarges) p
  | union options =>
    dsimp only at hrun
    obtain ⟨_, m₂, hoptions, hrun⟩ := bind_ok.mp hrun
    cases hrun
    exact instantiateOptions_makes h₀ hn options h₁ hoptions
termination_by sizeOf t

/-- Filling the type parameters of a new object enlarges the machine. -/
theorem instantiateParams_enlarges {m₀ : Machine} (h₀ : m₀.graph.Built)
    (hn : n < m₀.graph.nodes.size) (template : List String) (params : List TypeExpr) :
    ∀ {m d o u m'}, m₀.Enlarges m → m.store.get d = .object o →
      (∀ (name : String) (p : VarId), o.typeParams[name]? = some p →
        m₀.graph.vars.size ≤ p ∧ p < m.graph.vars.size) →
      instantiateParams n subst receiver d template params m = .ok u m' →
      m₀.Enlarges m' ∧ m.graph.vars.size ≤ m'.graph.vars.size := by
  intro m d o u m' h ho hp hrun
  cases template with
  | nil =>
    unfold instantiateParams at hrun
    cases hrun
    exact ⟨h, le_rfl⟩
  | cons name template =>
    cases params with
    | nil =>
      unfold instantiateParams at hrun
      cases hrun
      exact ⟨h, le_rfl⟩
    | cons t params =>
      unfold instantiateParams at hrun
      obtain ⟨w, m₁, hfirst, hrun⟩ := bind_ok.mp hrun
      obtain ⟨_, m₂, hfill, hrest⟩ := bind_ok.mp hrun
      have hle := (instantiate_makes t h.built (hn.trans_le h.graph.nodes_le) hfirst).enlarges
      have h₁ := h.trans hle
      have hp₁ (x : String) (p : VarId) (hx : o.typeParams[x]? = some p) :
          m₀.graph.vars.size ≤ p ∧ p < m₁.graph.vars.size :=
        (hp x p hx).imp_right (·.trans_le hle.graph.vars_le)
      have ho₁ := hle.objects d o ho
      obtain ⟨g, hfill', hg, hgrows⟩ := fillTypeParam_enlarges h₀ h₁
        (hn.trans_le h₁.graph.nodes_le) d name (fun p hx =>
          hp₁ name p (Store.typeParam?_of_get ho₁ name ▸ hx)) [w]
      obtain ⟨-, rfl⟩ := EStateM.Result.ok.inj (hfill.symm.trans hfill')
      obtain ⟨hle', hvars⟩ := instantiateParams_enlarges h₀ hn template params hg ho₁
        (fun x p hx => (hp₁ x p hx).imp_right (·.trans_le hgrows.vars_le)) hrest
      exact ⟨hle', (hle.graph.vars_le.trans hgrows.vars_le).trans hvars⟩
termination_by sizeOf params

theorem instantiateOptions_makes {m₀ : Machine} (h₀ : m₀.graph.Built) (hn : n < m₀.graph.nodes.size)
    (options : List TypeExpr) : ∀ {m v u m'}, Makes m₀ m v →
      instantiateOptions n subst receiver v options m = .ok u m' → Makes m₀ m' v := by
  intro m v u m' h hrun
  cases options with
  | nil =>
    unfold instantiateOptions at hrun
    cases hrun
    exact h
  | cons t options =>
    unfold instantiateOptions at hrun
    obtain ⟨part, m₁, hfirst, hrun⟩ := bind_ok.mp hrun
    obtain ⟨_, m₂, hpaste, hrest⟩ := bind_ok.mp hrun
    cases hpaste
    have h₁ := h.later (instantiate_makes t h.enlarges.built
      (hn.trans_le h.enlarges.graph.nodes_le) hfirst).enlarges
    exact instantiateOptions_makes h₀ hn options
      (h₁.pasteVariable h₀ (hn.trans_le h₁.enlarges.graph.nodes_le) part) hrest
termination_by sizeOf options

end

end

end Analysis

end ValueTrace
