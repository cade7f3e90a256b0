import ValueTrace.Proofs.Graph.OneNode
import ValueTrace.Proofs.Machine.Attributes
import ValueTrace.Proofs.Machine.Enlarging
import ValueTrace.Proofs.Machine.Frames
import ValueTrace.Proofs.References.Soundness

/-!
# Methods that have been looked up

A function that an object gets from its class becomes a method, with a variable of its own for the
object. What a lookup shows at a node has been bound there for two reasons, the binding of the
object and that of the function, so it shows the methods whose function can hold together with the
object.
-/

namespace ValueTrace

open Analysis

variable {m m' m₀ m₁ : Machine} {n : NodeId} {obj v w self bound attr func : VarId}
  {b : BindingId} {bs : List BindingId} {d r cls : DataId} {o : Object} {c : ClassValue}
  {name : String} {f : NativeValue} {found : Option VarId} {P : DataId → SourceSet → Prop}

/-- The lookup of an attribute on an object, which is all that the variable shows, goes to the
class of the object, and what it can find there together with the object is the library function. -/
structure Machine.Reaches (m : Machine) (n : NodeId) (obj : VarId) (name : String) (r : DataId)
    (f : NativeValue) : Prop where
  shown : m.graph.visibleData obj n = [r]
  found : ∃ o attr m₁, m.store.get r = .object o ∧ o.members[name]? = none ∧
    classMember o.cls name { m with graph := (m.graph.newVariable name).2 } = .ok (some attr) m₁ ∧
    (∃ a ∈ m₁.graph.allBindings attr, ∃ b ∈ m.graph.visible obj n, m₁.graph.CanHold n {a, b}) ∧
    ∀ a ∈ m₁.graph.allBindings attr, ∀ b ∈ m.graph.visible obj n, m₁.graph.CanHold n {a, b} →
      m₁.store.get (m₁.graph.dataOf a) = .native f

/-- The class has the library function under the name, and nothing else. -/
theorem Machine.Reaches.of_native {a : BindingId} (ho : m.store.get r = .object o)
    (hslot : o.members[name]? = none)
    (hmember : classMember o.cls name { m with graph := (m.graph.newVariable name).2 } =
      .ok (some attr) m₁)
    (hvalues : ∀ a ∈ m₁.graph.allBindings attr, m₁.store.get (m₁.graph.dataOf a) = .native f)
    (hgraph : m.graph.visibleData obj n = [r] ∧ b ∈ m.graph.visible obj n ∧
      a ∈ m₁.graph.allBindings attr ∧ m₁.graph.canCombine [a, b] n = true) :
    m.Reaches n obj name r f := by
  obtain ⟨hshown, hb, ha, hcombine⟩ := hgraph
  refine ⟨hshown, o, attr, m₁, ho, hslot, hmember, ⟨a, ha, b, hb, ?_⟩,
    fun a ha _ _ _ => hvalues a ha⟩
  exact ((Graph.canCombine_iff _ [a, b] n).mp hcombine).mono (by simp [Set.insert_subset_iff])

theorem Machine.Reaches.of_single {a : BindingId} (ho : m.store.get r = .object o)
    (hslot : o.members[name]? = none)
    (hmember : classMember o.cls name { m with graph := (m.graph.newVariable name).2 } =
      .ok (some attr) m₁)
    (hvalue : m₁.store.get (m₁.graph.dataOf a) = .native f)
    (hgraph : m.graph.visibleData obj n = [r] ∧ b ∈ m.graph.visible obj n ∧
      m₁.graph.allBindings attr = [a] ∧ m₁.graph.canCombine [a, b] n = true) :
    m.Reaches n obj name r f := by
  obtain ⟨hshown, hb, hattr, hcombine⟩ := hgraph
  refine of_native ho hslot hmember (a := a) (b := b) (fun a' ha => ?_) ⟨hshown, hb, ?_, hcombine⟩
  · rw [hattr] at ha
    obtain rfl := List.mem_singleton.mp ha
    exact hvalue
  · rw [hattr]
    exact List.mem_singleton_self a

/-- The variable shows something, and all that it shows are methods that call the library function
for the object. -/
structure Machine.ShowsMethods (m : Machine) (n : NodeId) (func : VarId) (r : DataId)
    (f : NativeValue) : Prop where
  shown : m.graph.visible func n ≠ []
  methods : ∀ d ∈ m.graph.visibleData func n, ∃ self fd, m.store.get d = .method self fd ∧
    m.store.get fd = .native f ∧ m.graph.visibleData self n = [r]

theorem Machine.Enlarges.addMember (hb : m.graph.Built) (hc : m.store.class? cls = some c)
    (name : String) (v : VarId) :
    m.Enlarges { m with store := m.store.modify cls (·.addMember name v) } := by
  have hcls := Store.get_of_class? hc
  refine ⟨hb, .refl _, fun d o ho => ?_, fun d k hk => ?_⟩
  · dsimp only
    rw [Store.get_modify_addMember, if_neg, ho]
    rintro rfl
    cases hcls.symm.trans ho
  · dsimp only
    rw [Store.get_modify_addMember]
    split_ifs with hd
    · subst hd
      rw [hk]
      exact ⟨_, rfl, rfl⟩
    · exact ⟨k, hk, rfl⟩

namespace Analysis

theorem Enlarging.libraryFunction (f : LibraryFunction) : Enlarging (libraryFunction f) := by
  unfold Analysis.libraryFunction
  refine bind get fun m => ?_
  split
  · exact pure _
  · exact bind (addValue _) fun d => bind (share _) fun _ => pure d

/-- The member of a library class is new, and only the class has got it. -/
theorem libraryMember_enlarges (hb : m.graph.Built) (h0 : 0 < m.graph.nodes.size)
    (hc : m.store.class? cls = some c) (h : libraryMember cls name m = .ok found m') :
    m.Enlarges m' := by
  have hmade {v : VarId} {m₁ : Machine} (hle : m.Enlarges m₁)
      (h : (do addMember cls name v; return some v) m₁ = .ok found m') : m.Enlarges m' := by
    obtain ⟨_, m₂, hadd, hpure⟩ := bind_ok.mp h
    obtain ⟨-, rfl⟩ := pure_ok.mp hpure
    obtain ⟨c', hc', -⟩ := hle.classes cls c (Store.get_of_class? hc)
    cases hadd
    exact hle.trans (.addMember hle.built (by rw [Store.class?, hc']; rfl) name v)
  unfold libraryMember at h
  rw [bind_eq_of_ok (get_ok.mpr ⟨rfl, rfl⟩)] at h
  cases hdecl : m.library.class? (m.store.className cls) with
  | none =>
    simp only [hdecl] at h
    obtain ⟨-, rfl⟩ := pure_ok.mp h
    exact .refl hb
  | some decl =>
    simp only [hdecl] at h
    cases hmethod : decl.methods[name]? with
    | some f =>
      simp only [hmethod] at h
      obtain ⟨d, m₁, hd, h⟩ := bind_ok.mp h
      obtain ⟨v, m₂, hv, h⟩ := bind_ok.mp h
      have hle := Enlarging.libraryFunction f m d m₁ hb h0 hd
      exact hmade (hle.trans (Enlarging.variableWith name d m₁ v m₂ hle.built
        (h0.trans_le hle.graph.nodes_le) hv)) h
    | none =>
      cases hattr : decl.attributes[name]? with
      | some t =>
        simp only [hmethod, hattr] at h
        obtain ⟨v, m₁, hv, h⟩ := bind_ok.mp h
        exact hmade (instantiate_makes _ hb h0 hv).enlarges h
      | none =>
        simp only [hmethod, hattr] at h
        obtain ⟨-, rfl⟩ := pure_ok.mp h
        exact .refl hb

theorem Enlarging.memberAlong (name : String) (ds : List DataId) :
    Enlarging (memberAlong name ds) := by
  induction ds with
  | nil => exact pure none
  | cons d ds ih =>
    intro m found m' hb h0 h
    rw [Analysis.memberAlong, bind_eq_of_ok (get_ok.mpr ⟨rfl, rfl⟩)] at h
    cases hc : m.store.class? d with
    | none =>
      simp only [hc] at h
      exact ih m found m' hb h0 h
    | some c =>
      simp only [hc] at h
      cases hslot : c.members[name]? with
      | some v =>
        simp only [hslot] at h
        obtain ⟨-, rfl⟩ := pure_ok.mp h
        exact .refl hb
      | none =>
        simp only [hslot] at h
        split at h
        · obtain ⟨v, m₁, hv, h⟩ := bind_ok.mp h
          have hle := libraryMember_enlarges hb h0 hc hv
          cases v with
          | none => exact hle.trans (ih m₁ found m' hle.built (h0.trans_le hle.graph.nodes_le) h)
          | some v =>
            obtain ⟨-, rfl⟩ := pure_ok.mp h
            exact hle
        · exact ih m found m' hb h0 h

theorem Enlarging.classMember (cls : DataId) (name : String) : Enlarging (classMember cls name) :=
  bind get fun _ => memberAlong name _

/-- What a value becomes for an object: a function becomes a new method, and all else stays what it
is. -/
structure Turns (m m' : Machine) (obj : VarId) (d e : DataId) : Prop where
  function : bindsReceiver (m.store.get d) = true →
    m'.store.get e = .method obj d ∧ ¬ m.store.Has e
  other : bindsReceiver (m.store.get d) = false → e = d

def KeepsValues (m m' : Machine) : Prop :=
  ∀ d, m.store.Has d → m'.store.Has d ∧ m'.store.get d = m.store.get d

theorem KeepsValues.get_eq (h : KeepsValues m m') {x : Value} (hd : m.store.get d = x)
    (hx : x ≠ .unsolvable) : m'.store.get d = x :=
  (h d (Store.has_of_get (hd.symm ▸ hx))).2.trans hd

/-- The value of a binding is turned into a method if it is a function, and bound. -/
theorem turnMethod_ok (self bound : VarId) (hm₀ : m₀.graph.Built) (h : m₀.Enlarges m)
    (hn : n < m.graph.nodes.size) (hnew : m₀.graph.vars.size ≤ bound)
    (hlt : bound < m.graph.vars.size) (a : BindingId) : ∃ e m', (do
        let f ← dataOf a
        let f ← if bindsReceiver (← value f) then addValue (.method self f) else Pure.pure f
        Analysis.bind bound f [a] n) m = .ok () m' ∧
      m₀.Enlarges m' ∧ m'.graph = (m.graph.addBinding bound e [a] n).2 ∧ KeepsValues m m' ∧
      Turns m m' self (m.graph.dataOf a) e := by
  -- Whether or not it is a function, the graph stays until the value is bound.
  obtain ⟨e, m₁, hturn, hgraph, hle, hkept, hturns⟩ : ∃ e m₁,
      (if bindsReceiver (m.store.get (m.graph.dataOf a)) then
        addValue (.method self (m.graph.dataOf a)) else Pure.pure (m.graph.dataOf a)) m =
        .ok e m₁ ∧ m₁.graph = m.graph ∧ m₀.Enlarges m₁ ∧ KeepsValues m m₁ ∧
      Turns m m₁ self (m.graph.dataOf a) e := by
    split_ifs with hbinds
    · refine ⟨_, _, rfl, rfl, h.trans (.add h.built _),
        fun d hd => ⟨Store.has_add hd _, Store.get_add_of_has hd _⟩, fun _ => ?_, fun hnot => ?_⟩
      · exact ⟨Store.get_add.trans (if_pos rfl), m.store.not_has_fresh (.method self (m.graph.dataOf a))⟩
      · rw [hbinds] at hnot
        cases hnot
    · exact ⟨_, _, rfl, rfl, h, fun d hd => ⟨hd, rfl⟩, fun hf => absurd hf hbinds, fun _ => rfl⟩
  refine ⟨e, { m₁ with graph := (m.graph.addBinding bound e [a] n).2 }, ?_,
    hle.onGraph (h.built.binding e [a] hlt hn)
      (h.graph.addBinding hm₀.wellFormed h.built.wellFormed hnew e [a] n), rfl, hkept,
    hturns.function, hturns.other⟩
  have hvalue : value (m.graph.dataOf a) m = .ok (m.store.get (m.graph.dataOf a)) m := rfl
  have hdataOf : dataOf a m = .ok (m.graph.dataOf a) m := rfl
  have hbind : Analysis.bind bound e [a] n m₁ =
      .ok () { m₁ with graph := (m.graph.addBinding bound e [a] n).2 } := by
    rw [← hgraph]
    rfl
  rw [bind_eq_of_ok hdataOf, bind_eq_of_ok hvalue]
  refine Eq.trans ?_ ((bind_eq_of_ok (f := fun e => Analysis.bind bound e [a] n) hturn).trans hbind)
  split_ifs <;> rfl

/-- Each binding of a member is turned into one of the variable for the methods. -/
theorem turnMethods_ok (self bound : VarId) (hm₀ : m₀.graph.Built) (h : m₀.Enlarges m)
    (hn : n < m.graph.nodes.size) (hnew : m₀.graph.vars.size ≤ bound) (hlt : bound < m.graph.vars.size)
    (hbound : m.graph.BoundTo bound n P) (l : List BindingId)
    (hl : ∀ a ∈ l, a < m.graph.bindings.size) :
    ∃ (m' : Machine) (entries : List (BindingId × DataId)), (l.forM fun b => do
        let f ← dataOf b
        let f ← if bindsReceiver (← value f) then addValue (.method self f) else Pure.pure f
        Analysis.bind bound f [b] n) m = .ok () m' ∧
      m₀.Enlarges m' ∧ entries.map Prod.fst = l ∧
      m'.graph.BoundTo bound n (fun e s => P e s ∨ ∃ a, (a, e) ∈ entries ∧ s = .ofList [a]) ∧
      KeepsValues m m' ∧
      ∀ a e, (a, e) ∈ entries → m.store.Has (m.graph.dataOf a) →
        Turns m m' self (m.graph.dataOf a) e := by
  induction l generalizing m P with
  | nil =>
    exact ⟨m, [], rfl, h, rfl, hbound.congr fun d s => by simp, fun d hd => ⟨hd, rfl⟩, nofun⟩
  | cons a l ih =>
    obtain ⟨-, hl⟩ := List.forall_mem_cons.mp hl
    obtain ⟨e, m₁, hstep, hle, hgraph, hkept, hturns⟩ :=
      turnMethod_ok self bound hm₀ h hn hnew hlt a
    have hgrows : m.graph.Grows m₁.graph := hgraph ▸ Graph.Grows.addBinding m.graph bound e [a] n
    obtain ⟨m', entries, hrun, hle', hentries, hbound', hkept', hmethods⟩ := ih hle
      (hn.trans_le hgrows.nodes_le) (hlt.trans_le hgrows.vars_le)
      (hgraph ▸ hbound.addBinding h.built.wellFormed hlt e [a])
      fun c hc => (hl c hc).trans_le hgrows.bindings_le
    refine ⟨m', (a, e) :: entries, (bind_eq_of_ok hstep).trans hrun, hle', by simp [hentries],
      hbound'.congr fun d s => ?_, fun d hd => ?_, fun c k hmem hhas => ?_⟩
    · simp only [List.mem_cons, Prod.mk.injEq, or_and_right, exists_or, or_assoc, and_assoc,
        exists_eq_left]
    · obtain ⟨hd₁, hget⟩ := hkept d hd
      exact (hkept' d hd₁).imp_right (·.trans hget)
    · rcases List.mem_cons.mp hmem with heq | hmem
      · cases heq
        refine ⟨fun hf => ?_, hturns.other⟩
        exact (hturns.function hf).imp_left fun hmethod => hkept'.get_eq hmethod nofun
      · have hc : c ∈ l := hentries ▸ List.mem_map_of_mem hmem
        obtain ⟨hhas₁, hget⟩ := hkept _ hhas
        have hlater := hmethods c k hmem (hgrows.data c (hl c hc) ▸ hhas₁)
        rw [hgrows.data c (hl c hc)] at hlater
        refine ⟨fun hf => ?_, fun hf => hlater.other (hget ▸ hf)⟩
        exact (hlater.function (hget ▸ hf)).imp_right fun hnew hk => hnew (hkept k hk).1

/-- On a later machine a variable has the methods of an object for what another one is bound to.
Each entry is a binding of that one with the value that the binding has been turned into. -/
structure BindsMethods (m m' : Machine) (n : NodeId) (r : DataId) (b : BindingId)
    (attr obj w : VarId) (l : List (BindingId × DataId)) : Prop where
  enlarges : m.Enlarges m'
  new : m.graph.vars.size ≤ w
  newReceiver : m.graph.vars.size ≤ obj
  receiver : ∃ k, m'.graph.BoundBy n obj r k (.ofList [b])
  entries : l.map Prod.fst = m.graph.allBindings attr
  bound : m'.graph.BoundTo w n fun e s => ∃ a, (a, e) ∈ l ∧ s = .ofList [a]
  kept : KeepsValues m m'
  methods : ∀ a e, (a, e) ∈ l → m.store.Has (m.graph.dataOf a) →
    Turns m m' obj (m.graph.dataOf a) e

/-- What an object gets from its class becomes methods of it. -/
theorem bindMethods_ok (hb : m.graph.Built) (hn : n < m.graph.nodes.size) (r : DataId)
    (b : BindingId)
    (hf : ∃ a ∈ m.graph.allBindings attr, bindsReceiver (m.store.get (m.graph.dataOf a)) = true) :
    ∃ m' self bound entries, bindMethods n r attr (some b) m = .ok bound m' ∧
      BindsMethods m m' n r b attr self bound entries := by
  obtain ⟨a, ha, hf⟩ := hf
  have hw := hb.wellFormed
  have hattr : attr < m.graph.vars.size := by
    by_contra hout
    rw [Graph.allBindings_eq_nil (Nat.le_of_not_lt hout)] at ha
    cases ha
  have hsome : ¬ ((m.graph.allData attr).all fun f => !bindsReceiver (m.store.get f)) = true := by
    intro hall
    have hnone := List.all_eq_true.mp hall _ (List.mem_map_of_mem ha)
    simp [hf] at hnone
  obtain ⟨self, m₁, hself, hle₁, k, hk⟩ := variableWith_enlarges hb hn "self" r [b]
  have hn₁ := hn.trans_le hle₁.graph.nodes_le
  have hstore : m₁.store = m.store := by
    cases hself
    rfl
  have hfresh : m.graph.vars.size ≤ self := by
    cases hself
    exact le_rfl
  let m₂ : Machine := { m₁ with graph := (m₁.graph.newVariable (m.graph.var attr).name).2 }
  have hnew : newVariable (m.graph.var attr).name m₁ = .ok m₁.graph.vars.size m₂ := rfl
  have hle₂ : m₁.Enlarges m₂ := Enlarging.newVariable _ m₁ _ m₂ hle₁.built
    ((Nat.zero_le n).trans_lt hn₁) hnew
  have hlisted : m₂.graph.allBindings attr = m.graph.allBindings attr :=
    (hle₁.trans hle₂).graph.listed attr hattr
  have hdata (c : BindingId) (hc : c ∈ m.graph.allBindings attr) :
      m₂.graph.dataOf c = m.graph.dataOf c :=
    congrArg Binding.data ((hle₁.trans hle₂).graph.kept c (hw.listed attr c hc).1)
  obtain ⟨m', entries, hrun, hle', hentries, hbound, hkept, hmethods⟩ := turnMethods_ok
    self m₁.graph.vars.size hle₁.built hle₂ (hn₁.trans_le hle₂.graph.nodes_le) le_rfl
    (by simp [m₂, Graph.newVariable]) (.of_unbound (Graph.newVariable_unbound _ _))
    (m.graph.allBindings attr)
    fun c hc => (hw.listed attr c hc).1.trans_le (hle₁.trans hle₂).graph.bindings_le
  refine ⟨m', self, m₁.graph.vars.size, entries, ?_, hle₁.trans hle', hle₁.graph.vars_le,
    hfresh, ⟨k, hk.widens hle₁.built.wellFormed hle'.graph⟩, hentries,
    hbound.congr fun e s => by simp, fun e he => ?_, fun c e hc hhas => ?_⟩
  · unfold bindMethods
    rw [bind_eq_of_ok (get_ok.mpr ⟨rfl, rfl⟩)]
    dsimp only
    rw [if_neg hsome]
    have hall : allBindings attr m₂ = .ok (m.graph.allBindings attr) m₂ := by
      rw [← hlisted]
      rfl
    refine (bind_eq_of_ok hself).trans ?_
    rw [bind_eq_of_ok hnew, bind_eq_of_ok hall]
    exact bind_eq_of_ok hrun
  · have hlater := hkept e (show m₂.store.Has e from hstore.symm ▸ he)
    rwa [show m₂.store = m.store from hstore] at hlater
  · have hmem : c ∈ m.graph.allBindings attr := hentries ▸ List.mem_map_of_mem hc
    have hlater := hmethods c e hc (show m₂.store.Has _ from hstore.symm ▸ hdata c hmem ▸ hhas)
    rw [hdata c hmem] at hlater
    obtain ⟨hfunction, hother⟩ := hlater
    rw [show m₂.store = m.store from hstore] at hfunction hother
    exact ⟨hfunction, hother⟩

namespace BindsMethods

variable {c : BindingId} {entries : List (BindingId × DataId)}

/-- A method is admitted together with what was there if its function is. -/
theorem admits_iff (h : BindsMethods m m' n r b attr self bound entries) (hm : m.Sound)
    (hm' : m'.graph.Built) (hn : n < m.graph.nodes.size) {goals : Set BindingId}
    (hgoals : ∀ c ∈ goals, c < m.graph.bindings.size) :
    m'.graph.Admits n bound d goals ↔
      ∃ a, (a, d) ∈ entries ∧ m.graph.CanHold n (insert a goals) := by
  have hset (a : BindingId) : goals ∪ {x | x ∈ SourceSet.ofList [a]} = insert a goals := by
    ext x
    simp [or_comm]
  have hw := hm.built.wellFormed
  rw [h.bound.admits_iff (h.enlarges.graph.toExtends.agreeOn hw hm.closed) hn ?_ ?_
    hm'.wellFormed hgoals]
  · constructor
    · rintro ⟨s, ⟨a, ha, rfl⟩, hhold⟩
      exact ⟨a, ha, hset a ▸ hhold⟩
    · rintro ⟨a, ha, hhold⟩
      exact ⟨_, ⟨a, ha, rfl⟩, (hset a).symm ▸ hhold⟩
  · rintro d s ⟨a, ha, rfl⟩ x hx
    obtain rfl : x = a := by simpa using hx
    exact (hw.listed attr x (h.entries ▸ List.mem_map_of_mem ha)).1
  · intro x hx
    rw [h.enlarges.graph.kept x hx]
    exact Nat.ne_of_lt ((hw.var x hx).trans_le h.new)

/-- If what can hold together with the object is a library function, then a method can hold together
with it, and each that can calls the function for the object. -/
theorem reaches (h : BindsMethods m m' n r b attr self bound entries) (hm : m.Sound)
    (hm' : m'.graph.Built) (hn : n < m.graph.nodes.size) (hb : b < m.graph.bindings.size)
    (hsome : ∃ a ∈ m.graph.allBindings attr, m.graph.CanHold n {a, b})
    (hall : ∀ a ∈ m.graph.allBindings attr, m.graph.CanHold n {a, b} →
      m.store.get (m.graph.dataOf a) = .native f) :
    (∃ c ∈ m'.graph.visible bound n, m'.graph.CanHold n {c, b}) ∧
      ∀ c ∈ m'.graph.visible bound n, m'.graph.CanHold n {c, b} →
        ∃ fd, m'.store.get (m'.graph.dataOf c) = .method self fd ∧ m'.store.get fd = .native f := by
  have hadmits (d : DataId) : m'.graph.Admits n bound d {b} ↔ _ :=
    h.admits_iff hm hm' hn (by simpa using hb)
  constructor
  · obtain ⟨a, ha, hhold⟩ := hsome
    obtain ⟨⟨a, e⟩, he, rfl⟩ := List.mem_map.mp (h.entries ▸ ha)
    obtain ⟨c, hc, -, hhold⟩ := (hadmits e).mpr ⟨a, he, hhold⟩
    exact ⟨c, Graph.mem_visible_iff.mpr
      ⟨hc, hhold.mono (Set.singleton_subset_iff.mpr (Set.mem_insert c _))⟩, hhold⟩
  · intro c hc hhold
    obtain ⟨a, ha, hhold⟩ := (hadmits _).mp ⟨c, Graph.mem_of_mem_visible hc, rfl, hhold⟩
    have hfun := hall a (h.entries ▸ List.mem_map_of_mem ha) hhold
    have hturns := h.methods a _ ha (Store.has_of_get (by simp [hfun]))
    exact ⟨_, (hturns.function (by rw [hfun]; rfl)).1, h.kept.get_eq hfun nofun⟩

end BindsMethods

/-- The attribute of an object that does not have it itself are the methods of its class. -/
theorem attributeOf_bindsMethods (ho : m.store.get r = .object o) (hslot : o.members[name]? = none)
    (hclass : classMember o.cls name m = .ok (some attr) m₁) (hb : m₁.graph.Built)
    (hn : n < m₁.graph.nodes.size)
    (hf : ∃ a ∈ m₁.graph.allBindings attr,
      bindsReceiver (m₁.store.get (m₁.graph.dataOf a)) = true) :
    ∃ m' self bound entries, attributeOf n r name (some b) m = .ok (some bound) m' ∧
      bindMethods n r attr (some b) m₁ = .ok bound m' ∧
      BindsMethods m₁ m' n r b attr self bound entries := by
  obtain ⟨m', self, bound, entries, hbind, hmethods⟩ := bindMethods_ok hb hn r b hf
  have hvalue : value r m = .ok (.object o) m := congrArg (EStateM.Result.ok · m) ho
  refine ⟨m', self, bound, entries, ?_, hbind, hmethods⟩
  unfold attributeOf
  rw [bind_eq_of_ok hvalue]
  simp only [hslot]
  rw [bind_eq_of_ok hclass]
  exact bind_eq_of_ok hbind

/-- A variable that was new some time ago has not been bound since. -/
theorem unbound_of_enlarges (name : String) (hb : m.graph.Built) (hle : Machine.Enlarges
    { m with graph := (m.graph.newVariable name).2 } m₁) :
    ∀ c < m₁.graph.bindings.size, (m₁.graph.binding c).var ≠ m.graph.vars.size := by
  intro c hc
  rcases Nat.lt_or_ge c m.graph.bindings.size with hold | hnew
  · rw [hle.graph.kept c hold]
    exact Nat.ne_of_lt (hb.wellFormed.var c hold)
  · have hfresh : m.graph.vars.size + 1 ≤ (m₁.graph.binding c).var := by
      simpa [Graph.newVariable] using hle.graph.fresh c hnew hc
    exact Nat.ne_of_gt hfresh

/-- A variable that was new admits, of what is copied to it, what can hold together with the value
through which it has been found. Nothing else changes. -/
theorem pasteAttribute_shows (attr : VarId) (hm₀ : m₀.graph.Built) (hle : m₀.Enlarges m)
    (hm : m.Sound) (hn : n < m.graph.nodes.size) (hnew : m₀.graph.vars.size ≤ w)
    (hw : w < m.graph.vars.size)
    (hunbound : ∀ c < m.graph.bindings.size, (m.graph.binding c).var ≠ w)
    (hb : b < m.graph.bindings.size) : ∃ m',
      pasteAttribute n w attr b m = .ok (!(m.graph.visible attr n).isEmpty) m' ∧
      m₀.Enlarges m' ∧ m'.store = m.store ∧ m.graph.GrowsAt m'.graph w ∧
      ∀ d goals, (∀ c ∈ goals, c < m.graph.bindings.size) → (m'.graph.Admits n w d goals ↔
        ∃ c ∈ m.graph.visible attr n, m.graph.dataOf c = d ∧
          m.graph.CanHold n (insert c (insert b goals))) := by
  have hwf := hm.built.wellFormed
  have hnil : m.graph.allBindings w = [] := List.eq_nil_iff_forall_not_mem.mpr fun c hc =>
    hunbound c (hwf.listed w c hc).1 (hwf.listed w c hc).2
  let g := m.graph.bindAll w n (found m.graph attr b n)
  obtain ⟨hbuilt, hwidens, hg, hto⟩ : g.Built ∧ m₀.graph.Widens g ∧ m.graph.GrowsAt g w ∧ _ :=
    Graph.bindAll_growsAt hm₀.wellFormed hle.graph hnew hm.built hw hn (.refl hunbound)
      (.of_unbound hnil) _
  refine ⟨{ m with graph := g }, ?_, hle.onGraph hbuilt hwidens, rfl, hg, fun d goals hgoals => ?_⟩
  · have hvisible : visible attr n m = .ok (m.graph.visible attr n) m := rfl
    unfold pasteAttribute
    rw [bind_eq_of_ok hvisible]
    exact bind_eq_of_ok
      (forM_bindAll w (fun a => [a, b]) n (Graph.hasBindings_visible hm.built attr n))
  · have hset (c : BindingId) :
        goals ∪ {x | x ∈ SourceSet.ofList [c, b]} = insert c (insert b goals) := by
      ext x
      simp only [Set.mem_union, Set.mem_ofPred_eq, SourceSet.mem_ofList, List.mem_pair,
        Set.mem_insert_iff]
      tauto
    rw [hto.admits_iff (hg.agreeOn hwf hm.closed) hn ?_ ?_ hbuilt.wellFormed hgoals]
    · constructor
      · rintro ⟨s, ⟨⟨⟩⟩ | ⟨e, he, rfl, rfl⟩, hhold⟩
        obtain ⟨c, hc, rfl⟩ := List.mem_map.mp he
        exact ⟨c, hc, rfl, hset c ▸ hhold⟩
      · rintro ⟨c, hc, rfl, hhold⟩
        exact ⟨_, .inr ⟨_, List.mem_map_of_mem hc, rfl, rfl⟩, (hset c).symm ▸ hhold⟩
    · rintro d s (⟨⟨⟩⟩ | ⟨e, he, rfl, rfl⟩) x hx
      obtain ⟨c, hc, rfl⟩ := List.mem_map.mp he
      rcases (by simpa using hx : x = c ∨ x = b) with rfl | rfl
      · exact Graph.hasBindings_visible hm.built attr n x hc
      · exact hb
    · intro x hx
      rw [hg.kept x hx]
      exact hunbound x hx

/-- A lookup has reached a library function in a member of the class of an object. What it shows are
methods that call the function, with a new variable that is bound to the object only. -/
structure MethodsLoaded (m m' : Machine) (n : NodeId) (obj : VarId) (name : String) (r : DataId)
    (f : NativeValue) (recv : VarId) : Prop where
  answers : loadAttribute? n obj name m = .ok (some m.graph.vars.size) m'
  enlarges : m.Enlarges m'
  options : m'.options = m.options
  shown : m'.graph.visible m.graph.vars.size n ≠ []
  methods : ∀ d ∈ m'.graph.visibleData m.graph.vars.size n, ∃ fd,
    m'.store.get d = .method recv fd ∧ m'.store.get fd = .native f
  new : m.graph.vars.size ≤ recv
  lt : recv < m'.graph.vars.size
  receiver : m'.graph.visibleData recv n = [r]

theorem MethodsLoaded.loads (h : MethodsLoaded m m' n obj name r f recv) :
    loadAttribute n obj name m = .ok m.graph.vars.size m' := loadAttribute_some h.answers

theorem loadAttribute_methodsLoaded (hm : m.Sound) (hn : n < m.graph.nodes.size)
    (h : m.Reaches n obj name r f) :
    ∃ m' self, MethodsLoaded m m' n obj name r f self := by
  obtain ⟨o, attr, m₁, ho, hslot, hclass, ⟨a₀, ha₀, b₀, hb₀, hhold₀⟩, hreach⟩ := h.found
  obtain ⟨b, hobj, hr⟩ : ∃ b, m.graph.visible obj n = [b] ∧ m.graph.dataOf b = r :=
    List.map_eq_singleton_iff.mp h.shown
  obtain rfl : b₀ = b := List.mem_singleton.mp (hobj ▸ hb₀)
  let m₀ : Machine := { m with graph := (m.graph.newVariable name).2 }
  have hwf := hm.built.wellFormed
  have hb : b₀ < m.graph.bindings.size := Graph.hasBindings_visible hm.built obj n b₀ hb₀
  have hnew : newVariable name m = .ok m.graph.vars.size m₀ := rfl
  have hle₀ : m.Enlarges m₀ :=
    Enlarging.newVariable name m _ m₀ hm.built ((Nat.zero_le n).trans_lt hn) hnew
  obtain ⟨hm₀, -, -⟩ := (Follows.newVariable name).left hm le_rfl hnew
  -- The member of the class.
  have hle₁ : m₀.Enlarges m₁ := Enlarging.classMember o.cls name m₀ _ m₁ hm₀.built
    ((Nat.zero_le n).trans_lt (hn.trans_le hle₀.graph.nodes_le)) hclass
  have hle₁' := hle₀.trans hle₁
  obtain ⟨hm₁, -, hattr⟩ := (Follows.classMember o.cls name).left hm₀ le_rfl hclass
  have hn₁ := hn.trans_le hle₁'.graph.nodes_le
  have hb₁ := hb.trans_le hle₁'.graph.bindings_le
  have hf₀ := hreach a₀ ha₀ b₀ hb₀ hhold₀
  -- Its methods.
  obtain ⟨m₂, self, bound, entries, hattrOf, hbind, hmethods⟩ :=
    attributeOf_bindsMethods (m := m₀) (b := b₀) ho hslot hclass hm₁.built hn₁
      ⟨a₀, ha₀, by rw [hf₀]; rfl⟩
  have hle₂ := hle₁'.trans hmethods.enlarges
  have hn₂ := hn.trans_le hle₂.graph.nodes_le
  have hreceiver : m₁.extent.HasBindings (some b₀).toList := Extent.HasBinding.single hb₁
  obtain ⟨hm₂, -, -⟩ :=
    (Follows.bindMethods (.inr hn₁) r (hattr attr rfl) hreceiver).left hm₁ le_rfl hbind
  obtain ⟨⟨c₀, hc₀, hhold₀⟩, hcalls⟩ := hmethods.reaches hm₁ hm₂.built hn₁ hb₁ ⟨a₀, ha₀, hhold₀⟩
    fun a ha => hreach a ha b₀ hb₀
  -- What can hold of them is copied.
  have hunbound := unbound_of_enlarges name hm.built (hle₁.trans hmethods.enlarges)
  have hlt : m.graph.vars.size < m₂.graph.vars.size := by
    refine Nat.lt_of_lt_of_le ?_ (hle₁.trans hmethods.enlarges).graph.vars_le
    simp [m₀, Graph.newVariable]
  obtain ⟨m', hpaste, hle', hstore, hg, hadmits⟩ := pasteAttribute_shows bound hm.built hle₂
    hm₂ hn₂ le_rfl hlt hunbound (hb.trans_le hle₂.graph.bindings_le)
  have hdata (d : DataId) : d ∈ m'.graph.visibleData m.graph.vars.size n ↔
      ∃ c ∈ m₂.graph.visible bound n, m₂.graph.dataOf c = d ∧ m₂.graph.CanHold n {c, b₀} := by
    rw [Graph.mem_visibleData_iff_admits, hadmits d ∅ fun c hc => absurd hc (Set.notMem_empty c)]
    simp only [insert_empty_eq]
  have hsome : (!(m₂.graph.visible bound n).isEmpty) = true := by
    rw [Bool.not_eq_true', List.isEmpty_eq_false_iff]
    exact List.ne_nil_of_mem hc₀
  have hload : loadAttribute? n obj name m = .ok (some m.graph.vars.size) m' :=
    loadAttribute?_of_single (o := some bound) hobj (hr.symm ▸ hattrOf) (hsome ▸ hpaste)
  obtain ⟨k, hself⟩ := hmethods.receiver
  -- The object has been visible all along.
  have hobject : m₂.graph.CanHold n {b₀} :=
    hhold₀.mono (Set.singleton_subset_iff.mpr (Set.mem_insert_of_mem c₀ rfl))
  have hreceived := hself.visibleData_growsAt hg hm₂.built.wellFormed hm₂.closed hn₂
    (by simpa using hobject)
  have hfresh := hle₁'.graph.vars_le.trans hmethods.newReceiver
  refine ⟨m', self, hload, hle', (Spares.loadAttribute? n obj name).of_ok hload, fun hnone => ?_,
    fun d hd => ?_, hfresh, hself.lt.trans_le hg.vars_le, hreceived⟩
  · have hmem := (hdata _).mpr ⟨c₀, hc₀, rfl, hhold₀⟩
    rw [show m'.graph.visibleData m.graph.vars.size n = [] from
      congrArg (List.map m'.graph.dataOf) hnone] at hmem
    cases hmem
  · obtain ⟨c, hc, rfl, hhold⟩ := (hdata d).mp hd
    obtain ⟨fd, hmethod, hfun⟩ := hcalls c hc hhold
    exact ⟨fd, hstore ▸ hmethod, hstore ▸ hfun⟩

/-- A lookup that reaches a library function shows methods that call it for the object, and changes
nothing else. -/
theorem loadAttribute_showsMethods (hm : m.Sound) (hn : n < m.graph.nodes.size)
    (h : m.Reaches n obj name r f) : ∃ func m', loadAttribute n obj name m = .ok func m' ∧
      m.Enlarges m' ∧ m'.options = m.options ∧ m'.ShowsMethods n func r f := by
  obtain ⟨m', self, hl⟩ := loadAttribute_methodsLoaded hm hn h
  refine ⟨m.graph.vars.size, m', hl.loads, hl.enlarges, hl.options, hl.shown, fun d hd => ?_⟩
  obtain ⟨fd, hmethod, hfun⟩ := hl.methods d hd
  exact ⟨self, fd, hmethod, hfun, hl.receiver⟩

end Analysis

end ValueTrace
