import ValueTrace.Proofs.Graph.Drawing
import ValueTrace.Proofs.Machine.Enlarging
import ValueTrace.Proofs.References.Soundness

/-!
# Runs that do not see what has been bound elsewhere

Some variables have been bound at one node, and later something is read at another one. The run that
reads is blind to these bindings if it does the same on a machine where they are taken back. So is
whatever binds new variables only, by what is clear of them, and asks for nothing but what is clear.
-/

namespace ValueTrace

/-- The value without its members. -/
def Value.bare : Value → Value
  | .object o => .object { o with members := ∅ }
  | .ofClass c => .ofClass { c with members := ∅ }
  | .function f => .function { f with members := ∅ }
  | .module m _ => .module m ∅
  | .unknown _ => .unknown ∅
  | v => v

def Value.member? (x : Value) (name : String) : Option VarId := x.members?.bind (·[name]?)

def Store.member? (s : Store) (d : DataId) (name : String) : Option VarId :=
  (s.get d).member? name

/-- A machine on which something is read at a node, and the variables that have been bound at another
node before. -/
structure Vantage where
  machine : Machine
  stored : NodeId
  node : NodeId
  slots : Set VarId

namespace Vantage

variable {V : Vantage}

def New (V : Vantage) (v : VarId) : Prop := V.machine.graph.vars.size ≤ v

/-- A binding that was there does not rest on the variables between the nodes. -/
def Clear (V : Vantage) (b : BindingId) : Prop :=
  V.machine.graph.bindings.size ≤ b ∨
    ¬ V.machine.graph.RestsOn (V.machine.graph.Between V.stored V.node) V.slots b

def ClearOf (V : Vantage) (v : VarId) : Prop := ∀ b ∈ V.machine.graph.allBindings v, V.Clear b

/-- The variables were there, and no condition between the nodes rests on them. -/
structure Valid (V : Vantage) : Prop where
  sound : V.machine.Sound
  lt : V.node < V.machine.graph.nodes.size
  old : ∀ v ∈ V.slots, v < V.machine.graph.vars.size
  spared : V.machine.graph.Spared V.stored V.node V.slots ∅

/-- What a read may have done. It has bound new variables by what is clear. Values have got members
in new variables, and what has been made has its type parameters there and is no text. -/
structure Reads (V : Vantage) (m : Machine) : Prop where
  graph : V.machine.graph.Draws m.graph
    {c | ¬ V.machine.graph.RestsOn (V.machine.graph.Between V.stored V.node) V.slots c}
  size_le : V.machine.store.values.size ≤ m.store.values.size
  bare : ∀ d, V.machine.store.Has d → (m.store.get d).bare = (V.machine.store.get d).bare
  member : ∀ d name v, V.machine.store.member? d name = some v → m.store.member? d name = some v
  slot : ∀ d name v, m.store.member? d name = some v →
    V.machine.store.member? d name = some v ∨ V.New v
  param : ∀ d name p, m.store.typeParam? d name = some p →
    V.machine.store.typeParam? d name = some p ∨ V.New p
  text : ∀ d t, m.store.text? d = some t → V.machine.store.text? d = some t

/-- A machine that a read has come to, and beside it the one where the bindings have been taken
back. -/
structure Beside (V : Vantage) (m m₀ : Machine) : Prop where
  reads : V.Reads m
  rest : m₀ = { m with graph := m₀.graph }
  graph : m.graph.SameBut m₀.graph V.stored V.slots

end Vantage

variable {V : Vantage} {m m₀ m' : Machine} {d e cls : DataId} {v w p : VarId} {b : BindingId}
  {n : NodeId} {name t : String} {x : Value} {sources bs : List BindingId} {s s' : Store}

namespace Value

theorem bare_addMember : (x.addMember name v).bare = x.bare := by cases x <;> rfl

theorem constant?_bare : x.bare.constant? = x.constant? := by
  cases x with
  | object o => obtain ⟨_, _, _, _ | _ | _ | _⟩ := o <;> rfl
  | _ => rfl

theorem member?_addMember (h : (x.addMember name v).member? t = some w) :
    x.member? t = some w ∨ w = v := by
  cases x with
  | native | method | unsolvable | special => cases h
  | _ =>
    simp only [member?, addMember, members?, Option.bind_some, Std.TreeMap.getElem?_insert] at h ⊢
    split_ifs at h
    · exact .inr (Option.some.inj h).symm
    · exact .inl h

theorem member?_addMember_of_ne (h : t ≠ name) : (x.addMember name v).member? t = x.member? t := by
  cases x <;> simp [member?, addMember, members?, Std.TreeMap.getElem?_insert, h.symm]

end Value

theorem Value.eq_object_of_bare {o : Object} (h : x.bare = (Value.object o).bare) : ∃ o',
    x = .object o' ∧ o'.cls = o.cls := by
  cases x <;> simp [bare] at h
  exact ⟨_, rfl, h.1⟩

theorem Value.eq_class_of_bare {c : ClassValue} (h : x.bare = (Value.ofClass c).bare) : ∃ c',
    x = .ofClass c' ∧ c'.mro = c.mro := by
  cases x <;> simp [bare] at h
  exact ⟨_, rfl, h.2.2.1⟩

namespace Store

theorem member?_of_object {o : Object} (h : s.get d = .object o) (name : String) :
    s.member? d name = o.members[name]? := by
  unfold member?
  rw [h]
  rfl

theorem member?_of_class {c : ClassValue} (h : s.get d = .ofClass c) (name : String) :
    s.member? d name = c.members[name]? := by
  unfold member?
  rw [h]
  rfl

theorem get_eq_of_not_has (h : ¬ s.Has d) : s.get d = .unsolvable := by
  by_contra hne
  exact h (has_of_get hne)

theorem text?_of_bare (h : (s'.get d).bare = (s.get d).bare) : s'.text? d = s.text? d := by
  unfold text?
  rw [← Value.constant?_bare, h, Value.constant?_bare]

end Store

namespace Vantage

theorem New.clearOf (h : V.New v) : V.ClearOf v := fun b hb => by
  rw [Graph.allBindings_eq_nil h] at hb
  cases hb

namespace Reads

theorem refl (V : Vantage) : V.Reads V.machine where
  graph := .refl _ _
  size_le := le_rfl
  bare _ _ := rfl
  member _ _ _ h := h
  slot _ _ _ := .inl
  param _ _ _ := .inl
  text _ _ h := h

theorem clear_of_listed (h : V.Reads m) (hv : V.ClearOf v) (hb : b ∈ m.graph.allBindings v) :
    V.Clear b := by
  rcases Nat.lt_or_ge v V.machine.graph.vars.size with hold | hnew
  · exact hv b (h.graph.listed v hold ▸ hb)
  · exact .inl (h.graph.newer v hnew b hb)

theorem new_newVariable (h : V.Reads m) (name : String) : V.New (m.graph.newVariable name).1 :=
  h.graph.vars_le

/-- What is clear is spared on the way. -/
theorem spared (h : V.Reads m) (hV : V.Valid) {asked : Set VarId} (ha : ∀ v ∈ asked, V.ClearOf v) :
    m.graph.Spared V.stored V.node V.slots asked :=
  h.graph.spared hV.old hV.spared fun v hv _ hb => h.clear_of_listed (ha v hv) hb

theorem class_of_class (h : V.Reads m) {c : ClassValue} (hc : V.machine.store.class? d = some c) :
    ∃ c', m.store.class? d = some c' ∧ c'.mro = c.mro := by
  have hget := Store.get_of_class? hc
  have hbare := h.bare d (Store.has_of_get (by simp [hget]))
  rw [hget] at hbare
  obtain ⟨c', hc', hmro⟩ := Value.eq_class_of_bare hbare
  exact ⟨c', by rw [Store.class?, hc']; rfl, hmro⟩

theorem class_of_member (h : V.Reads m) {c : ClassValue} (hc : m.store.class? d = some c)
    (hv : V.machine.store.member? d name = some v) : ∃ c₀, V.machine.store.class? d = some c₀ := by
  have hhas : V.machine.store.Has d := by
    refine Store.has_of_get fun hget => ?_
    unfold Store.member? at hv
    rw [hget] at hv
    cases hv
  have hbare := h.bare d hhas
  rw [Store.get_of_class? hc] at hbare
  obtain ⟨c₀, hc₀, -⟩ := Value.eq_class_of_bare hbare.symm
  exact ⟨c₀, by rw [Store.class?, hc₀]; rfl⟩

theorem object_of_object (h : V.Reads m) {o : Object} (ho : V.machine.store.get d = .object o) :
    ∃ o', m.store.get d = .object o' ∧ o'.cls = o.cls := by
  have hbare := h.bare d (Store.has_of_get (by simp [ho]))
  rw [ho] at hbare
  exact Value.eq_object_of_bare hbare

theorem not_has_fresh (h : V.Reads m) (x : Value) : ¬ V.machine.store.Has (m.store.add x).1 :=
  Nat.not_lt.mpr h.size_le

theorem withGraph (h : V.Reads m) {g : Graph} (hg : V.machine.graph.Draws g
    {c | ¬ V.machine.graph.RestsOn (V.machine.graph.Between V.stored V.node) V.slots c}) :
    V.Reads { m with graph := g } := { h with graph := hg }

/-- A new value has its members and type parameters in new variables, and it is no text. -/
theorem add (h : V.Reads m) (hmember : ∀ name v, x.member? name = some v → V.New v)
    (hparam : ∀ o, x = .object o → ∀ (name : String) (p : VarId), o.typeParams[name]? = some p →
      V.New p) (htext : x.constant?.bind (·.str?) = none) :
    V.Reads { m with store := (m.store.add x).2 } := by
  have hget (d : DataId) : (m.store.add x).2.get d = if d = (m.store.add x).1 then x
    else m.store.get d := Store.get_add
  have hold {d : DataId} (hd : m.store.get d ≠ .unsolvable) :
      (m.store.add x).2.get d = m.store.get d := by
    rw [hget, if_neg]
    rintro rfl
    exact hd Store.fresh_add
  have hmember?_of (d : DataId) (name : String) (v : VarId)
      (hv : m.store.member? d name = some v) : (m.store.add x).2.member? d name = some v := by
    unfold Store.member? at hv ⊢
    rwa [hold fun hd => by rw [hd] at hv; cases hv]
  refine ⟨h.graph, h.size_le.trans (by simp [Store.add]), fun d hd => ?_,
    fun d name v hv => hmember?_of d name v (h.member d name v hv), fun d name v hv => ?_,
    fun d name p hp => ?_, fun d t ht => ?_⟩
  · rw [← h.bare d hd]
    refine congrArg Value.bare ((hget d).trans (if_neg ?_))
    rintro rfl
    exact h.not_has_fresh x hd
  · unfold Store.member? at hv
    dsimp only at hv
    rw [hget] at hv
    split_ifs at hv
    · exact .inr (hmember name v hv)
    · exact h.slot d name v hv
  · unfold Store.typeParam? Store.object? at hp
    dsimp only at hp
    rw [hget] at hp
    split_ifs at hp
    · obtain ⟨o, ho, hp⟩ := Option.bind_eq_some_iff.mp hp
      cases x <;> cases ho
      exact .inr (hparam _ rfl name p hp)
    · exact h.param d name p hp
  · unfold Store.text? at ht
    dsimp only at ht
    rw [hget] at ht
    split_ifs at ht
    · rw [htext] at ht
      cases ht
    · exact h.text d t ht

/-- A value may get a member that it does not have in a new variable. -/
theorem addMember (h : V.Reads m) (hd : V.machine.store.member? d name = none) (hv : V.New v) :
    V.Reads { m with store := m.store.modify d (·.addMember name v) } := by
  have hget (e : DataId) : (m.store.modify d (·.addMember name v)).get e =
      if e = d then (m.store.get e).addMember name v else m.store.get e :=
    Store.get_modify rfl
  have hbare (e : DataId) : ((m.store.modify d (·.addMember name v)).get e).bare =
      (m.store.get e).bare := by
    rw [hget]
    split_ifs
    · exact Value.bare_addMember
    · rfl
  refine ⟨h.graph, ?_, fun e he => (hbare e).trans (h.bare e he), fun e t w hw => ?_,
    fun e t w hw => ?_, fun e t p hp => h.param e t p ?_, fun e t ht => h.text e t ?_⟩
  · refine h.size_le.trans ?_
    cases d <;> simp [Store.modify]
  · have hold := h.member e t w hw
    unfold Store.member? at hold ⊢
    dsimp only
    rw [hget]
    split_ifs with he
    · rw [Value.member?_addMember_of_ne, hold]
      rintro rfl
      rw [he, hd] at hw
      cases hw
    · exact hold
  · unfold Store.member? at hw
    dsimp only at hw
    rw [hget] at hw
    split_ifs at hw
    · rcases Value.member?_addMember hw with hw | rfl
      · exact h.slot e t w hw
      · exact .inr hv
    · exact h.slot e t w hw
  · rw [← hp]
    unfold Store.typeParam? Store.object?
    dsimp only
    rw [hget]
    split_ifs
    · cases m.store.get e <;> rfl
    · rfl
  · rw [← ht]
    exact (Store.text?_of_bare (hbare e)).symm

/-- A class that has been made since may be completed. -/
theorem completeClass (h : V.Reads m) (hd : ¬ V.machine.store.Has d) (bases : List VarId)
    (mro : List DataId) : V.Reads { m with store := m.store.modify d fun
      | .ofClass c => .ofClass { c with bases, mro }
      | v => v } := by
  have hget (e : DataId) (he : e ≠ d) : (m.store.modify d fun
      | .ofClass c => .ofClass { c with bases, mro }
      | v => v).get e = m.store.get e := by
    rw [Store.get_modify rfl, if_neg he]
  have hself (e : DataId) : (m.store.modify d fun
      | .ofClass c => .ofClass { c with bases, mro }
      | v => v).member? e = m.store.member? e ∧ ((m.store.modify d fun
      | .ofClass c => .ofClass { c with bases, mro }
      | v => v).get e).object? = (m.store.get e).object? := by
    unfold Store.member?
    rw [Store.get_modify rfl]
    split_ifs
    · cases m.store.get e <;> exact ⟨rfl, rfl⟩
    · exact ⟨rfl, rfl⟩
  have hconstant (x : Value) : x.constant? = x.object?.bind fun o => (Value.object o).constant? := by
    cases x <;> rfl
  refine ⟨h.graph, ?_, fun e he => ?_, fun e t w hw => ?_, fun e t w hw => h.slot e t w ?_,
    fun e t p hp => h.param e t p ?_, fun e t ht => h.text e t ?_⟩
  · refine h.size_le.trans ?_
    cases d <;> simp [Store.modify]
  · rw [← h.bare e he]
    refine congrArg Value.bare (hget e ?_)
    rintro rfl
    exact hd he
  · exact (congrFun (hself e).1 t).trans (h.member e t w hw)
  · exact (congrFun (hself e).1 t).symm.trans hw
  · rw [← hp]
    unfold Store.typeParam? Store.object?
    rw [(hself e).2]
  · rw [← ht]
    unfold Store.text?
    rw [hconstant, hconstant, (hself e).2]

end Reads

namespace Beside

theorem store (h : V.Beside m m₀) : m₀.store = m.store := by rw [h.rest]

theorem log (h : V.Beside m m₀) : m₀.log = m.log := by rw [h.rest]

/-- A step that does nothing to the graphs and the same to the rest. -/
theorem modify (h : V.Beside m m₀) {f : Machine → Machine} (hr : V.Reads (f m))
    (hg : ∀ m, (f m).graph = m.graph)
    (hf : ∀ m g, f { m with graph := g } = { f m with graph := g }) : V.Beside (f m) (f m₀) where
  reads := hr
  rest := by rw [hg, h.rest, hf]
  graph := by
    rw [hg, hg]
    exact h.graph

theorem visible (h : V.Beside m m₀) (hV : V.Valid) (hv : V.ClearOf v) :
    m₀.graph.visible v V.node = m.graph.visible v V.node :=
  (h.reads.spared hV (forall_eq.mpr hv)).visible_eq h.graph rfl

theorem visibleData (h : V.Beside m m₀) (hV : V.Valid) (hv : V.ClearOf v) :
    m₀.graph.visibleData v V.node = m.graph.visibleData v V.node :=
  (h.reads.spared hV (forall_eq.mpr hv)).visibleData_eq h.graph rfl

end Beside

/-- What is clear stays so when the run goes on from a machine that a read has come to. -/
theorem Clear.later (hm : V.Reads m) (hV : V.Valid) (hb : V.Clear b) :
    ({ V with machine := m } : Vantage).Clear b := by
  refine .inr fun hrests => ?_
  obtain ⟨hlt, hrests⟩ := hm.graph.restsOn hV.old hrests
  exact hb.elim (Nat.not_le.mpr hlt) fun hclear => hclear hrests

theorem ClearOf.later (hm : V.Reads m) (hV : V.Valid) (hv : V.ClearOf v) :
    ({ V with machine := m } : Vantage).ClearOf v := fun _ hb =>
  (hm.clear_of_listed hv hb).later hm hV

theorem Valid.later (hV : V.Valid) (hm : V.Reads m) (hsound : m.Sound) :
    ({ V with machine := m } : Vantage).Valid where
  sound := hsound
  lt := hV.lt.trans_le hm.graph.nodes_le
  old v hv := (hV.old v hv).trans_le hm.graph.vars_le
  spared := hm.spared hV nofun

end Vantage

namespace Analysis

variable {α β σ : Type} {x : Analysis α} {f : α → Analysis β} {Q : α → Prop} {R : β → Prop}

/-- Two runs end alike, and what is known of the answer holds. -/
def EndAlike (V : Vantage) (Q : α → Prop) :
    EStateM.Result Failure Machine α → EStateM.Result Failure Machine α → Prop
  | .ok a m, .ok a₀ m₀ => a₀ = a ∧ V.Beside m m₀ ∧ Q a
  | .error e m, .error e₀ m₀ => e₀ = e ∧ V.Beside m m₀
  | _, _ => False

/-- What can be seen of the end of a step: the path with the data that are on top of its stack, or the
failure, with what has been reported and all values. -/
def seen : EStateM.Result Failure Machine Path →
    Except Failure (Path × Option (List DataId)) × FindingLog × Store
  | .ok q m => (.ok (q, q.stack.head?.map (m.graph.visibleData · q.node)), m.log, m.store)
  | .error e m => (.error e, m.log, m.store)

/-- The run does the same whether or not the bindings have been taken back. -/
structure Blind (V : Vantage) (x : Analysis α) (Q : α → Prop) : Prop where
  alike : ∀ {m m₀ : Machine}, V.Beside m m₀ → EndAlike V Q (x m) (x m₀)

/-- Runs that end alike go on alike if the rest is blind. -/
theorem EndAlike.bind (hx : EndAlike V Q (x m) (x m₀)) (hf : ∀ a, Q a → Blind V (f a) R) :
    EndAlike V R ((x >>= f) m) ((x >>= f) m₀) := by
  change EndAlike V R (EStateM.bind x f m) (EStateM.bind x f m₀)
  unfold EStateM.bind
  revert hx
  unfold EndAlike
  cases x m <;> cases x m₀
  · rintro ⟨rfl, hbeside, ha⟩
    exact (hf _ ha).alike hbeside
  · exact False.elim
  · exact False.elim
  · exact id

namespace Blind

/-- What a blind run does is to read. -/
theorem reads {a : α} (hx : Blind V x Q) (hrun : x V.machine = .ok a m') : V.Reads m' := by
  have hends := hx.alike ⟨.refl V, rfl, .refl _ _ _⟩
  rw [hrun] at hends
  exact hends.2.1.reads

theorem weaken {Q' : α → Prop} (hx : Blind V x Q) (hQ : ∀ a, Q a → Q' a) : Blind V x Q' := by
  refine ⟨fun {m m₀} h => ?_⟩
  have hends := hx.alike h
  revert hends
  unfold EndAlike
  cases x m <;> cases x m₀ <;> first | exact fun h => ⟨h.1, h.2.1, hQ _ h.2.2⟩ | exact id

theorem pure {a : α} (ha : Q a) : Blind V (pure a) Q := ⟨fun h => ⟨rfl, h, ha⟩⟩

theorem throw (failure : Failure) : Blind V (throw failure : Analysis α) Q :=
  ⟨fun h => ⟨rfl, h⟩⟩

theorem bind (hx : Blind V x Q) (hf : ∀ a, Q a → Blind V (f a) R) : Blind V (x >>= f) R :=
  ⟨fun h => (hx.alike h).bind hf⟩

/-- What does not depend on the bindings may be read from the machine. -/
theorem get {f : Machine → Analysis β} (hf : ∀ {m m₀}, V.Beside m m₀ → f m₀ = f m)
    (h : ∀ m, V.Reads m → Blind V (f m) R) : Blind V (MonadState.get >>= f) R := by
  refine ⟨fun {m m₀} hb => ?_⟩
  change EndAlike V R (f m m) (f m₀ m₀)
  rw [hf hb]
  exact (h m hb.reads).alike hb

/-- What does not depend on the graph may be read from the machine. -/
theorem getRest {f : Machine → Analysis β} (hf : ∀ m g, f { m with graph := g } = f m)
    (h : ∀ m, V.Reads m → Blind V (f m) R) : Blind V (MonadState.get >>= f) R :=
  get (fun hb => by rw [hb.rest, hf]) h

theorem mapM {f : σ → Analysis β} {l : List σ} (h : ∀ a ∈ l, Blind V (f a) R) :
    Blind V (l.mapM f) fun bs => ∀ b ∈ bs, R b := by
  induction l with
  | nil => exact pure nofun
  | cons a l ih =>
    obtain ⟨ha, hl⟩ := List.forall_mem_cons.mp h
    rw [List.mapM_cons]
    exact bind ha fun b hb => bind (ih hl) fun bs hbs => pure (List.forall_mem_cons.mpr ⟨hb, hbs⟩)

theorem mapM_eq {f : σ → Analysis β} {h : σ → β} {l : List σ}
    (hf : ∀ a ∈ l, Blind V (f a) fun b => b = h a) : Blind V (l.mapM f) fun bs => bs = l.map h := by
  induction l with
  | nil => exact pure rfl
  | cons a l ih =>
    obtain ⟨ha, hl⟩ := List.forall_mem_cons.mp hf
    rw [List.mapM_cons]
    exact bind ha fun b hb => bind (ih hl) fun bs hbs => pure (by rw [hb, hbs, List.map_cons])

theorem forM {f : σ → Analysis Unit} {l : List σ} (h : ∀ a ∈ l, Blind V (f a) fun _ => True) :
    Blind V (l.forM f) fun _ => True := by
  induction l with
  | nil => exact pure trivial
  | cons a l ih =>
    obtain ⟨ha, hl⟩ := List.forall_mem_cons.mp h
    exact bind ha fun _ _ => ih hl

theorem modify {h : Machine → Machine} (hr : ∀ m, V.Reads m → V.Reads (h m))
    (hg : ∀ m, (h m).graph = m.graph)
    (hh : ∀ m g, h { m with graph := g } = { h m with graph := g }) :
    Blind V (modify h) fun _ => True := ⟨fun hb => ⟨rfl, hb.modify (hr _ hb.reads) hg hh, trivial⟩⟩

theorem share (h : Shared → Shared) : Blind V (share h) fun _ => True :=
  modify (fun _ hm => ⟨hm.graph, hm.size_le, hm.bare, hm.member, hm.slot, hm.param, hm.text⟩)
    (fun _ => rfl) fun _ _ => rfl

theorem report (kind : FindingKind) (message : String) (details : Option String)
    (vars : List VarId) : Blind V (report kind message details vars) fun _ => True :=
  modify (fun _ hm => ⟨hm.graph, hm.size_le, hm.bare, hm.member, hm.slot, hm.param, hm.text⟩)
    (fun _ => rfl) fun _ _ => rfl

theorem addValue {y : Value} (hmember : ∀ name v, y.member? name = some v → V.New v)
    (hparam : ∀ o, y = .object o → ∀ (name : String) (p : VarId), o.typeParams[name]? = some p →
      V.New p) (htext : y.constant?.bind (·.str?) = none) :
    Blind V (addValue y) fun d => ¬ V.machine.store.Has d := by
  refine ⟨fun {m m₀} hb => ⟨?_, ?_, ?_⟩⟩
  · rw [hb.store]
  · exact hb.modify (f := fun m => { m with store := (m.store.add y).2 })
      (hb.reads.add hmember hparam htext) (fun _ => rfl) fun _ _ => rfl
  · exact hb.reads.not_has_fresh y

theorem newVariable (name : String) : Blind V (newVariable name) V.New := by
  refine ⟨fun {m m₀} hb => ?_⟩
  obtain ⟨hid, hsame⟩ := hb.graph.newVariable name
  refine ⟨hid.symm, ⟨hb.reads.withGraph (hb.reads.graph.newVariable name), ?_, hsame⟩,
    hb.reads.new_newVariable name⟩
  rw [hb.rest]

theorem bindVar (hv : V.New v) (d : DataId) (hs : ∀ c ∈ sources, V.Clear c) (n : NodeId) :
    Blind V (Analysis.bind v d sources n) fun _ => True := by
  refine ⟨fun {m m₀} hb => ⟨rfl, ⟨hb.reads.withGraph (hb.reads.graph.addBinding hv d hs n), ?_,
    (hb.graph.addBinding v d sources n).2⟩, trivial⟩⟩
  rw [hb.rest]

theorem paste (hv : V.New v) (hw : V.ClearOf w) (n : NodeId) :
    Blind V (paste v w n) fun _ => True := by
  refine ⟨fun {m m₀} hb => ⟨rfl, ⟨hb.reads.withGraph (hb.reads.graph.pasteVariable hv
    (fun c hc => hb.reads.clear_of_listed hw hc) n), ?_, hb.graph.pasteVariable v w n⟩, trivial⟩⟩
  rw [hb.rest]

theorem variableWith (name : String) (d : DataId) (hs : ∀ c ∈ sources, V.Clear c) (n : NodeId) :
    Blind V (variableWith name d sources n) V.New :=
  bind (newVariable name) fun _ hv => bind (bindVar hv d hs n) fun _ _ => pure hv

theorem newUnsolvable (n : NodeId) : Blind V (newUnsolvable n) V.New :=
  variableWith _ _ (by simp) n

theorem value (d : DataId) :
    Blind V (value d) fun x => ∃ m, V.Reads m ∧ x = m.store.get d :=
  getRest (fun _ _ => rfl) fun m hm => pure ⟨m, hm, rfl⟩

theorem dataOf (b : BindingId) : Blind V (dataOf b) fun _ => True :=
  get (fun hb => by rw [hb.graph.data]) fun _ _ => pure trivial

theorem allBindings (hv : V.ClearOf v) : Blind V (allBindings v) fun bs => ∀ b ∈ bs, V.Clear b :=
  get (fun hb => by rw [hb.graph.allBindings]) fun _ hm => pure fun _ => hm.clear_of_listed hv

theorem isBound (v : VarId) : Blind V (isBound v) fun _ => True :=
  bind (Q := fun _ => True) (get (fun hb => by rw [hb.graph.allBindings]) fun _ _ => pure trivial)
    fun _ _ => pure trivial

theorem visible (hV : V.Valid) (hv : V.ClearOf v) :
    Blind V (visible v V.node) fun bs => ∀ b ∈ bs, V.Clear b :=
  get (fun hb => by rw [hb.visible hV hv]) fun _ hm =>
    pure fun _ hb => hm.clear_of_listed hv (Graph.mem_of_mem_visible hb)

/-- A variable that was there shows what it showed. -/
theorem visible_old (hV : V.Valid) (hv : V.ClearOf v) (hold : v < V.machine.graph.vars.size) :
    Blind V (Analysis.visible v V.node) fun bs =>
      bs = V.machine.graph.visible v V.node ∧ ∀ b ∈ bs, V.Clear b :=
  get (fun hb => by rw [hb.visible hV hv]) fun _ hm =>
    pure ⟨hm.graph.toWidens.visible_eq hV.sound.built.wellFormed hV.sound.closed hold hV.lt,
      fun _ hb => hm.clear_of_listed hv (Graph.mem_of_mem_visible hb)⟩

theorem dataOf_old (hb : b < V.machine.graph.bindings.size) :
    Blind V (Analysis.dataOf b) fun d => d = V.machine.graph.dataOf b :=
  get (fun h => by rw [h.graph.data]) fun _ hm =>
    pure (congrArg Binding.data (hm.graph.kept b hb))

theorem dataAt (hV : V.Valid) (hv : V.ClearOf v) : Blind V (dataAt v V.node) fun _ => True :=
  get (fun hb => by rw [hb.visibleData hV hv]) fun _ _ => pure trivial

theorem copyVisible (hV : V.Valid) (hv : V.ClearOf v) : Blind V (copyVisible v V.node) V.New := by
  refine bind (visible hV hv) fun bs hbs => ⟨fun {m m₀} hb => ?_⟩
  obtain ⟨hid, hsame⟩ := hb.graph.newVariable (m.graph.var v).name
  unfold Analysis.onGraph
  refine ⟨hid.symm, ⟨hb.reads.withGraph ((hb.reads.graph.newVariable _).pasteBindings
    (hb.reads.new_newVariable (m.graph.var v).name) hbs V.node), ?_, ?_⟩,
    hb.reads.new_newVariable (m.graph.var v).name⟩
  · rw [hb.rest]
  · change ((m.graph.newVariable _).2.pasteBindings m.graph.vars.size bs V.node).SameBut
      ((m₀.graph.newVariable (m₀.graph.var v).name).2.pasteBindings m₀.graph.vars.size bs V.node) _ _
    rw [hb.graph.var_eq, hb.graph.vars]
    exact hsame.pasteBindings m.graph.vars.size bs V.node

end Blind

end Analysis

end ValueTrace
