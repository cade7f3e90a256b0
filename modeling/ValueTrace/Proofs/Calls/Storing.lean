import ValueTrace.Proofs.Absorption.Operations
import ValueTrace.Proofs.Calls.Insertions
import ValueTrace.Proofs.Machine.BlindLookups

/-!
# What a store is confined to

An item that is put into a dictionary under a known text becomes a member of it, and the key and the
value are copied to its type parameters. An attribute becomes a member, too. All of them are bound at
the node of the store, and besides new variables nothing else is.
-/

namespace ValueTrace

open Analysis

/-- Since an earlier machine variables that were there have been bound at the node only, and only if
they are in `W`. Objects have kept all that they had, and they have got members in `T` only. -/
structure Machine.StoresIn (m w : Machine) (n : NodeId) (W : Set VarId)
    (T : Set (DataId × String)) : Prop where
  built : w.graph.Built
  alters : m.graph.Alters w.graph n W
  objects : ∀ d o, m.store.get d = .object o → ∃ members : Members,
    w.store.get d = .object { o with members } ∧
      (∀ (t : String) (v : VarId), o.members[t]? = some v → members[t]? = some v) ∧
      ∀ t : String, (d, t) ∉ T → members[t]? = o.members[t]?

/-- The texts of what a variable shows. -/
def Machine.texts (m : Machine) (n : NodeId) (v : VarId) : List String :=
  (m.graph.visibleData v n).filterMap m.store.text?

/-- What is bound when something is put into the dictionary under one of the texts. -/
def Store.itemSlots (s : Store) (r : DataId) (texts : List String) : List VarId :=
  texts.filterMap (s.member? r) ++ Container.dict.typeParams.filterMap (s.typeParam? r)

variable {m m' w w' : Machine} {n : NodeId} {W : Set VarId} {T : Set (DataId × String)}
  {r d : DataId} {o : Object} {t name : String} {v key self result obj func : VarId} {b : BindingId}

theorem Store.mem_itemSlots {s : Store} {texts : List String} : v ∈ s.itemSlots r texts ↔
    (∃ t ∈ texts, s.member? r t = some v) ∨
      ∃ V ∈ Container.dict.typeParams, s.typeParam? r V = some v := by
  simp only [itemSlots, List.mem_append, List.mem_filterMap]

theorem Machine.mem_texts : t ∈ m.texts n v ↔
    ∃ d ∈ m.graph.visibleData v n, m.store.text? d = some t := List.mem_filterMap

/-- A value with members in its class is an instance. -/
theorem Machine.Reaches.isInstance {f : NativeValue} (h : m.Reaches n obj name r f) :
    m.store.IsInstance r := by
  obtain ⟨o, attr, m₁, ho, -, hclass, -⟩ := h.found
  have hrun : memberAlong name (m.store.mro o.cls)
      { m with graph := (m.graph.newVariable name).2 } = .ok (some attr) m₁ := hclass
  cases hc : m.store.class? o.cls with
  | none =>
    have hmro : m.store.mro o.cls = [] := by simp [Store.mro, hc]
    rw [hmro] at hrun
    cases hrun
  | some c => exact ⟨o, c, ho, Store.get_of_class? hc⟩

namespace Machine.StoresIn

theorem of_enlarges (h : m.Enlarges w) (n : NodeId) (W : Set VarId) (T : Set (DataId × String)) :
    m.StoresIn w n W T :=
  ⟨h.built, .of_widens h.graph n W, fun d o ho => ⟨o.members, h.objects d o ho, fun _ _ => id,
    fun _ _ => rfl⟩⟩

theorem refl (h : m.graph.Built) : m.StoresIn m n W T := of_enlarges (.refl h) n W T

/-- On the way new variables may have been bound, too. -/
theorem trans (h : m.StoresIn m' n W T) (hm : m.graph.Built)
    (h' : m'.StoresIn w n (W ∪ {v | m.graph.vars.size ≤ v}) T) : m.StoresIn w n W T := by
  refine ⟨h'.built, h.alters.trans hm.wellFormed h'.alters, fun d o ho => ?_⟩
  obtain ⟨members, hget, hkept, hother⟩ := h.objects d o ho
  obtain ⟨members', hget', hkept', hother'⟩ := h'.objects d _ hget
  exact ⟨members', hget', fun t v hv => hkept' t v (hkept t v hv),
    fun t ht => (hother' t ht).trans (hother t ht)⟩

theorem mono {W' : Set VarId} (h : m.StoresIn w n W T) (hsub : W ⊆ W') : m.StoresIn w n W' T :=
  ⟨h.built, h.alters.mono hsub, h.objects⟩

theorem later (h : m.StoresIn m' n W T) (hm : m.graph.Built) (hle : m'.Enlarges w) :
    m.StoresIn w n W T := h.trans hm (of_enlarges hle n _ T)

/-- What is neither in the store nor in the graph may change. -/
theorem congr (h : m.StoresIn m' n W T) (hg : w.graph = m'.graph) (hs : w.store = m'.store) :
    m.StoresIn w n W T := ⟨hg ▸ h.built, hg ▸ h.alters, hs ▸ h.objects⟩

theorem withGraph (h : m.StoresIn w n W T) {g : Graph} (hb : g.Built)
    (hg : m.graph.Alters g n W) : m.StoresIn { w with graph := g } n W T := ⟨hb, hg, h.objects⟩

theorem member?_eq (h : m.StoresIn w n W T) (ho : m.store.get d = .object o) (ht : (d, t) ∉ T) :
    w.store.member? d t = m.store.member? d t := by
  obtain ⟨members, hget, -, hother⟩ := h.objects d o ho
  rw [Store.member?_of_object ho, Store.member?_of_object hget]
  exact hother t ht

theorem typeParam?_eq (h : m.StoresIn w n W T) (ho : m.store.get d = .object o) (V : String) :
    w.store.typeParam? d V = m.store.typeParam? d V := by
  obtain ⟨members, hget, -⟩ := h.objects d o ho
  rw [Store.typeParam?_of_get ho, Store.typeParam?_of_get hget]

/-- A member is bound at the node, or made. -/
theorem setMember (h : m.StoresIn w n W T) (hm : m.graph.Built) (hw : w.Sound)
    (hn : n < m.graph.nodes.size) (hT : (d, t) ∈ T)
    (hslot : ∀ s ∈ w.store.member? d t, m.graph.vars.size ≤ s ∨ s ∈ W)
    (hrun : Analysis.setMember n d t v w = .ok () w') : m.StoresIn w' n W T := by
  have hn' := hn.trans_le h.alters.nodes_le
  obtain ⟨_, hrun', -, hcases⟩ := setMember_ok w n d t v
  obtain ⟨-, rfl⟩ := EStateM.Result.ok.inj (hrun.symm.trans hrun')
  rcases hcases with ⟨-, rfl⟩ | ⟨members, slot, hmembers, ⟨hold, rfl⟩ | ⟨hnone, rfl, rfl⟩⟩
  · exact h
  · have hlt : slot < w.graph.vars.size := (hw.store.values d).members? hmembers t slot hold
    have hmember : w.store.member? d t = some slot := by
      unfold Store.member? Value.member?
      rw [hmembers]
      exact hold
    refine h.withGraph (hw.built.pasteVariable hlt hn' v) ?_
    exact h.alters.pasteVariable hm.wellFormed hw.built ((hslot slot hmember).imp_right (⟨·, rfl⟩))
      hlt hn' v
  · have hlt : w.graph.vars.size < (w.graph.newVariable t).2.vars.size := by
      simp [Graph.newVariable]
    refine ⟨(hw.built.var t).pasteVariable hlt hn' v, (h.alters.newVariable hm.wellFormed t).pasteVariable
      hm.wellFormed (hw.built.var t) (.inl h.alters.vars_le) hlt hn' v, fun e o ho => ?_⟩
    obtain ⟨ms, hget, hkept, hother⟩ := h.objects e o ho
    dsimp only
    rw [Store.get_modify_addMember, hget]
    split_ifs with he
    · subst he
      rw [hget] at hmembers ⊢
      obtain rfl := Option.some.inj hmembers
      have hinsert (t' : String) (ht' : t' ≠ t) :
          (ms.insert t w.graph.vars.size)[t']? = ms[t']? := by
        rw [Std.TreeMap.getElem?_insert, if_neg]
        exact fun hcmp => ht' (Std.LawfulEqCmp.compare_eq_iff_eq.mp hcmp).symm
      refine ⟨_, rfl, fun t' v hv => ?_, fun t' ht' => ?_⟩
      · rw [hinsert t', hkept t' v hv]
        rintro rfl
        cases hnone.symm.trans (hkept t' v hv)
      · rw [hinsert t', hother t' ht']
        rintro rfl
        exact ht' hT
    · exact ⟨ms, rfl, hkept, hother⟩

end Machine.StoresIn

namespace Analysis

/-- The run stores at the node only. -/
def Storing {α : Type} (m : Machine) (n : NodeId) (W : Set VarId) (T : Set (DataId × String))
    (x : Analysis α) : Prop :=
  ∀ (w : Machine) (a : α) (w' : Machine), m.StoresIn w n W T → x w = .ok a w' →
    m.StoresIn w' n W T

namespace Storing

section

variable {α β σ : Type} {x : Analysis α} {f : α → Analysis β}

theorem pure (a : α) : Storing m n W T (pure a) := fun w _ w' h hrun => by
  obtain ⟨-, rfl⟩ := pure_ok.mp hrun
  exact h

theorem bind (hx : Storing m n W T x) (hf : ∀ a, Storing m n W T (f a)) :
    Storing m n W T (x >>= f) := fun w b w' h hrun => by
  obtain ⟨a, w₁, hx', hrun⟩ := bind_ok.mp hrun
  exact hf a w₁ b w' (hx w a w₁ h hx') hrun

/-- What has been stored so far is known of the machine that is read. -/
theorem get {f : Machine → Analysis β} (hf : ∀ w, m.StoresIn w n W T → Storing m n W T (f w)) :
    Storing m n W T (MonadState.get >>= f) := fun w b w' h hrun => hf w h w b w' h hrun

theorem mapM {f : σ → Analysis β} {l : List σ} (h : ∀ a ∈ l, Storing m n W T (f a)) :
    Storing m n W T (l.mapM f) := by
  induction l with
  | nil => exact pure _
  | cons a l ih =>
    obtain ⟨ha, hl⟩ := List.forall_mem_cons.mp h
    rw [List.mapM_cons]
    exact bind ha fun _ => bind (ih hl) fun _ => pure _

theorem forM {f : σ → Analysis Unit} {l : List σ} (h : ∀ a ∈ l, Storing m n W T (f a)) :
    Storing m n W T (l.forM f) := by
  induction l with
  | nil => exact pure _
  | cons a l ih =>
    obtain ⟨ha, hl⟩ := List.forall_mem_cons.mp h
    exact bind ha fun _ => ih hl

theorem of_enlarging (hm : m.graph.Built) (hn : n < m.graph.nodes.size) (hx : Enlarging x) :
    Storing m n W T x := fun w a w' h hrun =>
  h.later hm (hx w a w' h.built ((Nat.zero_le n).trans_lt (hn.trans_le h.alters.nodes_le)) hrun)

end

section

variable (hm : m.graph.Built) (hn : n < m.graph.nodes.size) (hW : ∀ v ∈ W, v < m.graph.vars.size)
include hm hn

theorem dataOf (b : BindingId) : Storing m n W T (dataOf b) :=
  of_enlarging hm hn (.bind .get fun _ => .pure _)

theorem allBindings (v : VarId) : Storing m n W T (allBindings v) :=
  of_enlarging hm hn (.bind .get fun _ => .pure _)

theorem newUnsolvable : Storing m n W T (newUnsolvable n) := fun w v w' h hrun => by
  obtain ⟨_, _, hrun', hle, -⟩ := variableWith_enlarges h.built (hn.trans_le h.alters.nodes_le)
    "unsolvable" Machine.unsolvable []
  obtain ⟨-, rfl⟩ := EStateM.Result.ok.inj (hrun.symm.trans hrun')
  exact h.later hm hle

theorem describeArgs (sig : Option Signature) (args : CallArgs) :
    Storing m n W T (describeArgs n sig args) := by
  have hnames (v : VarId) : Enlarging (typeNames v n) :=
    .bind .get fun _ => .bind (.bind .get fun _ => .pure _) fun _ => .pure _
  refine of_enlarging hm hn ?_
  refine .bind (.mapM fun _ => .bind (hnames _) fun _ => .pure _) fun _ => ?_
  refine .bind (.mapM fun _ => .bind (hnames _) fun _ => .pure _) fun _ => ?_
  exact .pure _

include hW

theorem bindVariable (hv : v ∈ W) (d : DataId) (sources : List BindingId) :
    Storing m n W T (Analysis.bind v d sources n) := fun w _ w' h hrun => by
  have hlt := (hW v hv).trans_le h.alters.vars_le
  cases hrun
  exact h.withGraph (h.built.binding d sources hlt (hn.trans_le h.alters.nodes_le))
    (h.alters.addBinding hm.wellFormed h.built.wellFormed (.inr ⟨hv, rfl⟩) d sources)

theorem paste (hv : v ∈ W) (src : VarId) : Storing m n W T (Analysis.paste v src n) :=
  fun w _ w' h hrun => by
    have hlt := (hW v hv).trans_le h.alters.vars_le
    have hn' := hn.trans_le h.alters.nodes_le
    cases hrun
    exact h.withGraph (h.built.pasteVariable hlt hn' src)
      (h.alters.pasteVariable hm.wellFormed h.built (.inr ⟨hv, rfl⟩) hlt hn' src)

theorem pasteSource (hv : v ∈ W) (source : TypeSource) :
    Storing m n W T (pasteSource v n source) := by
  cases source with
  | binding b => exact bind (dataOf hm hn b) fun d => bindVariable hm hn hW hv d [b]
  | param p => exact paste hm hn hW hv p

/-- Only type parameters of the receiver are filled. -/
theorem mutate {f : NativeValue} (ho : m.store.get r = .object o)
    (hparams : ∀ V ∈ f.mutates, ∀ p ∈ m.store.typeParam? r V, p ∈ W) (s : Subst) :
    Storing m n W T (mutate n f r s) := by
  refine forM fun V hV => get fun w h => ?_
  split
  · next p _ hp =>
    rw [h.typeParam?_eq ho] at hp
    exact forM fun source _ => pasteSource hm hn hW (hparams V hV p hp) source
  · exact pure _

/-- A view binds the result, and type parameters of the receiver. -/
theorem callView {f : NativeValue} {args : CallArgs} {view : List BindingId}
    (ho : m.store.get r = .object o)
    (hparams : ∀ V ∈ f.mutates, ∀ p ∈ m.store.typeParam? r V, p ∈ W) (hresult : result ∈ W)
    (hself : ∀ b ∈ view.head?, b < m.graph.bindings.size ∧ m.graph.dataOf b = r) :
    Storing m n W T (callView n f args result view) := by
  intro w fits w' h hrun
  cases hfit : w.fitting? f args view with
  | none =>
    unfold Analysis.callView at hrun
    rw [bind_eq_of_ok (get_ok.mpr ⟨rfl, rfl⟩)] at hrun
    unfold Machine.fitting? at hfit
    dsimp only at hrun
    rw [hfit] at hrun
    obtain ⟨-, rfl⟩ := pure_ok.mp hrun
    exact h
  | some fit =>
    obtain ⟨sig, s⟩ := fit
    rw [callView_eq hfit] at hrun
    refine (?_ : Storing m n W T _) w fits w' h hrun
    refine bind (fun w₀ v w₁ h₀ hmade => ?_) fun ret => ?_
    · exact h₀.later hm
        (instantiate_makes sig.result h₀.built (hn.trans_le h₀.alters.nodes_le) hmade).enlarges
    refine bind (allBindings hm hn ret) fun rs => ?_
    refine bind (forM fun c _ => ?_) fun _ => ?_
    · exact bind (dataOf hm hn c) fun d => bindVariable hm hn hW hresult d _
    · cases hreceiver : w.receiver? sig view with
      | none => exact pure _
      | some r' =>
        obtain ⟨b, hb, rfl⟩ := Machine.head_of_receiver? hreceiver
        obtain ⟨hlt, hr⟩ := hself b hb
        rw [h.alters.data b hlt, hr]
        exact bind (mutate hm hn hW ho hparams s) fun _ => pure _

end

end Storing

end Analysis

/-- What can be bound when something is put into the object under the key was there and is in `W`, and
the members that can be made are in `T`. -/
structure Machine.Covers (m : Machine) (n : NodeId) (r : DataId) (key : VarId) (W : Set VarId)
    (T : Set (DataId × String)) : Prop where
  object : ∃ o, m.store.get r = .object o
  lt : ∀ v ∈ W, v < m.graph.vars.size
  slots : ∀ v ∈ m.store.itemSlots r (m.texts n key), v ∈ W
  items : ∀ t ∈ m.texts n key, (r, t) ∈ T

theorem Machine.Covers.later (h : m.Covers n r key W T) (hm : m.Sound) (hn : n < m.graph.nodes.size)
    (hkey : key < m.graph.vars.size) (hle : m.Enlarges m')
    (htext : ∀ d t, m'.store.text? d = some t → m.store.text? d = some t) :
    m'.Covers n r key W T := by
  obtain ⟨o, ho⟩ := h.object
  have ho' := hle.objects r o ho
  have htexts (t : String) (ht : t ∈ m'.texts n key) : t ∈ m.texts n key := by
    obtain ⟨d, hd, ht⟩ := mem_texts.mp ht
    rw [hle.graph.visibleData_eq hm.built.wellFormed hm.closed hkey hn] at hd
    exact mem_texts.mpr ⟨d, hd, htext d t ht⟩
  refine ⟨⟨o, ho'⟩, fun v hv => (h.lt v hv).trans_le hle.graph.vars_le, fun v hv => h.slots v ?_,
    fun t ht => h.items t (htexts t ht)⟩
  rw [Store.mem_itemSlots] at hv ⊢
  refine hv.imp (fun ⟨t, ht, hv⟩ => ⟨t, htexts t ht, ?_⟩) fun ⟨V, hV, hv⟩ => ⟨V, hV, ?_⟩
  · rw [Store.member?_of_object ho]
    exact (Store.member?_of_object ho' t).symm.trans hv
  · rw [Store.typeParam?_of_get ho]
    exact (Store.typeParam?_of_get ho' V).symm.trans hv

namespace Analysis

variable {step : Caller → Stepper} {fuel : Nat} {fd : DataId}
  {res : Except CallFailure (NodeId × VarId)} {item : Option VarId} {args : CallArgs}

end Analysis

variable {p q : Path} {i : Instruction} {call : Caller} {rest : List VarId} {fuel : Nat}

/-- A path that goes on to a new node binds nothing. -/
theorem Machine.StoresIn.forward (h : m.StoresIn m' n W T) (hm : m.graph.Built)
    (hw : w.graph.Built) (hrun : grow p.forward m' = .ok q w) : m.StoresIn w n W T := by
  obtain ⟨g, hforward, rfl⟩ := grow_ok.mp hrun
  unfold Path.forward at hforward
  obtain ⟨g₀, _, hget, hforward⟩ := bind_ok.mp hforward
  obtain ⟨rfl, rfl⟩ := get_ok.mp hget
  obtain ⟨x, g₁, hnew, hpure⟩ := bind_ok.mp hforward
  obtain ⟨-, rfl⟩ := pure_ok.mp hpure
  exact h.later hm ((Machine.Enlarges.refl h.built).onGraph hw
    (.connectNew h.built.wellFormed hnew))

namespace Analysis

end Analysis

end ValueTrace
