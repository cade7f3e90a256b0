import ValueTrace.Proofs.Visibility.Locality
import ValueTrace.Proofs.Visibility.Markers

/-! Graphs that are made by the operations on them. What such a graph refers to exists, so growth
that binds no old variable leaves everything alone that was asked of it before. -/
namespace ValueTrace.Graph

def Growth.after {α : Type} (x : Growth α) (g : Graph) : Graph :=
  match x g with
  | .ok _ g' => g'
  | .error _ g' => g'

/-- The graphs that the operations make out of an empty one. Sources and conditions may be named
before they are there. -/
inductive Built : Graph → Prop
  | empty (limit : Option Nat) : Built { limit }
  | node {g} (name : String) : Built g → Built ((newNode name).after g)
  | edge {g src dst} : Built g → src < g.nodes.size → dst < g.nodes.size →
      Built ((connect src dst).after g)
  | condition {g} (n : NodeId) (c : Option BindingId) : Built g → Built (g.setCondition n c)
  | var {g} (name : String) : Built g → Built (g.newVariable name).2
  | origin {g b n} (sources : List BindingId) : Built g → b < g.bindings.size →
      n < g.nodes.size → Built (g.addOrigin b n sources)
  | binding {g v n} (d : DataId) (sources : List BindingId) : Built g → v < g.vars.size →
      n < g.nodes.size → Built (g.addBinding v d sources n).2

/-- Edges, origins and variables belong to the graph, the index of a variable has the bindings that
are listed with it, and a node gives a variable a binding only where one of its bindings has an
origin. -/
structure WellFormed (g : Graph) : Prop where
  incoming : ∀ n, ∀ p ∈ (g.node n).incoming, p < g.nodes.size
  outgoing : ∀ n, ∀ k ∈ (g.node n).outgoing, k < g.nodes.size
  origin : ∀ b n, ((g.binding b).originAt? n).isSome → n < g.nodes.size
  var : ∀ b < g.bindings.size, (g.binding b).var < g.vars.size
  listed : ∀ v, ∀ b ∈ g.allBindings v, b < g.bindings.size ∧ (g.binding b).var = v
  found : ∀ v d b, g.bindingTo? v d = some b ↔ b ∈ g.allBindings v ∧ g.dataOf b = d
  assigned : ∀ n v, (g.node n).assigns v = true →
    ∃ b < g.bindings.size, (g.binding b).var = v ∧ ((g.binding b).originAt? n).isSome

/-- The conditions and sources of the graph are bindings of it. -/
structure Closed (g : Graph) : Prop where
  conditions : ∀ n < g.nodes.size, ∀ c ∈ (g.node n).condition.toList, c < g.bindings.size
  sources : ∀ b < g.bindings.size, ∀ o ∈ (g.binding b).origins, ∀ s ∈ o.sourceSets, ∀ c ∈ s,
    c < g.bindings.size

/-- A graph has grown, and what has been bound are new variables. -/
structure Extends (g g' : Graph) : Prop where
  nodes_le : g.nodes.size ≤ g'.nodes.size
  vars_le : g.vars.size ≤ g'.vars.size
  bindings_le : g.bindings.size ≤ g'.bindings.size
  incoming : ∀ n < g.nodes.size, (g'.node n).incoming = (g.node n).incoming
  condition : ∀ n < g.nodes.size, (g'.node n).condition = (g.node n).condition
  assigns : ∀ n < g.nodes.size, ∀ v < g.vars.size,
    (g'.node n).assigns v = (g.node n).assigns v
  kept : ∀ b < g.bindings.size, g'.binding b = g.binding b
  fresh : ∀ b, g.bindings.size ≤ b → b < g'.bindings.size → g.vars.size ≤ (g'.binding b).var

/-- Two graphs differ in nothing but what has been paid. -/
structure SameContent (g g' : Graph) : Prop where
  nodes : g'.nodes = g.nodes
  vars : g'.vars = g.vars
  bindings : g'.bindings = g.bindings

variable {g g' g'' : Graph} {n k src dst : NodeId} {v : VarId} {b c : BindingId} {name : String}

namespace Growth

variable {α β : Type} {x : Growth α} {f : α → Growth β} {a : α}

theorem after_ok (h : x g = .ok a g') : x.after g = g' := by
  unfold after
  rw [h]

theorem after_error {e : Overgrown} (h : x g = .error e g') : x.after g = g' := by
  unfold after
  rw [h]

theorem after_bind_ok (h : x g = .ok a g') : (x >>= f).after g = (f a).after g' := by
  unfold after
  rw [bind_eq_of_ok h]

theorem after_bind_error {e : Overgrown} (h : x g = .error e g') : (x >>= f).after g = g' := by
  change (match EStateM.bind x f g with | .ok _ g => g | .error _ g => g) = g'
  unfold EStateM.bind
  rw [h]

end Growth

/-- Payment changes nothing but the account. -/
theorem charge_after (amount : Nat) : g.SameContent ((charge amount).after g) := by
  unfold charge
  rw [Growth.after_bind_ok (get_ok.mpr ⟨rfl, rfl⟩)]
  cases hclosed : g.closed with
  | true => exact ⟨rfl, rfl, rfl⟩
  | false =>
    rw [if_neg Bool.false_ne_true, Growth.after_bind_ok (set_ok.mpr rfl)]
    split_ifs
    · exact ⟨rfl, rfl, rfl⟩
    · exact ⟨rfl, rfl, rfl⟩

theorem charge_bind_after {α : Type} (amount : Nat) (f : Unit → Growth α) :
    (∃ g₁, charge amount g = .ok () g₁ ∧ (charge amount >>= f).after g = (f ()).after g₁) ∨
      g.SameContent ((charge amount >>= f).after g) := by
  cases h : charge amount g with
  | ok _ g₁ => exact .inl ⟨g₁, rfl, Growth.after_bind_ok h⟩
  | error e g₁ =>
    have hc := charge_after (g := g) amount
    rw [Growth.after_bind_error h]
    unfold Growth.after at hc
    rw [h] at hc
    exact .inr hc

theorem newNode_after (g : Graph) (name : String) :
    (∃ n, newNode name g = .ok n ((newNode name).after g)) ∨
      g.SameContent ((newNode name).after g) := by
  unfold newNode
  refine (charge_bind_after (g := g) 1 _).imp_left ?_
  rintro ⟨g₁, hc, hf⟩
  rw [hf, bind_eq_of_ok hc]
  exact ⟨_, rfl⟩

theorem connect_after (g : Graph) (src dst : NodeId) :
    connect src dst g = .ok () ((connect src dst).after g) ∨
      g.SameContent ((connect src dst).after g) := by
  unfold connect
  rw [Growth.after_bind_ok (get_ok.mpr ⟨rfl, rfl⟩), bind_eq_of_ok (get_ok.mpr ⟨rfl, rfl⟩)]
  by_cases hout : (g.node src).outgoing.contains dst
  · rw [if_pos hout]
    exact .inl rfl
  · rw [if_neg hout]
    refine (charge_bind_after (g := g) _ _).imp_left ?_
    rintro ⟨g₁, hc, hf⟩
    rw [hf, bind_eq_of_ok hc]
    rfl

namespace WellFormed

theorem mem_of_bindingTo? (h : g.WellFormed) {d : DataId} (hb : g.bindingTo? v d = some b) :
    b ∈ g.allBindings v := ((h.found v d b).mp hb).1

/-- The index answers what a search in the list does. -/
theorem bindingTo?_eq_find? (h : g.WellFormed) (v : VarId) (d : DataId) :
    g.bindingTo? v d = (g.allBindings v).find? fun b => g.dataOf b == d := by
  cases hfind : (g.allBindings v).find? fun b => g.dataOf b == d with
  | some b =>
    exact (h.found v d b).mpr ⟨List.mem_of_find?_eq_some hfind, by simpa using List.find?_some hfind⟩
  | none =>
    refine Option.eq_none_iff_forall_ne_some.mpr fun b hb => ?_
    obtain ⟨hmem, hd⟩ := (h.found v d b).mp hb
    simpa [hd] using List.find?_eq_none.mp hfind b hmem

theorem lists (h : g.WellFormed) (v : VarId) : g.Lists v :=
  ⟨fun b hb => (h.listed v b hb).2, h.mem_of_bindingTo?⟩

theorem congr (h : g.WellFormed) (hs : g.SameContent g') : g'.WellFormed := by
  have hnode (n : NodeId) : g'.node n = g.node n := node_congr hs.nodes
  have hbinding (b : BindingId) : g'.binding b = g.binding b := binding_congr hs.bindings
  have hlist (v : VarId) : g'.allBindings v = g.allBindings v := by
    simp only [allBindings, Graph.var, hs.vars]
  have hindex (v : VarId) (d : DataId) : g'.bindingTo? v d = g.bindingTo? v d := by
    simp only [bindingTo?, Graph.var, hs.vars]
  constructor
  · simpa only [hnode, hs.nodes] using h.incoming
  · simpa only [hnode, hs.nodes] using h.outgoing
  · simpa only [hbinding, hs.nodes] using h.origin
  · simpa only [hbinding, hs.bindings, hs.vars] using h.var
  · simpa only [hbinding, hlist, hs.bindings] using h.listed
  · simpa only [dataOf, hbinding, hlist, hindex] using h.found
  · simpa only [hnode, hbinding, hs.bindings] using h.assigned

/-- New nodes and edges keep what is known of the bindings. -/
private theorem of_linked (h : g.WellFormed) (hl : g.Linked g')
    (hin : ∀ n, ∀ p ∈ (g'.node n).incoming, p < g'.nodes.size)
    (hout : ∀ n, ∀ k ∈ (g'.node n).outgoing, k < g'.nodes.size) : g'.WellFormed := by
  have hlist (v : VarId) : g'.allBindings v = g.allBindings v := by
    simp only [allBindings, Graph.var, hl.vars]
  have hindex (v : VarId) (d : DataId) : g'.bindingTo? v d = g.bindingTo? v d := by
    simp only [bindingTo?, Graph.var, hl.vars]
  refine ⟨hin, hout, ?_, ?_, ?_, ?_, ?_⟩
  · intro b n ho
    rw [hl.binding] at ho
    exact Nat.lt_of_lt_of_le (h.origin b n ho) hl.size_le
  · simpa only [hl.binding, hl.bindings, hl.vars] using h.var
  · simpa only [hl.binding, hlist, hl.bindings] using h.listed
  · simpa only [dataOf, hl.binding, hlist, hindex] using h.found
  · simpa only [hl.binding, hl.assigns, hl.bindings] using h.assigned

theorem newNode (h : g.WellFormed) (hn : Graph.newNode name g = .ok n g') : g'.WellFormed := by
  obtain ⟨-, hnodes, hl⟩ := newNode_ok hn
  have hsize : g'.nodes.size = g.nodes.size + 1 := by simp [hnodes]
  refine h.of_linked hl (fun k p hp => ?_) fun k p hp => ?_
  · rw [node_push hnodes] at hp
    split_ifs at hp
    · cases hp
    · exact hsize ▸ Nat.lt_succ_of_lt (h.incoming k p hp)
  · rw [node_push hnodes] at hp
    split_ifs at hp
    · cases hp
    · exact hsize ▸ Nat.lt_succ_of_lt (h.outgoing k p hp)

theorem connect (h : g.WellFormed) (hsrc : src < g.nodes.size) (hdst : dst < g.nodes.size)
    (hc : Graph.connect src dst g = .ok () g') : g'.WellFormed := by
  obtain ⟨hl, -⟩ := connect_ok hc
  obtain ⟨-, -, hsize, hnode⟩ := connect_nodes hc
  have hadd {l : List NodeId} {a : NodeId} (hl : ∀ k ∈ l, k < g.nodes.size)
      (ha : a < g.nodes.size) : ∀ k ∈ l ++ [a], k < g.nodes.size := by
    intro k hk
    rcases List.mem_append.mp hk with hk | hk
    · exact hl k hk
    · exact List.mem_singleton.mp hk ▸ ha
  refine h.of_linked hl (fun k => ?_) fun k => ?_
  · rw [hsize, hnode]
    split_ifs
    · exact h.incoming k
    all_goals first | exact h.incoming k | exact hadd (h.incoming k) hsrc
  · rw [hsize, hnode]
    split_ifs
    · exact h.outgoing k
    all_goals first | exact h.outgoing k | exact hadd (h.outgoing k) hdst

theorem setCondition (h : g.WellFormed) (n : NodeId) (condition : Option BindingId) :
    (g.setCondition n condition).WellFormed := by
  have hnodes : (g.setCondition n condition).nodes = g.nodes.modify n ({ · with condition }) := rfl
  have hsize : (g.setCondition n condition).nodes.size = g.nodes.size := by simp [hnodes]
  refine h.of_linked (setCondition_linked condition) (fun k => ?_) fun k => ?_
  · rw [hsize, node_modify hnodes]
    split_ifs <;> exact h.incoming k
  · rw [hsize, node_modify hnodes]
    split_ifs <;> exact h.outgoing k

theorem newVariable (h : g.WellFormed) (name : String) : (g.newVariable name).2.WellFormed where
  incoming := h.incoming
  outgoing := h.outgoing
  origin := h.origin
  var b hb := by
    have := h.var b hb
    simp only [Graph.newVariable, Array.size_push]
    exact Nat.lt_succ_of_lt this
  listed v b hb := h.listed v b (allBindings_newVariable g name v ▸ hb)
  found v d b := by
    rw [bindingTo?_newVariable, allBindings_newVariable]
    exact h.found v d b
  assigned := h.assigned

theorem addOrigin (h : g.WellFormed) (hb : b < g.bindings.size) (hn : n < g.nodes.size)
    (sources : List BindingId) : (g.addOrigin b n sources).WellFormed := by
  have hbound := addOrigin_bound (g := g) (b := b) (n := n) sources
  have hsize : (g.addOrigin b n sources).bindings.size = g.bindings.size := by
    simp [Graph.addOrigin]
  have hadded := addOrigin_addedAt (g := g) b n sources
  have hself : (((g.addOrigin b n sources).binding b).originAt? n).isSome := by
    rw [addOrigin_binding, if_pos ⟨rfl, hb⟩]
    exact originAt?_addSources_self
  have hkept (a k) (ho : ((g.binding a).originAt? k).isSome) :
      (((g.addOrigin b n sources).binding a).originAt? k).isSome := by
    rcases eq_or_ne k n with rfl | hk
    · rw [addOrigin_binding]
      split_ifs
      · exact originAt?_addSources_self
      · exact ho
    · rw [hadded.origin a k hk]
      exact ho
  have hdata (a : BindingId) : (g.addOrigin b n sources).dataOf a = g.dataOf a := by
    unfold dataOf
    rw [addOrigin_binding]
    split_ifs <;> rfl
  refine ⟨fun k => ?_, fun k => ?_, fun a k ho => ?_, fun a ha => ?_, fun v a ha => ?_,
    fun v d a => ?_, fun k v hv => ?_⟩
  · rw [hbound.incoming, hbound.size_eq]
    exact h.incoming k
  · rw [hbound.outgoing, hbound.size_eq]
    exact h.outgoing k
  · rw [hbound.size_eq]
    rcases eq_or_ne k n with rfl | hk
    · exact hn
    · rw [hadded.origin a k hk] at ho
      exact h.origin a k ho
  · rw [addOrigin_binding_var]
    exact h.var a (hsize ▸ ha)
  · rw [addOrigin_binding_var, hsize]
    exact h.listed v a ha
  · rw [hdata]
    exact h.found v d a
  · rw [addOrigin_assigns] at hv
    rw [hsize]
    rcases hv with hv | ⟨rfl, -, rfl⟩
    · obtain ⟨a, ha, hav, ho⟩ := h.assigned k v hv
      exact ⟨a, ha, (addOrigin_binding_var sources a).trans hav, hkept a k ho⟩
    · exact ⟨b, hb, addOrigin_binding_var sources b, hself⟩

theorem addBinding (h : g.WellFormed) (hv : v < g.vars.size) (hn : n < g.nodes.size) (d : DataId)
    (sources : List BindingId) : (g.addBinding v d sources n).2.WellFormed := by
  cases hb : g.bindingTo? v d with
  | some b =>
    rw [addBinding_old sources n hb]
    exact h.addOrigin (h.listed v b (h.mem_of_bindingTo? hb)).1 hn sources
  | none =>
    have hbound := addBinding_bound (g := g) v d sources n
    have hindex := addBinding_bindingTo? (g := g) v d sources n
    obtain ⟨g', he, hsize, hvars, hnew, hold, hlist, ha⟩ := addBinding_new d sources n hb
    rw [he] at hbound hindex ⊢
    change g'.WellFormed
    have hself : ((g'.binding g.bindings.size).originAt? n).isSome := by
      simp [hnew, Binding.originAt?]
    have hdata : g'.dataOf g.bindings.size = d := by simp [dataOf, hnew]
    have hdata' (w : VarId) (a : BindingId) (ha : a ∈ g.allBindings w) : g'.dataOf a = g.dataOf a :=
      congrArg Binding.data (hold a (Nat.ne_of_lt (h.listed w a ha).1))
    refine ⟨fun k => ?_, fun k => ?_, fun a k ho => ?_, fun a ha => ?_, fun w a ha => ?_,
      fun w e a => ?_, fun k w hw => ?_⟩
    · rw [hbound.incoming, hbound.size_eq]
      exact h.incoming k
    · rw [hbound.outgoing, hbound.size_eq]
      exact h.outgoing k
    · rw [hbound.size_eq]
      rcases eq_or_ne a g.bindings.size with rfl | hne
      · obtain rfl : n = k := by simpa [hnew, Binding.originAt?] using ho
        exact hn
      · rw [hold a hne] at ho
        exact h.origin a k ho
    · rw [hvars]
      rcases eq_or_ne a g.bindings.size with rfl | hne
      · rw [hnew]
        exact hv
      · rw [hold a hne]
        exact h.var a (by omega)
    · have hlisted : a ∈ g.allBindings w ∨ a = g.bindings.size ∧ w = v := by
        rw [hlist] at ha
        split_ifs at ha with hw
        · exact (List.mem_append.mp ha).imp_right fun ha => ⟨List.mem_singleton.mp ha, hw.1⟩
        · exact .inl ha
      rcases hlisted with ha | ⟨rfl, rfl⟩
      · obtain ⟨hlt, hav⟩ := h.listed w a ha
        rw [hsize, hold a (Nat.ne_of_lt hlt)]
        exact ⟨Nat.lt_succ_of_lt hlt, hav⟩
      · rw [hsize, hnew]
        exact ⟨Nat.lt_succ_self _, rfl⟩
    · have hold : (a ∈ g.allBindings w ∧ g'.dataOf a = e) ↔ g.bindingTo? w e = some a := by
        rw [h.found]
        exact and_congr_right fun ha => by rw [hdata' w a ha]
      rw [hindex]
      by_cases hw : w = v
      · have hlisted : g'.allBindings w = g.allBindings w ++ [g.bindings.size] :=
          (hlist w).trans (if_pos ⟨hw, hv⟩)
        rw [hlisted, List.mem_append, List.mem_singleton, or_and_right, hold]
        split_ifs with hfound
        · obtain ⟨-, -, rfl⟩ := hfound
          rw [hw, hb]
          constructor
          · intro hsome
            obtain rfl := Option.some.inj hsome
            exact .inr ⟨rfl, hdata⟩
          · rintro (hsome | ⟨rfl, -⟩)
            · cases hsome
            · rfl
        · refine ⟨.inl, fun hor => hor.resolve_right ?_⟩
          rintro ⟨rfl, hd⟩
          exact hfound ⟨hw, hv, hd.symm.trans hdata⟩
      · have hlisted : g'.allBindings w = g.allBindings w :=
          (hlist w).trans (if_neg fun h => hw h.1)
        rw [if_neg fun h => hw h.1, hlisted, hold]
    · rw [hsize]
      rcases (ha k w).mp hw with hw | ⟨rfl, -, rfl⟩
      · obtain ⟨a, hlt, hav, ho⟩ := h.assigned k w hw
        have hne : a ≠ g.bindings.size := Nat.ne_of_lt hlt
        rw [← hold a hne] at hav ho
        exact ⟨a, Nat.lt_succ_of_lt hlt, hav, ho⟩
      · exact ⟨g.bindings.size, Nat.lt_succ_self _, by rw [hnew], hself⟩

end WellFormed

namespace Built

theorem wellFormed (h : g.Built) : g.WellFormed := by
  induction h with
  | empty limit =>
    have hnode (n : NodeId) : ({ limit } : Graph).node n = default := node_eq_default n.zero_le
    have hbinding (b : BindingId) : ({ limit } : Graph).binding b = default := by
      simp [Graph.binding]
    have hlist (v : VarId) : ({ limit } : Graph).allBindings v = [] := by
      simp [allBindings, Graph.var, default, instInhabitedVariable.default]
    have hindex (v : VarId) (d : DataId) : ({ limit } : Graph).bindingTo? v d = none :=
      bindingTo?_eq_none v.zero_le d
    refine ⟨fun n p hp => ?_, fun n k hk => ?_, fun b n ho => ?_, fun b hb => ?_, fun v b hb => ?_,
      fun v d b => ?_, fun n v hv => ?_⟩
    · rw [hnode] at hp
      exact absurd hp List.not_mem_nil
    · rw [hnode] at hk
      exact absurd hk List.not_mem_nil
    · rw [hbinding] at ho
      exact absurd ho Bool.false_ne_true
    · exact absurd hb (Nat.not_lt_zero b)
    · rw [hlist] at hb
      exact absurd hb List.not_mem_nil
    · rw [hindex, hlist]
      simp
    · rw [hnode] at hv
      simp [Node.assigns, default, instInhabitedNode.default] at hv
  | node name _ ih =>
    rcases newNode_after _ name with ⟨n, hn⟩ | hs
    · exact ih.newNode hn
    · exact ih.congr hs
  | edge _ hsrc hdst ih =>
    rcases connect_after _ _ _ with hc | hs
    · exact ih.connect hsrc hdst hc
    · exact ih.congr hs
  | condition n c _ ih => exact ih.setCondition n c
  | var name _ ih => exact ih.newVariable name
  | origin sources _ hb hn ih => exact ih.addOrigin hb hn sources
  | binding d sources _ hv hn ih => exact ih.addBinding hv hn d sources

theorem connectNew (h : g.Built) (hsrc : src < g.nodes.size) (name : String)
    (condition : Option BindingId) : ((Graph.connectNew src name condition).after g).Built := by
  have hnode := h.node name
  unfold Graph.connectNew
  cases hn : newNode name g with
  | error e g₁ =>
    rw [Growth.after_error hn] at hnode
    rwa [Growth.after_bind_error hn]
  | ok n g₁ =>
    rw [Growth.after_ok hn] at hnode
    obtain ⟨rfl, hnodes, -⟩ := newNode_ok hn
    have hsize : (g₁.setCondition g.nodes.size condition).nodes.size = g.nodes.size + 1 := by
      simp [setCondition, hnodes]
    have hold : src < (g₁.setCondition g.nodes.size condition).nodes.size := by
      rw [hsize]
      exact Nat.lt_succ_of_lt hsrc
    have hnew : g.nodes.size < (g₁.setCondition g.nodes.size condition).nodes.size := by
      rw [hsize]
      exact Nat.lt_succ_self _
    have hedge := (hnode.condition g.nodes.size condition).edge hold hnew
    rw [Growth.after_bind_ok hn, Growth.after_bind_ok (modify_ok.mpr rfl)]
    cases hc : connect src g.nodes.size (g₁.setCondition g.nodes.size condition) with
    | error e g₂ =>
      rw [Growth.after_error hc] at hedge
      rwa [Growth.after_bind_error hc]
    | ok _ g₂ =>
      rw [Growth.after_ok hc] at hedge
      rwa [Growth.after_bind_ok hc]

theorem pasteBindings (h : g.Built) (hv : v < g.vars.size) (hn : n < g.nodes.size)
    (bs : List BindingId) : (g.pasteBindings v bs n).Built := by
  induction bs generalizing g with
  | nil => exact h
  | cons b bs ih =>
    apply ih (h.binding (g.dataOf b) [b] hv hn)
    · rwa [addBinding_vars_size]
    · rwa [(addBinding_bound v (g.dataOf b) [b] n).size_eq]

theorem pasteVariable (h : g.Built) (hv : v < g.vars.size) (hn : n < g.nodes.size) (src : VarId) :
    (g.pasteVariable v src n).Built := by
  unfold Graph.pasteVariable
  split_ifs
  · exact h
  · exact h.pasteBindings hv hn _

end Built

namespace Closed

theorem condition (h : g.Closed) (hc : (g.node n).condition = some c) : c < g.bindings.size := by
  rcases Nat.lt_or_ge n g.nodes.size with hlt | hge
  · exact h.conditions n hlt c (Option.mem_toList.mpr hc)
  · rw [node_eq_default hge] at hc
    cases hc

theorem source (h : g.Closed) {o : Origin} (ho : (g.binding b).originAt? n = some o)
    {s : SourceSet} (hs : s ∈ o.sourceSets) (hc : c ∈ s) : c < g.bindings.size :=
  h.sources b (lt_of_originAt? ho) o (List.mem_of_find?_eq_some ho) s hs c hc

/-- New nodes and edges keep what is known of the sources. -/
private theorem of_linked (h : g.Closed) (hl : g.Linked g')
    (hc : ∀ n c, (g'.node n).condition = some c → c < g.bindings.size) : g'.Closed := by
  refine ⟨fun n _ c hn => ?_, fun b hb o ho s hs c hcs => ?_⟩
  · rw [hl.bindings]
    exact hc n c (Option.mem_toList.mp hn)
  · rw [hl.bindings] at hb ⊢
    rw [hl.binding] at ho
    exact h.sources b hb o ho s hs c hcs

theorem newNode (h : g.Closed) (hn : Graph.newNode name g = .ok n g') : g'.Closed := by
  obtain ⟨-, hnodes, hl⟩ := newNode_ok hn
  refine h.of_linked hl fun k c hc => ?_
  rw [node_push hnodes] at hc
  split_ifs at hc
  exact h.condition hc

theorem connect (h : g.Closed) (hc : Graph.connect src dst g = .ok () g') : g'.Closed := by
  obtain ⟨hl, -, hcondition, -⟩ := connect_ok hc
  refine h.of_linked hl fun k c hk => ?_
  rw [hcondition] at hk
  exact h.condition hk

theorem setCondition (h : g.Closed) {condition : Option BindingId}
    (hc : ∀ c, condition = some c → c < g.bindings.size) : (g.setCondition n condition).Closed := by
  have hnodes : (g.setCondition n condition).nodes = g.nodes.modify n ({ · with condition }) := rfl
  refine h.of_linked (setCondition_linked condition) fun k c hk => ?_
  rw [node_modify hnodes] at hk
  split_ifs at hk
  · exact hc c hk
  · exact h.condition hk

theorem newVariable (h : g.Closed) (name : String) : (g.newVariable name).2.Closed :=
  ⟨h.conditions, h.sources⟩

theorem mem_addSources {origins : List Origin} {o : Origin} {s t : SourceSet}
    (ho : o ∈ addSources origins n s) (ht : t ∈ o.sourceSets) :
    t = s ∨ ∃ o' ∈ origins, t ∈ o'.sourceSets := by
  induction origins with
  | nil =>
    obtain rfl := List.mem_singleton.mp ho
    exact .inl (List.mem_singleton.mp ht)
  | cons p origins ih =>
    rw [addSources] at ho
    by_cases hp : (p.node == n) = true
    · rw [if_pos hp] at ho
      rcases List.mem_cons.mp ho with rfl | ho
      · dsimp only at ht
        split_ifs at ht
        · exact .inr ⟨p, List.mem_cons_self, ht⟩
        · rcases List.mem_append.mp ht with ht | ht
          · exact .inr ⟨p, List.mem_cons_self, ht⟩
          · exact .inl (List.mem_singleton.mp ht)
      · exact .inr ⟨o, List.mem_cons_of_mem p ho, ht⟩
    · rw [if_neg hp] at ho
      rcases List.mem_cons.mp ho with ho | ho
      · exact .inr ⟨p, List.mem_cons_self, ho ▸ ht⟩
      · rcases ih ho with hs | ⟨o', ho', ht⟩
        · exact .inl hs
        · exact .inr ⟨o', List.mem_cons_of_mem p ho', ht⟩

theorem lt_of_source (h : g.Closed) {o : Origin} (ho : o ∈ (g.binding b).origins) {s : SourceSet}
    (hs : s ∈ o.sourceSets) (hc : c ∈ s) : c < g.bindings.size := by
  refine h.sources b (by_contra fun hb => ?_) o ho s hs c hc
  have hd : g.binding b = default := by simp [binding, Array.getElem?_eq_none (Nat.le_of_not_lt hb)]
  rw [hd] at ho
  cases ho

/-- A source of a binding was one before, or it is one of those that have been added. -/
theorem mem_sources_addBinding {sources : List BindingId} {a : BindingId} {v : VarId} {d : DataId}
    {o : Origin} {s : SourceSet} (ho : o ∈ ((g.addBinding v d sources n).2.binding a).origins)
    (hs : s ∈ o.sourceSets) (hc : c ∈ s) :
    c ∈ sources ∨ ∃ o ∈ (g.binding a).origins, ∃ s ∈ o.sourceSets, c ∈ s := by
  cases hb : g.bindingTo? v d with
  | some b =>
    rw [addBinding_old sources n hb, addOrigin_binding] at ho
    split_ifs at ho with hab
    · rcases mem_addSources ho hs with rfl | ⟨o', ho', hs⟩
      · exact .inl (SourceSet.mem_ofList.mp hc)
      · exact .inr ⟨o', ho', s, hs, hc⟩
    · exact .inr ⟨o, ho, s, hs, hc⟩
  | none =>
    obtain ⟨g', he, -, -, hnew, hold, -⟩ := addBinding_new d sources n hb
    rw [he] at ho
    change o ∈ (g'.binding a).origins at ho
    rcases eq_or_ne a g.bindings.size with rfl | hne
    · rw [hnew] at ho
      obtain rfl := List.mem_singleton.mp ho
      obtain rfl := List.mem_singleton.mp hs
      exact .inl (SourceSet.mem_ofList.mp hc)
    · rw [hold a hne] at ho
      exact .inr ⟨o, ho, s, hs, hc⟩

theorem addBinding (h : g.Closed) {sources : List BindingId}
    (hs : ∀ c ∈ sources, c < g.bindings.size) (v : VarId) (d : DataId) (n : NodeId) :
    (g.addBinding v d sources n).2.Closed := by
  have hbound := addBinding_bound (g := g) v d sources n
  have hle := (addBinding_addedAt (g := g) v d sources n).size_le
  refine ⟨fun k hk c hc => ?_, fun a _ o ho s hso c hc => Nat.lt_of_lt_of_le ?_ hle⟩
  · rw [hbound.condition] at hc
    exact Nat.lt_of_lt_of_le (h.conditions k (hbound.size_eq ▸ hk) c hc) hle
  · rcases mem_sources_addBinding ho hso hc with hc | ⟨o, ho, s, hso, hc⟩
    · exact hs c hc
    · exact h.lt_of_source ho hso hc

theorem pasteVariable (h : g.Closed) (hw : g.WellFormed) (dst src : VarId) (n : NodeId) :
    (g.pasteVariable dst src n).Closed := by
  have hpaste {bs : List BindingId} (hbs : ∀ b ∈ bs, b < g.bindings.size) :
      (g.pasteBindings dst bs n).Closed := by
    clear hw
    induction bs generalizing g with
    | nil => exact h
    | cons b bs ih =>
      have hle := (addBinding_addedAt (g := g) dst (g.dataOf b) [b] n).size_le
      have hb := hbs b List.mem_cons_self
      refine ih (h.addBinding (fun c hc => List.mem_singleton.mp hc ▸ hb) dst (g.dataOf b) n) ?_
      exact fun c hc => Nat.lt_of_lt_of_le (hbs c (List.mem_cons_of_mem b hc)) hle
  unfold Graph.pasteVariable
  split_ifs
  · exact h
  · exact hpaste fun b hb => (hw.listed src b hb).1

end Closed

/-- A binding of another variable stays as it is. -/
theorem addBinding_kept (hw : g.WellFormed) (hb : b < g.bindings.size) (hv : (g.binding b).var ≠ v)
    (d : DataId) (sources : List BindingId) (n : NodeId) :
    (g.addBinding v d sources n).2.binding b = g.binding b := by
  cases hc : g.bindingTo? v d with
  | some c =>
    rw [addBinding_old sources n hc, addOrigin_binding, if_neg]
    rintro ⟨rfl, -⟩
    exact hv (hw.listed v b (hw.mem_of_bindingTo? hc)).2
  | none =>
    obtain ⟨_, he, _, _, _, hold, _⟩ := addBinding_new d sources n hc
    rw [he]
    exact hold b (Nat.ne_of_lt hb)

/-- Another variable is bound as it was. -/
theorem addBinding_listed {w : VarId} (hne : w ≠ v) (d : DataId) (sources : List BindingId)
    (n : NodeId) : (g.addBinding v d sources n).2.allBindings w = g.allBindings w := by
  cases hc : g.bindingTo? v d with
  | some c =>
    rw [addBinding_old sources n hc]
    rfl
  | none =>
    obtain ⟨_, he, _, _, _, _, hlist, _⟩ := addBinding_new d sources n hc
    rw [he]
    exact (hlist w).trans (if_neg fun h => hne h.1)


namespace Extends

theorem refl (g : Graph) : g.Extends g where
  nodes_le := Nat.le_refl _
  vars_le := Nat.le_refl _
  bindings_le := Nat.le_refl _
  incoming _ _ := rfl
  condition _ _ := rfl
  assigns _ _ _ _ := rfl
  kept _ _ := rfl
  fresh _ h h' := absurd h' (Nat.not_lt.mpr h)

theorem trans (h : g.Extends g') (h' : g'.Extends g'') : g.Extends g'' where
  nodes_le := Nat.le_trans h.nodes_le h'.nodes_le
  vars_le := Nat.le_trans h.vars_le h'.vars_le
  bindings_le := Nat.le_trans h.bindings_le h'.bindings_le
  incoming n hn := (h'.incoming n (Nat.lt_of_lt_of_le hn h.nodes_le)).trans (h.incoming n hn)
  condition n hn := (h'.condition n (Nat.lt_of_lt_of_le hn h.nodes_le)).trans (h.condition n hn)
  assigns n hn v hv :=
    (h'.assigns n (Nat.lt_of_lt_of_le hn h.nodes_le) v (Nat.lt_of_lt_of_le hv h.vars_le)).trans
      (h.assigns n hn v hv)
  kept b hb := (h'.kept b (Nat.lt_of_lt_of_le hb h.bindings_le)).trans (h.kept b hb)
  fresh := by
    intro b hb hlt
    rcases Nat.lt_or_ge b g'.bindings.size with hold | hnew
    · rw [h'.kept b hold]
      exact h.fresh b hb hold
    · exact Nat.le_trans h.vars_le (h'.fresh b hnew hlt)

/-- All that was asked of a graph is answered as before. -/
theorem agreeOn (h : g.Extends g') (hw : g.WellFormed) (hc : g.Closed) :
    g.AgreeOn g' {n | n < g.nodes.size} {b | b < g.bindings.size} where
  closed n _ p hp := hw.incoming n p hp
  incoming n hn := h.incoming n hn
  condition n hn := h.condition n hn
  origin b hb n _ := by rw [h.kept b hb]
  var b hb _ := by rw [h.kept b hb]
  assigns b hb _ n hn := h.assigns n hn _ (hw.var b hb)
  condition_mem _ _ _ hn := hc.condition hn
  source_mem _ _ _ _ _ ho _ hs _ hcs := hc.source ho hs hcs

/-- What is alone with its variable stays so. -/
theorem sole (h : g.Extends g') (hw : g.WellFormed) (hc : c < g.bindings.size) (hs : g.Sole c) :
    g'.Sole c := by
  intro a ha hv
  rw [h.kept c hc] at hv
  rcases Nat.lt_or_ge a g.bindings.size with hlt | hge
  · rw [h.kept a hlt] at ha hv
    exact hs a ha hv
  · have hlt : a < g'.bindings.size := by
      by_contra hout
      rw [binding, Array.getElem?_eq_none (Nat.le_of_not_lt hout)] at ha
      exact ha rfl
    have hnew : g.vars.size ≤ (g.binding c).var := hv ▸ h.fresh a hge hlt
    exact absurd hnew (Nat.not_le.mpr (hw.var c hc))

/-- A binding that is the only one to have been added is alone with its variable. -/
theorem sole_new (h : g.Extends g') (hw : g.WellFormed)
    (hsize : g'.bindings.size = g.bindings.size + 1) : g'.Sole g.bindings.size := by
  intro a ha hv
  rcases Nat.lt_trichotomy a g.bindings.size with hlt | heq | hgt
  · rw [h.kept a hlt] at hv
    have hnew := h.fresh g.bindings.size (Nat.le_refl _) (hsize ▸ Nat.lt_succ_self _)
    rw [← hv] at hnew
    exact absurd hnew (Nat.not_le.mpr (hw.var a hlt))
  · exact heq
  · rw [binding, Array.getElem?_eq_none (hsize ▸ hgt)] at ha
    exact absurd rfl ha

theorem overwrites_iff (h : g.Extends g') (hw : g.WellFormed) (hn : n < g.nodes.size)
    (hb : b < g.bindings.size) : g'.Overwrites n b ↔ g.Overwrites n b := by
  unfold Overwrites
  rw [h.kept b hb, h.assigns n hn _ (hw.var b hb)]

theorem newVariable (h : g.Extends g') (name : String) : g.Extends (g'.newVariable name).2 where
  nodes_le := h.nodes_le
  vars_le := by
    simp only [Graph.newVariable, Array.size_push]
    exact Nat.le_succ_of_le h.vars_le
  bindings_le := h.bindings_le
  incoming := h.incoming
  condition := h.condition
  assigns := h.assigns
  kept := h.kept
  fresh := h.fresh

theorem addBinding (h : g.Extends g') (hw : g.WellFormed) (hw' : g'.WellFormed)
    (hv : g.vars.size ≤ v) (d : DataId) (sources : List BindingId) (n : NodeId) :
    g.Extends (g'.addBinding v d sources n).2 := by
  have hbound := addBinding_bound (g := g') v d sources n
  have hadded := addBinding_addedAt (g := g') v d sources n
  have hassigns := (addBinding_assigns (hw'.lists v) d sources n).2
  have hvars := addBinding_vars_size (g := g') v d sources n
  refine ⟨?_, ?_, Nat.le_trans h.bindings_le hadded.size_le, fun k hk => ?_, fun k hk => ?_,
    fun k hk w hw => ?_, fun b hb => ?_, fun b hb hlt => ?_⟩
  · rw [hbound.size_eq]
    exact h.nodes_le
  · rw [hvars]
    exact h.vars_le
  · rw [hbound.incoming]
    exact h.incoming k hk
  · rw [hbound.condition]
    exact h.condition k hk
  · rw [← h.assigns k hk w hw, Bool.eq_iff_iff, hassigns]
    exact or_iff_left fun h => absurd (h.2.2 ▸ hw) (Nat.not_lt.mpr hv)
  · rw [← h.kept b hb]
    refine addBinding_kept hw' (Nat.lt_of_lt_of_le hb h.bindings_le) (fun hbv => ?_) d sources n
    rw [h.kept b hb] at hbv
    exact absurd (hbv ▸ hw.var b hb) (Nat.not_lt.mpr hv)
  · rcases Nat.lt_or_ge b g'.bindings.size with hold | hnew
    · rw [hadded.var b hold]
      exact h.fresh b hb hold
    · cases hc : g'.bindingTo? v d with
      | some c =>
        rw [addBinding_old sources n hc] at hlt
        simp only [addOrigin, Array.size_modify] at hlt
        exact absurd hlt (Nat.not_lt.mpr hnew)
      | none =>
        obtain ⟨g₁, he, hsize, _, hlast, _⟩ := addBinding_new d sources n hc
        rw [he] at hlt ⊢
        change b < g₁.bindings.size at hlt
        obtain rfl : b = g'.bindings.size := by omega
        rw [hlast]
        exact hv

theorem newNode (h : Graph.newNode name g = .ok n g') :
    g.Extends g' := by
  obtain ⟨rfl, hnodes, hl⟩ := newNode_ok h
  have hold (k : NodeId) (hk : k < g.nodes.size) : g'.node k = g.node k := by
    rw [node_push hnodes, if_neg (Nat.ne_of_lt hk)]
  refine ⟨hl.size_le, ?_, ?_, fun k hk => ?_, fun k hk => ?_, fun k _ v _ => hl.assigns,
    fun b _ => hl.binding, fun b hb hlt => ?_⟩
  · rw [hl.vars]
  · rw [hl.bindings]
  · rw [hold k hk]
  · rw [hold k hk]
  · rw [hl.bindings] at hlt
    exact absurd hlt (Nat.not_lt.mpr hb)

/-- An edge into a new node changes nothing at the old ones. -/
theorem connect (h : g.Extends g') (hdst : g.nodes.size ≤ dst)
    (hc : Graph.connect src dst g' = .ok () g'') : g.Extends g'' := by
  obtain ⟨hl, hsize, hcondition, hincoming⟩ := connect_ok hc
  refine ⟨hsize ▸ h.nodes_le, hl.vars ▸ h.vars_le, hl.bindings ▸ h.bindings_le, fun k hk => ?_,
    fun k hk => ?_, fun k hk v hv => ?_, fun b hb => ?_, fun b hb hlt => ?_⟩
  · rw [← h.incoming k hk, hincoming, if_neg]
    rintro ⟨rfl, -⟩
    exact absurd hk (Nat.not_lt.mpr hdst)
  · rw [hcondition]
    exact h.condition k hk
  · rw [hl.assigns]
    exact h.assigns k hk v hv
  · rw [hl.binding]
    exact h.kept b hb
  · rw [hl.binding]
    exact h.fresh b hb (hl.bindings ▸ hlt)

end Extends

/-- A new node stands behind the one before it and nowhere else. -/
theorem connectNew_extends (hw : g.WellFormed) {condition : Option BindingId}
    (h : connectNew src name condition g = .ok n g') :
    g.Extends g' ∧ (g'.node n).incoming = [src] ∧ (g'.node n).condition = condition ∧
      ∀ v, (g'.node n).assigns v = false := by
  obtain ⟨rfl, hl, hsize⟩ := connectNew_ok h
  unfold connectNew at h
  obtain ⟨_, g₁, hn, h⟩ := bind_ok.mp h
  obtain ⟨_, g₂, hm, h⟩ := bind_ok.mp h
  obtain ⟨_, g₃, hc, h⟩ := bind_ok.mp h
  obtain ⟨rfl, rfl⟩ := pure_ok.mp h
  obtain rfl := modify_ok.mp hm
  obtain ⟨-, hnodes, -⟩ := newNode_ok hn
  obtain ⟨-, -, hconditions, hincoming⟩ := connect_ok hc
  have hguard : (g₁.setCondition g.nodes.size condition).nodes =
    g₁.nodes.modify g.nodes.size ({ · with condition }) := rfl
  have hlt : g.nodes.size < g₁.nodes.size := by simp [hnodes]
  have hlt' : g.nodes.size < (g₁.setCondition g.nodes.size condition).nodes.size := by
    simpa [hguard] using hlt
  have hold (k : NodeId) (hk : k ≠ g.nodes.size) :
      (g₁.setCondition g.nodes.size condition).node k = g.node k := by
    rw [node_modify hguard, if_neg fun h => hk h.1, node_push hnodes, if_neg hk]
  have hnew : (g₁.setCondition g.nodes.size condition).node g.nodes.size =
      { id := Word.low32 g.nodes.size, name, condition } := by
    rw [node_modify hguard, if_pos ⟨rfl, hlt⟩, node_push hnodes, if_pos rfl]
  -- The number of the new node is not among the edges that lead out of `src`.
  have hout : g.nodes.size ∉ ((g₁.setCondition g.nodes.size condition).node src).outgoing := by
    intro hmem
    by_cases hsrc : src = g.nodes.size
    · rw [hsrc, hnew] at hmem
      cases hmem
    · rw [hold src hsrc] at hmem
      exact Nat.lt_irrefl _ (hw.outgoing src _ hmem)
  have hassigned : (g.node g.nodes.size).assigned = ∅ := by
    rw [node_eq_default (Nat.le_refl _)]
    rfl
  refine ⟨⟨hl.size_le, ?_, ?_, fun k hk => ?_, fun k hk => ?_, fun k _ v _ => hl.assigns,
    fun b _ => hl.binding, fun b hb hlt => ?_⟩, ?_, ?_, fun v => ?_⟩
  · rw [hl.vars]
  · rw [hl.bindings]
  · rw [hincoming, if_neg fun h => Nat.ne_of_lt hk h.1, hold k (Nat.ne_of_lt hk)]
  · rw [hconditions, hold k (Nat.ne_of_lt hk)]
  · rw [hl.bindings] at hlt
    exact absurd hlt (Nat.not_lt.mpr hb)
  · rw [hincoming, if_pos ⟨rfl, hlt', hout⟩, hnew]
    rfl
  · rw [hconditions, hnew]
  · unfold Node.assigns
    rw [hl.assigned, hassigned]
    rfl

end ValueTrace.Graph
