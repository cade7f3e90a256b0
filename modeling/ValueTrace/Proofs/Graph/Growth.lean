import ValueTrace.Path.Basic
import ValueTrace.Proofs.Success

/-! What growth changes in a graph, node by node and binding by binding. -/
namespace ValueTrace.Graph

/-- Only nodes and edges have been added. -/
structure Linked (g g' : Graph) : Prop where
  vars : g'.vars = g.vars
  bindings : g'.bindings = g.bindings
  assigned : ∀ n, (g'.node n).assigned = (g.node n).assigned
  size_le : g.nodes.size ≤ g'.nodes.size

/-- Only variables and bindings have been added. -/
structure Bound (g g' : Graph) : Prop where
  size_eq : g'.nodes.size = g.nodes.size
  incoming : ∀ n, (g'.node n).incoming = (g.node n).incoming
  outgoing : ∀ n, (g'.node n).outgoing = (g.node n).outgoing
  condition : ∀ n, (g'.node n).condition = (g.node n).condition

variable {g g' g'' : Graph} {n k src dst : NodeId} {v : VarId} {b : BindingId} {name : String}

theorem node_congr (h : g'.nodes = g.nodes) : g'.node n = g.node n := by
  unfold node
  rw [h]

theorem binding_congr (h : g'.bindings = g.bindings) : g'.binding b = g.binding b := by
  unfold binding
  rw [h]

theorem node_eq_default (h : g.nodes.size ≤ n) : g.node n = default := by
  unfold node
  rw [Array.getElem?_eq_none h]
  rfl

theorem node_push {x : Node} (h : g'.nodes = g.nodes.push x) :
    g'.node n = if n = g.nodes.size then x else g.node n := by
  unfold node
  rw [h, Array.getElem?_push]
  split_ifs <;> rfl

theorem node_modify {f : Node → Node} (h : g'.nodes = g.nodes.modify k f) :
    g'.node n = if n = k ∧ k < g.nodes.size then f (g.node n) else g.node n := by
  unfold node
  rw [h, Array.getElem?_modify]
  by_cases hk : k = n
  · subst hk
    by_cases hlt : k < g.nodes.size
    · simp [hlt]
    · simp [hlt]
  · simp [hk, Ne.symm hk]

theorem Linked.trans (h : g.Linked g') (h' : g'.Linked g'') : g.Linked g'' where
  vars := h'.vars.trans h.vars
  bindings := h'.bindings.trans h.bindings
  assigned n := (h'.assigned n).trans (h.assigned n)
  size_le := Nat.le_trans h.size_le h'.size_le

theorem Linked.binding (h : g.Linked g') : g'.binding b = g.binding b := binding_congr h.bindings

theorem Linked.assigns (h : g.Linked g') : (g'.node n).assigns v = (g.node n).assigns v := by
  unfold Node.assigns
  rw [h.assigned]

theorem charge_ok {amount : Nat} (h : charge amount g = .ok () g') :
    g'.nodes = g.nodes ∧ g'.vars = g.vars ∧ g'.bindings = g.bindings := by
  unfold charge at h
  obtain ⟨_, _, hget, h⟩ := bind_ok.mp h
  obtain ⟨rfl, rfl⟩ := get_ok.mp hget
  cases hclosed : g.closed with
  | true =>
    rw [hclosed, if_pos rfl, bind_ok] at h
    obtain ⟨_, _, ht, _⟩ := h
    exact (throw_ok.mp ht).elim
  | false =>
    rw [hclosed, if_neg Bool.false_ne_true] at h
    obtain ⟨_, _, hset, h⟩ := bind_ok.mp h
    obtain rfl := set_ok.mp hset
    split_ifs at h
    · exact (throw_ok.mp h).elim
    · obtain ⟨_, rfl⟩ := pure_ok.mp h
      exact ⟨rfl, rfl, rfl⟩

theorem newNode_ok (h : newNode name g = .ok n g') :
    n = g.nodes.size ∧ g'.nodes = g.nodes.push { id := Word.low32 n, name } ∧ g.Linked g' := by
  unfold newNode at h
  obtain ⟨_, g₁, hc, h⟩ := bind_ok.mp h
  obtain ⟨hnodes, hvars, hbindings⟩ := charge_ok hc
  obtain ⟨rfl, rfl⟩ := Prod.mk.inj (modifyGet_ok.mp h)
  refine ⟨by rw [hnodes], by rw [hnodes], hvars, hbindings, fun k => ?_, ?_⟩
  · rw [node_push (g := g₁) rfl, node_congr hnodes, hnodes]
    split_ifs with hk
    · rw [node_eq_default (Nat.le_of_eq hk.symm)]
      rfl
    · rfl
  · simp [hnodes]

/-- An edge is added at both of its ends, unless it is there already. -/
theorem connect_nodes (h : connect src dst g = .ok () g') :
    g'.vars = g.vars ∧ g'.bindings = g.bindings ∧ g'.nodes.size = g.nodes.size ∧
    ∀ n, g'.node n = if dst ∈ (g.node src).outgoing then g.node n else
      { g.node n with
        outgoing := if n = src ∧ src < g.nodes.size then (g.node n).outgoing ++ [dst]
          else (g.node n).outgoing
        incoming := if n = dst ∧ dst < g.nodes.size then (g.node n).incoming ++ [src]
          else (g.node n).incoming } := by
  unfold connect at h
  obtain ⟨_, _, hget, h⟩ := bind_ok.mp h
  obtain ⟨rfl, rfl⟩ := get_ok.mp hget
  by_cases hout : dst ∈ (g.node src).outgoing
  · rw [if_pos (by simpa using hout)] at h
    obtain ⟨_, rfl⟩ := pure_ok.mp h
    exact ⟨rfl, rfl, rfl, fun n => by rw [if_pos hout]⟩
  · rw [if_neg (by simpa using hout)] at h
    obtain ⟨_, g₁, hc, h⟩ := bind_ok.mp h
    obtain ⟨hnodes, hvars, hbindings⟩ := charge_ok hc
    obtain rfl := modify_ok.mp h
    let out (n : Node) : Node := { n with outgoing := n.outgoing ++ [dst] }
    let into (n : Node) : Node := { n with incoming := n.incoming ++ [src] }
    let g₂ : Graph := { g₁ with nodes := g₁.nodes.modify src out }
    have hsrc : g₂.nodes = g₁.nodes.modify src out := rfl
    have hdst : ({ g₂ with nodes := g₂.nodes.modify dst into } : Graph).nodes =
      g₂.nodes.modify dst into := rfl
    refine ⟨hvars, hbindings, by simp [hnodes], fun n => ?_⟩
    change ({ g₂ with nodes := g₂.nodes.modify dst into } : Graph).node n = _
    rw [node_modify hdst, node_modify hsrc, node_congr hnodes, hsrc, Array.size_modify, hnodes,
      if_neg hout]
    split_ifs <;> rfl

theorem connect_ok (h : connect src dst g = .ok () g') : g.Linked g' ∧
    g'.nodes.size = g.nodes.size ∧
    (∀ n, (g'.node n).condition = (g.node n).condition) ∧
    ∀ n, (g'.node n).incoming = if n = dst ∧ dst < g.nodes.size ∧ dst ∉ (g.node src).outgoing
      then (g.node n).incoming ++ [src] else (g.node n).incoming := by
  obtain ⟨hvars, hbindings, hsize, hnode⟩ := connect_nodes h
  refine ⟨⟨hvars, hbindings, fun n => ?_, Nat.le_of_eq hsize.symm⟩, hsize, fun n => ?_, fun n => ?_⟩
  · rw [hnode]
    split_ifs <;> rfl
  · rw [hnode]
    split_ifs <;> rfl
  · rw [hnode]
    by_cases hout : dst ∈ (g.node src).outgoing
    · simp [hout]
    · simp only [hout, if_false, not_false_eq_true, and_true]

theorem setCondition_linked (condition : Option BindingId) :
    g.Linked (g.setCondition n condition) := by
  refine ⟨rfl, rfl, fun k => ?_, ?_⟩
  · have h : (g.setCondition n condition).nodes = g.nodes.modify n ({ · with condition }) := rfl
    rw [node_modify h]
    split_ifs <;> rfl
  · simp [setCondition]

theorem connectNew_ok {condition : Option BindingId}
    (h : connectNew src name condition g = .ok n g') :
    n = g.nodes.size ∧ g.Linked g' ∧ g'.nodes.size = g.nodes.size + 1 := by
  unfold connectNew at h
  obtain ⟨_, g₁, hn, h⟩ := bind_ok.mp h
  obtain ⟨_, g₂, hm, h⟩ := bind_ok.mp h
  obtain ⟨_, g₃, hc, h⟩ := bind_ok.mp h
  obtain ⟨rfl, rfl⟩ := pure_ok.mp h
  obtain rfl := modify_ok.mp hm
  obtain ⟨rfl, hnodes, hl⟩ := newNode_ok hn
  obtain ⟨hl', hsize, _⟩ := connect_ok hc
  refine ⟨rfl, (hl.trans (setCondition_linked condition)).trans hl', ?_⟩
  rw [hsize]
  simp [setCondition, hnodes]

/-- A path moves to the next node that is made. -/
theorem forward_ok {p q : Path} (h : p.forward g = .ok q g') :
    q = { p with node := g.nodes.size } ∧ g.Linked g' ∧ g'.nodes.size = g.nodes.size + 1 := by
  unfold Path.forward at h
  obtain ⟨_, _, hget, h⟩ := bind_ok.mp h
  obtain ⟨rfl, rfl⟩ := get_ok.mp hget
  obtain ⟨n, g₁, hn, h⟩ := bind_ok.mp h
  obtain ⟨rfl, rfl⟩ := pure_ok.mp h
  obtain ⟨rfl, hl⟩ := connectNew_ok hn
  exact ⟨rfl, hl⟩

theorem Bound.refl (g : Graph) : g.Bound g := ⟨rfl, fun _ => rfl, fun _ => rfl, fun _ => rfl⟩

theorem Bound.trans (h : g.Bound g') (h' : g'.Bound g'') : g.Bound g'' where
  size_eq := h'.size_eq.trans h.size_eq
  incoming n := (h'.incoming n).trans (h.incoming n)
  outgoing n := (h'.outgoing n).trans (h.outgoing n)
  condition n := (h'.condition n).trans (h.condition n)

theorem Bound.of_nodes (h : g'.nodes = g.nodes) : g.Bound g' where
  size_eq := congrArg Array.size h
  incoming _ := congrArg Node.incoming (node_congr h)
  outgoing _ := congrArg Node.outgoing (node_congr h)
  condition _ := congrArg Node.condition (node_congr h)

theorem addOrigin_bound (sources : List BindingId) : g.Bound (g.addOrigin b n sources) := by
  let assign (k : Node) : Node := { k with assigned := k.assigned.insert (g.binding b).var }
  have hnodes : (g.addOrigin b n sources).nodes = g.nodes.modify n assign := rfl
  refine ⟨by simp [addOrigin], fun k => ?_, fun k => ?_, fun k => ?_⟩
  · rw [node_modify hnodes]
    split_ifs <;> rfl
  · rw [node_modify hnodes]
    split_ifs <;> rfl
  · rw [node_modify hnodes]
    split_ifs <;> rfl

theorem addBinding_bound (v : VarId) (d : DataId) (sources : List BindingId) (n : NodeId) :
    g.Bound (g.addBinding v d sources n).2 := by
  unfold addBinding
  cases g.bindingTo? v d with
  | some b => exact addOrigin_bound sources
  | none =>
    have hnew : g.Bound (g.newBinding v d).2 := .of_nodes rfl
    exact hnew.trans (addOrigin_bound sources)

theorem pasteBindings_bound (v : VarId) (bs : List BindingId) (n : NodeId) :
    g.Bound (g.pasteBindings v bs n) := by
  induction bs generalizing g with
  | nil => exact .refl g
  | cons b bs ih => exact (addBinding_bound v (g.dataOf b) [b] n).trans ih

theorem pasteVariable_bound (dst src : VarId) (n : NodeId) :
    g.Bound (g.pasteVariable dst src n) := by
  unfold pasteVariable
  split_ifs
  · exact .refl g
  · exact pasteBindings_bound ..

theorem addOrigin_binding (sources : List BindingId) (a : BindingId) :
    (g.addOrigin b n sources).binding a = if a = b ∧ b < g.bindings.size then
      { g.binding a with origins := addSources (g.binding a).origins n (.ofList sources) }
    else g.binding a := by
  unfold addOrigin binding
  rw [Array.getElem?_modify]
  by_cases hab : b = a
  · subst hab
    by_cases hlt : b < g.bindings.size
    · simp [hlt]
    · simp [hlt]
  · simp [hab, Ne.symm hab]

theorem addOrigin_binding_var (sources : List BindingId) (a : BindingId) :
    ((g.addOrigin b n sources).binding a).var = (g.binding a).var := by
  rw [addOrigin_binding]
  split_ifs <;> rfl

theorem addOrigin_assigns (sources : List BindingId) :
    ((g.addOrigin b n sources).node k).assigns v = true ↔
      (g.node k).assigns v = true ∨ k = n ∧ n < g.nodes.size ∧ v = (g.binding b).var := by
  have h : (g.addOrigin b n sources).nodes = g.nodes.modify n fun k =>
    { k with assigned := k.assigned.insert (g.binding b).var } := rfl
  rw [node_modify h]
  split_ifs with hk
  · unfold Node.assigns
    rw [Std.TreeSet.contains_insert, Bool.or_eq_true, beq_iff_eq, Nat.compare_eq_eq, or_comm]
    exact or_congr_right ⟨fun h => ⟨hk.1, hk.2, h.symm⟩, fun h => h.2.2.symm⟩
  · exact ⟨.inl, fun h => h.resolve_right fun ⟨hkn, hn, _⟩ => hk ⟨hkn, hn⟩⟩

/-- A value that a variable is not bound to gets a new binding, which comes last in its list. -/
theorem addBinding_new (d : DataId) (sources : List BindingId) (n : NodeId)
    (h : g.bindingTo? v d = none) : ∃ g', g.addBinding v d sources n = (g.bindings.size, g') ∧
      g'.bindings.size = g.bindings.size + 1 ∧ g'.vars.size = g.vars.size ∧
      g'.binding g.bindings.size =
        ⟨Word.low32 g.bindings.size, v, d, [⟨n, [.ofList sources]⟩]⟩ ∧
      (∀ a, a ≠ g.bindings.size → g'.binding a = g.binding a) ∧
      (∀ w, g'.allBindings w = if w = v ∧ v < g.vars.size then g.allBindings w ++ [g.bindings.size]
        else g.allBindings w) ∧
      ∀ k w, (g'.node k).assigns w = true ↔
        (g.node k).assigns w = true ∨ k = n ∧ n < g.nodes.size ∧ w = v := by
  unfold addBinding
  rw [h]
  let g₁ := (g.newBinding v d).2
  have hnew : g₁.binding g.bindings.size = ⟨Word.low32 g.bindings.size, v, d, []⟩ := by
    simp [g₁, newBinding, binding]
  have hold (a : BindingId) (ha : a ≠ g.bindings.size) : g₁.binding a = g.binding a := by
    simp [g₁, newBinding, binding, Array.getElem?_push, ha]
  have hsize : g₁.bindings.size = g.bindings.size + 1 := by simp [g₁, newBinding]
  refine ⟨g₁.addOrigin g.bindings.size n sources, rfl, ?_, ?_, ?_, fun a ha => ?_, fun w => ?_,
    fun k w => ?_⟩
  · simp [addOrigin, hsize]
  · simp [addOrigin, g₁, newBinding]
  · rw [addOrigin_binding, hnew, if_pos ⟨rfl, by rw [hsize]; exact Nat.lt_succ_self _⟩]
    rfl
  · rw [addOrigin_binding, if_neg fun h => ha h.1, hold a ha]
  · change ((g.vars.modify v _)[w]?.getD default).bindings = _
    rw [Array.getElem?_modify]
    by_cases hv : v = w
    · subst hv
      by_cases hlt : v < g.vars.size
      · simp [hlt, allBindings, var]
      · simp [hlt, allBindings, var]
    · simp [hv, Ne.symm hv, allBindings, var]
  · rw [addOrigin_assigns, hnew]
    rfl

theorem addBinding_old {d : DataId} (sources : List BindingId) (n : NodeId)
    (h : g.bindingTo? v d = some b) :
    g.addBinding v d sources n = (b, g.addOrigin b n sources) := by
  unfold addBinding
  rw [h]

theorem addBinding_vars_size (v : VarId) (d : DataId) (sources : List BindingId) (n : NodeId) :
    (g.addBinding v d sources n).2.vars.size = g.vars.size := by
  unfold addBinding
  cases g.bindingTo? v d with
  | some b => rfl
  | none => simp [addOrigin, newBinding]

/-- The index has the binding for the value then, and all else as it was. -/
theorem addBinding_bindingTo? (v : VarId) (d : DataId) (sources : List BindingId) (n : NodeId)
    (w : VarId) (e : DataId) : (g.addBinding v d sources n).2.bindingTo? w e =
      if w = v ∧ v < g.vars.size ∧ e = d then some (g.addBinding v d sources n).1
      else g.bindingTo? w e := by
  unfold addBinding
  cases hb : g.bindingTo? v d with
  | some b =>
    change g.bindingTo? w e = _
    split_ifs with h
    · rw [h.1, h.2.2, hb]
    · rfl
  | none =>
    change (((g.vars.modify v _)[w]?.getD default).byData)[e]? = _
    rw [Array.getElem?_modify]
    by_cases hv : v = w
    · subst hv
      by_cases hlt : v < g.vars.size
      · simp only [hlt, if_true, Array.getElem?_eq_getElem, Option.map_some, Option.getD_some,
          Std.TreeMap.getElem?_insert, bindingTo?, var, true_and, Std.compare_eq_iff_eq]
        exact if_congr eq_comm rfl rfl
      · simp [hlt, bindingTo?, var]
    · simp [hv, Ne.symm hv, bindingTo?, var]

/-- The bindings that are listed with a variable belong to it, and its index has no others. -/
structure Lists (g : Graph) (v : VarId) : Prop where
  var : ∀ b ∈ g.allBindings v, (g.binding b).var = v
  found : ∀ {d b}, g.bindingTo? v d = some b → b ∈ g.allBindings v

theorem addBinding_assigns (hl : g.Lists v) (d : DataId) (sources : List BindingId) (n : NodeId) :
    (g.addBinding v d sources n).2.Lists v ∧
      ∀ k w, ((g.addBinding v d sources n).2.node k).assigns w = true ↔
        (g.node k).assigns w = true ∨ k = n ∧ n < g.nodes.size ∧ w = v := by
  cases hb : g.bindingTo? v d with
  | some b =>
    rw [addBinding_old sources n hb]
    have hvar : (g.binding b).var = v := hl.var b (hl.found hb)
    refine ⟨⟨fun a ha => ?_, hl.found⟩, fun k w => ?_⟩
    · rw [addOrigin_binding_var]
      exact hl.var a ha
    · rw [addOrigin_assigns, hvar]
  | none =>
    have hindex := addBinding_bindingTo? (g := g) v d sources n v
    obtain ⟨g', he, _, _, hnew, hold, hlist, ha⟩ := addBinding_new d sources n hb
    rw [he] at hindex ⊢
    refine ⟨⟨fun a hav => ?_, fun {e b} hfound => ?_⟩, ha⟩
    · change (g'.binding a).var = v
      rcases eq_or_ne a g.bindings.size with rfl | hne
      · rw [hnew]
      · rw [hold a hne]
        rw [hlist] at hav
        split_ifs at hav
        · exact hl.var a ((List.mem_append.mp hav).resolve_right (by simpa using hne))
        · exact hl.var a hav
    · rw [hindex] at hfound
      rw [hlist]
      by_cases hlt : v < g.vars.size
      · rw [if_pos ⟨rfl, hlt⟩]
        split_ifs at hfound
        · obtain rfl := Option.some.inj hfound
          exact List.mem_append_right _ (List.mem_singleton_self _)
        · exact List.mem_append_left _ (hl.found hfound)
      · rw [if_neg fun h => hlt h.2.1] at hfound
        rw [if_neg fun h => hlt h.2]
        exact hl.found hfound

theorem pasteBindings_assigns (hl : g.Lists v) (bs : List BindingId) (n : NodeId) {w : VarId} :
    ((g.pasteBindings v bs n).node k).assigns w = true ↔
      (g.node k).assigns w = true ∨ k = n ∧ n < g.nodes.size ∧ w = v ∧ bs ≠ [] := by
  induction bs generalizing g with
  | nil => simp [pasteBindings]
  | cons b bs ih =>
    obtain ⟨hl₁, ha₁⟩ := addBinding_assigns hl (g.dataOf b) [b] n
    have hsize := (addBinding_bound (g := g) v (g.dataOf b) [b] n).size_eq
    change (((g.addBinding v _ [b] n).2.pasteBindings v bs n).node k).assigns w = true ↔ _
    rw [ih hl₁, ha₁, hsize]
    simp only [ne_eq, reduceCtorEq, not_false_eq_true, and_true]
    tauto

/-- Copying one variable to another binds it at the node, if there is anything to copy. -/
theorem pasteVariable_assigns (hl : g.Lists dst) (src : VarId) (n : NodeId) {w : VarId} :
    ((g.pasteVariable dst src n).node k).assigns w = true ↔ (g.node k).assigns w = true ∨
      k = n ∧ n < g.nodes.size ∧ w = dst ∧ dst ≠ src ∧ g.allBindings src ≠ [] := by
  unfold pasteVariable
  by_cases h : dst = src
  · rw [if_pos (by simpa using h)]
    simp [h]
  · rw [if_neg (by simpa using h), pasteBindings_assigns hl]
    simp [h]

def drawnNode (id : NodeId) (name : String) (incoming outgoing : List NodeId)
    (condition : Option BindingId) (assigned : List VarId) : Node :=
  { id, name, incoming, outgoing, condition, assigned := assigned.foldl (·.insert ·) ∅ }

/-- The graph with these nodes, names of variables and bindings, each of them with one origin. -/
def drawn (nodes : List Node) (names : List String) (bound : List (VarId × DataId × Origin))
    (cost : Nat) : Graph where
  nodes := nodes.toArray
  vars := (names.zipIdx.map fun (name, v) =>
    let own := bound.zipIdx.filter (·.1.1 == v)
    { id := v, name
      bindings := own.map (·.2)
      byData := own.foldl (fun index k => index.insert k.1.2.1 k.2) ∅ : Variable }).toArray
  bindings := (bound.zipIdx.map fun ((v, d, o), b) =>
    { id := b, var := v, data := d, origins := [o] : Binding }).toArray
  cost

end ValueTrace.Graph
