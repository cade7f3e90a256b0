import ValueTrace.Proofs.Graph.Alterations

/-!
# Bindings that are taken back

What some variables have been bound to at one node can be taken back. A graph that differs from
another one in nothing else grows as that does, and it answers what does not rest on these variables
as that does.
-/

namespace ValueTrace.Graph

/-- The graph without what the variables have been bound to at the node since it was an earlier
one. -/
def withdraw (g old : Graph) (n : NodeId) (W : List VarId) : Graph :=
  { g with
    bindings := g.bindings.mapIdx fun b k =>
      if W.contains k.var then
        { k with origins := k.origins.filter (·.node != n) ++
            (old.binding b).origins.filter (·.node == n) }
      else k
    nodes := g.nodes.modify n fun k =>
      { k with assigned := k.assigned.filter fun v => !W.contains v || (old.node n).assigns v } }

/-- The graphs are the same but for what variables in `W` are bound to at the node. -/
structure SameBut (g g' : Graph) (n : NodeId) (W : Set VarId) : Prop where
  vars : g'.vars = g.vars
  nodes : g'.nodes.size = g.nodes.size
  bindings : g'.bindings.size = g.bindings.size
  incoming : ∀ k, (g'.node k).incoming = (g.node k).incoming
  condition : ∀ k, (g'.node k).condition = (g.node k).condition
  var : ∀ b, (g'.binding b).var = (g.binding b).var
  data : ∀ b, g'.dataOf b = g.dataOf b
  origin : ∀ b k, (k = n → (g.binding b).var ∉ W) →
    (g'.binding b).originAt? k = (g.binding b).originAt? k
  assigns : ∀ k v, (k = n → v ∉ W) → (g'.node k).assigns v = (g.node k).assigns v

variable {g g' old : Graph} {n k m : NodeId} {v w : VarId} {d : DataId} {W : Set VarId}
  {b : BindingId} {sources bs : List BindingId} {asked : Set BindingId} {name : String}
  {Ws : List VarId} {os : List Origin} {s : SourceSet}

theorem find?_addSources_self : (addSources os n s).find? (·.node == n) =
    some (((os.find? (·.node == n)).getD ⟨n, []⟩) |> fun o => { o with
      sourceSets := if o.sourceSets.contains s then o.sourceSets else o.sourceSets ++ [s] }) := by
  induction os with
  | nil => simp [addSources]
  | cons o os ih =>
    rw [addSources]
    by_cases ho : o.node = n
    · simp [ho]
    · rw [if_neg (by simpa using ho), List.find?_cons_of_neg (by simpa using ho),
        List.find?_cons_of_neg (by simpa using ho)]
      exact ih

/-- The origins of two bindings at a node stay alike. -/
theorem originAt?_addSources_congr {x y : Binding} (h : x.originAt? m = y.originAt? m) :
    ({ x with origins := addSources x.origins n s } : Binding).originAt? m =
      ({ y with origins := addSources y.origins n s } : Binding).originAt? m := by
  rcases eq_or_ne m n with rfl | hne
  · unfold Binding.originAt? at h ⊢
    rw [find?_addSources_self, find?_addSources_self, h]
  · rw [originAt?_addSources hne, originAt?_addSources hne, h]

namespace SameBut

theorem refl (g : Graph) (n : NodeId) (W : Set VarId) : g.SameBut g n W :=
  ⟨rfl, rfl, rfl, fun _ => rfl, fun _ => rfl, fun _ => rfl, fun _ => rfl, fun _ _ _ => rfl,
    fun _ _ _ => rfl⟩

theorem var_eq (h : g.SameBut g' n W) (v : VarId) : g'.var v = g.var v := by
  unfold Graph.var
  rw [h.vars]

theorem allBindings (h : g.SameBut g' n W) (v : VarId) : g'.allBindings v = g.allBindings v :=
  congrArg Variable.bindings (h.var_eq v)

theorem allData (h : g.SameBut g' n W) (v : VarId) : g'.allData v = g.allData v := by
  unfold Graph.allData
  rw [h.allBindings]
  exact List.map_congr_left fun b _ => h.data b

theorem newVariable (h : g.SameBut g' n W) (name : String) :
    (g.newVariable name).1 = (g'.newVariable name).1 ∧
      (g.newVariable name).2.SameBut (g'.newVariable name).2 n W := by
  unfold Graph.newVariable
  rw [h.vars]
  exact ⟨rfl, rfl, h.nodes, h.bindings, h.incoming, h.condition, h.var, h.data, h.origin, h.assigns⟩

theorem addOrigin (h : g.SameBut g' n W) (b : BindingId) (k : NodeId) (sources : List BindingId) :
    (g.addOrigin b k sources).SameBut (g'.addOrigin b k sources) n W where
  vars := h.vars
  nodes := by rw [(addOrigin_bound sources).size_eq, (addOrigin_bound sources).size_eq, h.nodes]
  bindings := by simp [Graph.addOrigin, h.bindings]
  incoming j := by rw [(addOrigin_bound sources).incoming, (addOrigin_bound sources).incoming,
    h.incoming]
  condition j := by rw [(addOrigin_bound sources).condition, (addOrigin_bound sources).condition,
    h.condition]
  var a := by rw [addOrigin_binding_var, addOrigin_binding_var, h.var]
  data a := by
    unfold dataOf
    rw [addOrigin_binding, addOrigin_binding, h.bindings]
    have hdata : (g'.binding a).data = (g.binding a).data := h.data a
    split_ifs
    · exact hdata
    · exact hdata
  origin a j hj := by
    rw [addOrigin_binding_var] at hj
    rw [addOrigin_binding, addOrigin_binding, h.bindings]
    split_ifs
    · exact originAt?_addSources_congr (h.origin a j hj)
    · exact h.origin a j hj
  assigns j v hj := by
    rw [Bool.eq_iff_iff, addOrigin_assigns, addOrigin_assigns, h.nodes, h.var, h.assigns j v hj]

theorem newBinding (h : g.SameBut g' n W) (v : VarId) (d : DataId) :
    (g.newBinding v d).1 = (g'.newBinding v d).1 ∧
      (g.newBinding v d).2.SameBut (g'.newBinding v d).2 n W := by
  have hbinding (g : Graph) (a : BindingId) : (g.newBinding v d).2.binding a =
      if a = g.bindings.size then { id := Word.low32 g.bindings.size, var := v, data := d }
      else g.binding a := by
    unfold Graph.newBinding binding
    rw [Array.getElem?_push]
    split_ifs <;> rfl
  refine ⟨h.bindings.symm, ?_, h.nodes, ?_, h.incoming, h.condition, fun a => ?_, fun a => ?_,
    fun a j hj => ?_, h.assigns⟩
  · simp only [Graph.newBinding, h.vars, h.bindings]
  · simp [Graph.newBinding, h.bindings]
  · rw [hbinding, hbinding, h.bindings]
    split_ifs
    · rfl
    · exact h.var a
  · unfold dataOf
    rw [hbinding, hbinding, h.bindings]
    split_ifs
    · rfl
    · exact h.data a
  · rw [hbinding] at hj
    rw [hbinding, hbinding, h.bindings]
    split_ifs with ha
    · rfl
    · rw [if_neg ha] at hj
      exact h.origin a j hj

theorem addBinding (h : g.SameBut g' n W) (v : VarId) (d : DataId) (sources : List BindingId)
    (k : NodeId) : (g.addBinding v d sources k).1 = (g'.addBinding v d sources k).1 ∧
      (g.addBinding v d sources k).2.SameBut (g'.addBinding v d sources k).2 n W := by
  have hfound : g'.bindingTo? v d = g.bindingTo? v d := by
    unfold bindingTo?
    rw [h.var_eq]
  unfold Graph.addBinding
  rw [hfound]
  cases g.bindingTo? v d with
  | some b => exact ⟨rfl, h.addOrigin b k sources⟩
  | none =>
    obtain ⟨hid, hnew⟩ := h.newBinding v d
    refine ⟨hid, ?_⟩
    dsimp only
    rw [← hid]
    exact hnew.addOrigin _ k sources

theorem pasteBindings (h : g.SameBut g' n W) (v : VarId) (bs : List BindingId) (k : NodeId) :
    (g.pasteBindings v bs k).SameBut (g'.pasteBindings v bs k) n W := by
  induction bs generalizing g g' with
  | nil => exact h
  | cons b bs ih =>
    unfold Graph.pasteBindings
    rw [List.foldl_cons, List.foldl_cons, h.data b]
    exact ih (h.addBinding v (g.dataOf b) [b] k).2

theorem pasteVariable (h : g.SameBut g' n W) (v w : VarId) (k : NodeId) :
    (g.pasteVariable v w k).SameBut (g'.pasteVariable v w k) n W := by
  unfold Graph.pasteVariable
  rw [h.allBindings]
  split_ifs
  · exact h
  · exact h.pasteBindings v _ k

end SameBut

theorem withdraw_binding (b : BindingId) : (g.withdraw old n Ws).binding b =
    if (g.binding b).var ∈ Ws ∧ b < g.bindings.size then
      { g.binding b with origins := (g.binding b).origins.filter (·.node != n) ++
          (old.binding b).origins.filter (·.node == n) }
    else g.binding b := by
  unfold withdraw binding
  dsimp only
  rw [Array.getElem?_mapIdx]
  by_cases hb : b < g.bindings.size
  · simp only [hb, getElem?_pos, Option.map_some, Option.getD_some, List.contains_iff_mem, and_true]
  · simp [hb]

theorem withdraw_nodes : (g.withdraw old n Ws).nodes = g.nodes.modify n fun k =>
    { k with assigned := k.assigned.filter fun v => !Ws.contains v || (old.node n).assigns v } := rfl

theorem withdraw_assigns : ((g.withdraw old n Ws).node k).assigns v = true ↔
    (g.node k).assigns v = true ∧ (k = n → v ∈ Ws → (old.node n).assigns v = true) := by
  have hnone (hk : ¬ n < g.nodes.size) : (g.node n).assigns v = false := by
    rw [node_eq_default (Nat.le_of_not_lt hk)]
    exact Std.TreeSet.contains_emptyc
  rw [node_modify withdraw_nodes]
  by_cases hk : k = n
  · subst hk
    by_cases hlt : k < g.nodes.size
    · rw [if_pos ⟨rfl, hlt⟩]
      unfold Node.assigns
      rw [← Std.TreeSet.mem_iff_contains, ← Std.TreeSet.mem_iff_contains, Std.TreeSet.mem_filter]
      simp only [Std.TreeSet.get_eq, exists_prop, forall_const, Bool.or_eq_true, Bool.not_eq_true',
        List.contains_eq_mem, decide_eq_false_iff_not, Decidable.imp_iff_not_or]
    · rw [if_neg fun h => hlt h.2, hnone hlt]
      simp
  · rw [if_neg fun h => hk h.1]
    simp [hk]

/-- At the node the origins are those of the earlier graph, and elsewhere they stay. -/
theorem originAt?_withdraw (b : BindingId) (k : NodeId) :
    ((g.withdraw old n Ws).binding b).originAt? k =
      if k = n ∧ (g.binding b).var ∈ Ws ∧ b < g.bindings.size then (old.binding b).originAt? n
      else (g.binding b).originAt? k := by
  rw [withdraw_binding]
  by_cases hb : (g.binding b).var ∈ Ws ∧ b < g.bindings.size
  · rw [if_pos hb]
    unfold Binding.originAt?
    dsimp only
    rw [List.find?_append, List.find?_filter, List.find?_filter]
    by_cases hk : k = n
    · subst hk
      have hnone : (g.binding b).origins.find?
          (fun o => decide ((o.node != k) = true ∧ (o.node == k) = true)) = none := by
        simp [List.find?_eq_none]
      rw [hnone, Option.none_or, if_pos ⟨rfl, hb⟩]
      refine congrArg (List.find? · _) (funext fun o => ?_)
      simp [beq_eq_decide]
    · have hfirst : (fun o : Origin => decide ((o.node != n) = true ∧ (o.node == k) = true)) =
          (·.node == k) := by
        funext o
        by_cases ho : o.node = k <;> simp [ho, hk]
      have hnone : (old.binding b).origins.find?
          (fun o => decide ((o.node == n) = true ∧ (o.node == k) = true)) = none := by
        refine List.find?_eq_none.mpr fun o _ => ?_
        rw [decide_eq_true_eq, beq_iff_eq, beq_iff_eq]
        exact fun h => hk (h.2.symm.trans h.1)
      rw [hfirst, hnone, Option.or_none, if_neg fun h => hk h.1]
  · rw [if_neg hb, if_neg fun h => hb h.2]

theorem sameBut_withdraw (g old : Graph) (n : NodeId) (Ws : List VarId) :
    g.SameBut (g.withdraw old n Ws) n {v | v ∈ Ws} := by
  have hnode (j : NodeId) : ((g.withdraw old n Ws).node j).incoming = (g.node j).incoming ∧
      ((g.withdraw old n Ws).node j).condition = (g.node j).condition := by
    rw [node_modify withdraw_nodes]
    split_ifs <;> exact ⟨rfl, rfl⟩
  refine ⟨rfl, by simp [withdraw], by simp [withdraw], fun j => (hnode j).1, fun j => (hnode j).2,
    fun b => ?_, fun b => ?_, fun b j hj => ?_, fun j v hj => ?_⟩
  · rw [withdraw_binding]
    split_ifs <;> rfl
  · unfold dataOf
    rw [withdraw_binding]
    split_ifs <;> rfl
  · rw [originAt?_withdraw, if_neg fun h => hj h.1 h.2.1]
  · rw [Bool.eq_iff_iff, withdraw_assigns]
    exact and_iff_left fun hjn hv => absurd hv (hj hjn)

/-- When what has been bound since is taken back, the variables that were there show what they
showed. -/
theorem Alters.visible_withdraw (h : old.Alters g n {v | v ∈ Ws}) (hw : old.WellFormed)
    (hc : old.Closed) (hg : g.WellFormed) (hv : v < old.vars.size) (hk : k < old.nodes.size) :
    (g.withdraw old n Ws).visible v k = old.visible v k := by
  have hsame := sameBut_withdraw g old n Ws
  have horigin (b : BindingId) (hb : b < old.bindings.size) (j : NodeId) :
      ((g.withdraw old n Ws).binding b).originAt? j = (old.binding b).originAt? j := by
    rw [originAt?_withdraw]
    split_ifs with hj
    · rw [hj.1]
    · refine h.origin b hb j fun hjn hmem => hj ⟨hjn, ?_, hb.trans_le h.bindings_le⟩
      exact h.var b hb ▸ hmem
  have hassigns (j : NodeId) (hj : j < old.nodes.size) (w : VarId) (hlt : w < old.vars.size) :
      ((g.withdraw old n Ws).node j).assigns w = (old.node j).assigns w := by
    rw [Bool.eq_iff_iff, withdraw_assigns]
    by_cases hmem : j = n ∧ w ∈ Ws
    · obtain ⟨rfl, hmem⟩ := hmem
      refine ⟨fun h' => h'.2 rfl hmem, fun h' => ⟨?_, fun _ _ => h'⟩⟩
      exact h.assigned j hj w hlt h'
    · rw [h.assigns j hj w hlt fun hjn hw => hmem ⟨hjn, hw⟩]
      exact and_iff_left fun hjn hw => absurd ⟨hjn, hw⟩ hmem
  have hagree : old.AgreeOn (g.withdraw old n Ws) {j | old.Leads j k}
      {b | b < old.bindings.size} := by
    refine ⟨fun j hj p hp => .head hp hj, fun j hj => ?_, fun j hj => ?_, fun b hb j _ => ?_,
      fun b hb _ => ?_, fun b hb _ j hj => ?_, fun j _ c hcond => ?_, fun b _ j _ o ho s hs c hmem => ?_⟩
    · rw [hsame.incoming, h.incoming j (Leads.lt hw hk hj)]
    · rw [hsame.condition, h.condition j (Leads.lt hw hk hj)]
    · exact horigin b hb j
    · rw [hsame.var, h.var b hb]
    · exact hassigns j (Leads.lt hw hk hj) _ (hw.var b hb)
    · exact hc.condition hcond
    · exact hc.source ho hs hmem
  obtain ⟨l, hl, hnew⟩ := h.grown v hv
  have hasks : (g.withdraw old n Ws).AsksAlong Set.univ fun _ => Set.univ :=
    ⟨fun _ _ _ _ => trivial, fun _ _ _ _ => trivial, fun _ _ _ _ _ _ _ _ _ _ => trivial,
      fun _ _ _ _ _ _ => trivial⟩
  -- What the variable has been bound to since begins nowhere now.
  have hnone : l.filter ((g.withdraw old n Ws).isVisible · k) = [] := by
    refine List.filter_eq_nil_iff.mpr fun b hb hvis => ?_
    obtain ⟨hlt, hvar⟩ := hg.listed v b (hl ▸ List.mem_append_right _ hb)
    obtain ⟨j, -, -, ho⟩ := hasks.begins ((isVisible_iff _ _ _).mp hvis) (Set.mem_univ k)
      (Set.subset_univ _) (Set.mem_singleton b)
    rw [originAt?_withdraw, hvar] at ho
    have hdefault : (old.binding b).originAt? n = none := by
      rw [binding_eq_default (hnew b hb)]
      rfl
    split_ifs at ho with hj
    · rw [hdefault] at ho
      cases ho
    · rcases eq_or_ne j n with rfl | hne
      · have hnot : v ∉ Ws := fun hmem => hj ⟨rfl, hmem, hlt⟩
        have hb' : b ∈ old.allBindings v := h.listed v hv hnot ▸ hl ▸ List.mem_append_right _ hb
        exact absurd (hnew b hb) (Nat.not_le.mpr (hw.listed v b hb').1)
      · rw [h.newer b (hnew b hb) (hvar ▸ hv) j hne] at ho
        cases ho
  rw [visible_eq_filter, visible_eq_filter, hsame.allBindings, hl, List.filter_append, hnone,
    List.append_nil]
  refine List.filter_congr fun b hb => ?_
  rw [Bool.eq_iff_iff, isVisible_iff, isVisible_iff]
  refine hagree.canHold_iff .refl fun a ha => ?_
  obtain rfl := Set.mem_singleton_iff.mp ha
  exact (hw.listed v a hb).1

end ValueTrace.Graph
