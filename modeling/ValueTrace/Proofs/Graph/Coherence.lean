import ValueTrace.Proofs.Graph.WellFormed

/-! A graph keeps the same facts in several places: an edge at both of its ends, a binding in the
list of its variable, an origin in the variables that its node assigns. In every graph that is
built all places agree. -/
namespace ValueTrace

/-- One origin for a node at most, and no set twice in an origin. The sets are in ascending order,
so two of them that differ have different members. -/
structure DistinctOrigins (l : List Origin) : Prop where
  nodes : (l.map (·.node)).Nodup
  sourceSets : ∀ o ∈ l, o.sourceSets ≠ [] ∧ o.sourceSets.Nodup ∧
    ∀ s ∈ o.sourceSets, s.Pairwise (· < ·)

namespace Graph

/-- The numbers of nodes are what 32 bits keep of their places, and an edge is known once at each of
its ends. -/
structure Mirrored (g : Graph) : Prop where
  node_id : ∀ n < g.nodes.size, (g.node n).id = Word.low32 n
  edge : ∀ src dst, dst ∈ (g.node src).outgoing ↔ src ∈ (g.node dst).incoming
  outgoing_nodup : ∀ n, (g.node n).outgoing.Nodup
  incoming_nodup : ∀ n, (g.node n).incoming.Nodup

/-- The numbers of variables and bindings are what 32 bits keep of their places, a binding is listed
once and with its own variable alone, and a variable has one binding for a value, which its index
has as well. -/
structure Indexed (g : Graph) : Prop where
  var_id : ∀ v < g.vars.size, (g.var v).id = Word.low32 v
  binding_id : ∀ b < g.bindings.size, (g.binding b).id = Word.low32 b
  var_lt : ∀ b < g.bindings.size, (g.binding b).var < g.vars.size
  listed_lt : ∀ v, ∀ b ∈ g.allBindings v, b < g.bindings.size
  listed : ∀ b < g.bindings.size, ∀ v,
    (g.allBindings v).count b = if (g.binding b).var = v then 1 else 0
  data_nodup : ∀ v, (g.allData v).Nodup
  found : ∀ v d b, g.bindingTo? v d = some b ↔ b ∈ g.allBindings v ∧ g.dataOf b = d

/-- All places where a fact about the graph is kept agree on it. -/
structure Coherent (g : Graph) : Prop where
  mirrored : g.Mirrored
  indexed : g.Indexed
  origins_ne_nil : ∀ b < g.bindings.size, (g.binding b).origins ≠ []
  origins : ∀ b < g.bindings.size, DistinctOrigins (g.binding b).origins
  assigned : ∀ n v, (g.node n).assigns v = true ↔
    ∃ b ∈ g.allBindings v, ((g.binding b).originAt? n).isSome

/-- There are no more nodes, variables and bindings than words of 32 bits. -/
structure Addressable (g : Graph) : Prop where
  nodes : g.nodes.size ≤ Word.bound32
  vars : g.vars.size ≤ Word.bound32
  bindings : g.bindings.size ≤ Word.bound32

/-- The numbers of nodes, variables and bindings are their places. -/
structure Numbered (g : Graph) : Prop where
  node : ∀ n < g.nodes.size, (g.node n).id = n
  var : ∀ v < g.vars.size, (g.var v).id = v
  binding : ∀ b < g.bindings.size, (g.binding b).id = b

variable {g g' g'' : Graph} {n k src dst : NodeId} {v w : VarId} {b : BindingId} {d : DataId}
  {name : String} {origins : List Origin} {s : SourceSet}

private theorem pairwise_insert (hs : s.Pairwise (· < ·)) (b : BindingId) :
    (s.insert b).Pairwise (· < ·) := by
  induction s with
  | nil => exact List.pairwise_singleton _ _
  | cons c s ih =>
    obtain ⟨hc, hs⟩ := List.pairwise_cons.mp hs
    rw [SourceSet.insert]
    split_ifs with hlt heq
    · refine List.pairwise_cons.mpr ⟨fun a ha => ?_, List.pairwise_cons.mpr ⟨hc, hs⟩⟩
      rcases List.mem_cons.mp ha with rfl | ha
      · exact hlt
      · exact Nat.lt_trans hlt (hc a ha)
    · exact List.pairwise_cons.mpr ⟨hc, hs⟩
    · refine List.pairwise_cons.mpr ⟨fun a ha => ?_, ih hs⟩
      rcases SourceSet.mem_insert.mp ha with rfl | ha
      · exact Nat.lt_of_le_of_ne (Nat.le_of_not_lt hlt) (Ne.symm heq)
      · exact hc a ha

theorem pairwise_ofList (sources : List BindingId) :
    (SourceSet.ofList sources).Pairwise (· < ·) := by
  have hfold (l : List BindingId) (s : SourceSet) (hs : s.Pairwise (· < ·)) :
      (l.foldl (fun s b => SourceSet.insert b s) s).Pairwise (· < ·) := by
    induction l generalizing s with
    | nil => exact hs
    | cons b l ih => exact ih _ (pairwise_insert hs b)
  exact hfold sources [] .nil

theorem addSources_ne_nil : addSources origins n s ≠ [] := by
  cases origins with
  | nil => exact List.cons_ne_nil _ _
  | cons o origins =>
    rw [addSources]
    by_cases ho : (o.node == n) = true
    · rw [if_pos ho]
      exact List.cons_ne_nil _ _
    · rw [if_neg ho]
      exact List.cons_ne_nil _ _

theorem mem_nodes_addSources {k : NodeId}
    (hk : k ∈ (addSources origins n s).map (·.node)) : k = n ∨ k ∈ origins.map (·.node) := by
  induction origins with
  | nil => exact .inl (List.mem_singleton.mp hk)
  | cons o origins ih =>
    rw [addSources] at hk
    by_cases ho : (o.node == n) = true
    · rw [if_pos ho] at hk
      exact .inr hk
    · rw [if_neg ho] at hk
      rcases List.mem_cons.mp hk with rfl | hk
      · exact .inr List.mem_cons_self
      · exact (ih hk).imp_right (List.mem_cons_of_mem _)

end Graph

theorem DistinctOrigins.nil : DistinctOrigins [] :=
  ⟨List.nodup_nil, fun _ ho => absurd ho List.not_mem_nil⟩

theorem DistinctOrigins.addSources {origins : List Origin} {s : SourceSet}
    (h : DistinctOrigins origins) (hs : s.Pairwise (· < ·)) (n : NodeId) :
    DistinctOrigins (Graph.addSources origins n s) := by
  induction origins with
  | nil =>
    refine ⟨List.nodup_singleton n, fun o ho => ?_⟩
    obtain rfl := List.mem_singleton.mp ho
    exact ⟨List.cons_ne_nil _ _, List.nodup_singleton s, fun t ht => List.mem_singleton.mp ht ▸ hs⟩
  | cons o origins ih =>
    obtain ⟨hnew, hnodes⟩ := List.nodup_cons.mp h.nodes
    obtain ⟨hne, hnodup, hsets⟩ := h.sourceSets o List.mem_cons_self
    have hrest := fun p hp => h.sourceSets p (List.mem_cons_of_mem o hp)
    rw [Graph.addSources]
    split_ifs with ho hc
    · exact h
    · refine ⟨h.nodes, fun p hp => ?_⟩
      rcases List.mem_cons.mp hp with rfl | hp
      · have hc : s ∉ o.sourceSets := by simpa using hc
        refine ⟨by simp, List.nodup_append.mpr ⟨hnodup, List.nodup_singleton s, ?_⟩, fun t ht => ?_⟩
        · rintro t ht _ hm rfl
          exact hc (List.mem_singleton.mp hm ▸ ht)
        · rcases List.mem_append.mp ht with ht | ht
          · exact hsets t ht
          · exact List.mem_singleton.mp ht ▸ hs
      · exact hrest p hp
    · obtain ⟨hih, hisets⟩ := ih ⟨hnodes, hrest⟩
      refine ⟨List.nodup_cons.mpr ⟨fun hmem => ?_, hih⟩, fun p hp => ?_⟩
      · rcases Graph.mem_nodes_addSources hmem with heq | hmem
        · exact ho (by simpa using heq)
        · exact hnew hmem
      · rcases List.mem_cons.mp hp with rfl | hp
        · exact ⟨hne, hnodup, hsets⟩
        · exact hisets p hp

namespace Graph

variable {g g' g'' : Graph} {n k src dst : NodeId} {v w : VarId} {b : BindingId} {d : DataId}
  {name : String}

namespace Mirrored

theorem congr (h : g.Mirrored) (hs : g'.nodes = g.nodes) : g'.Mirrored := by
  have hnode (n : NodeId) : g'.node n = g.node n := node_congr hs
  constructor
  · simpa only [hnode, hs] using h.node_id
  · simpa only [hnode] using h.edge
  · simpa only [hnode] using h.outgoing_nodup
  · simpa only [hnode] using h.incoming_nodup

/-- What is changed at a node are neither its number nor its edges. -/
theorem modify (h : g.Mirrored) {f : Node → Node} (hs : g'.nodes = g.nodes.modify n f)
    (hid : ∀ x, (f x).id = x.id) (hout : ∀ x, (f x).outgoing = x.outgoing)
    (hin : ∀ x, (f x).incoming = x.incoming) : g'.Mirrored := by
  have hnode {α : Type} (field : Node → α) (hf : ∀ x, field (f x) = field x) (k : NodeId) :
      field (g'.node k) = field (g.node k) := by
    rw [node_modify hs]
    split_ifs
    · exact hf _
    · rfl
  have hsize : g'.nodes.size = g.nodes.size := by simp [hs]
  constructor
  · simpa only [hnode Node.id hid, hsize] using h.node_id
  · simpa only [hnode Node.outgoing hout, hnode Node.incoming hin] using h.edge
  · simpa only [hnode Node.outgoing hout] using h.outgoing_nodup
  · simpa only [hnode Node.incoming hin] using h.incoming_nodup

theorem newNode (h : g.Mirrored) (hn : Graph.newNode name g = .ok n g') : g'.Mirrored := by
  obtain ⟨rfl, hnodes, -⟩ := newNode_ok hn
  have hdefault : g.node g.nodes.size = default := node_eq_default (Nat.le_refl _)
  -- The new node has the edges that were read where there was no node yet, none.
  have hout (k : NodeId) : (g'.node k).outgoing = (g.node k).outgoing := by
    rw [node_push hnodes]
    split_ifs with hk
    · rw [hk, hdefault]
      rfl
    · rfl
  have hin (k : NodeId) : (g'.node k).incoming = (g.node k).incoming := by
    rw [node_push hnodes]
    split_ifs with hk
    · rw [hk, hdefault]
      rfl
    · rfl
  refine ⟨fun k hk => ?_, ?_, ?_, ?_⟩
  · rw [node_push hnodes]
    split_ifs with heq
    · rw [heq]
    · rw [hnodes, Array.size_push] at hk
      exact h.node_id k (Nat.lt_of_le_of_ne (Nat.le_of_lt_succ hk) heq)
  · simpa only [hout, hin] using h.edge
  · simpa only [hout] using h.outgoing_nodup
  · simpa only [hin] using h.incoming_nodup

theorem connect (h : g.Mirrored) (hsrc : src < g.nodes.size) (hdst : dst < g.nodes.size)
    (hc : Graph.connect src dst g = .ok () g') : g'.Mirrored := by
  obtain ⟨-, -, hsize, hnode⟩ := connect_nodes hc
  by_cases hold : dst ∈ (g.node src).outgoing
  · have hsame (k : NodeId) : g'.node k = g.node k := by rw [hnode, if_pos hold]
    exact ⟨by simpa only [hsame, hsize] using h.node_id, by simpa only [hsame] using h.edge,
      by simpa only [hsame] using h.outgoing_nodup, by simpa only [hsame] using h.incoming_nodup⟩
  · have hold' : src ∉ (g.node dst).incoming := fun hin => hold ((h.edge src dst).mpr hin)
    have hout (k : NodeId) : (g'.node k).outgoing =
        if k = src then (g.node k).outgoing ++ [dst] else (g.node k).outgoing := by
      rw [hnode, if_neg hold]
      simp only [hsrc, and_true]
    have hin (k : NodeId) : (g'.node k).incoming =
        if k = dst then (g.node k).incoming ++ [src] else (g.node k).incoming := by
      rw [hnode, if_neg hold]
      simp only [hdst, and_true]
    have hadd {l : List NodeId} {a : NodeId} (hl : l.Nodup) (ha : a ∉ l) : (l ++ [a]).Nodup :=
      List.nodup_append.mpr ⟨hl, List.nodup_singleton a, fun x hx y hy hxy =>
        ha (List.mem_singleton.mp hy ▸ hxy ▸ hx)⟩
    refine ⟨fun k hk => ?_, fun a c => ?_, fun k => ?_, fun k => ?_⟩
    · rw [hnode, if_neg hold]
      exact h.node_id k (hsize ▸ hk)
    · have hedge := h.edge a c
      rw [hout, hin]
      split_ifs with ha hb hb
      · simp [ha, hb]
      · rw [List.mem_append, hedge]
        exact or_iff_left fun hm => hb (List.mem_singleton.mp hm)
      · rw [List.mem_append, hedge]
        exact (or_iff_left fun hm => ha (List.mem_singleton.mp hm)).symm
      · exact hedge
    · rw [hout]
      split_ifs with hk
      · exact hadd (h.outgoing_nodup k) (hk ▸ hold)
      · exact h.outgoing_nodup k
    · rw [hin]
      split_ifs with hk
      · exact hadd (h.incoming_nodup k) (hk ▸ hold')
      · exact h.incoming_nodup k

theorem setCondition (h : g.Mirrored) (n : NodeId) (c : Option BindingId) :
    (g.setCondition n c).Mirrored :=
  h.modify (n := n) (f := ({ · with condition := c })) rfl (fun _ => rfl) (fun _ => rfl)
    fun _ => rfl

theorem addOrigin (h : g.Mirrored) (b : BindingId) (sources : List BindingId) (n : NodeId) :
    (g.addOrigin b n sources).Mirrored :=
  h.modify (n := n) (f := fun k => { k with assigned := k.assigned.insert (g.binding b).var }) rfl
    (fun _ => rfl) (fun _ => rfl) fun _ => rfl

theorem addBinding (h : g.Mirrored) (v : VarId) (d : DataId) (sources : List BindingId)
    (n : NodeId) : (g.addBinding v d sources n).2.Mirrored := by
  unfold Graph.addBinding
  cases g.bindingTo? v d with
  | some b => exact h.addOrigin b sources n
  | none =>
    have hnew : (g.newBinding v d).2.Mirrored := h.congr rfl
    exact hnew.addOrigin _ sources n

end Mirrored

theorem Built.mirrored (h : g.Built) : g.Mirrored := by
  induction h with
  | empty limit =>
    have hnode (n : NodeId) : ({ limit } : Graph).node n = default := node_eq_default n.zero_le
    refine ⟨fun n hn => absurd hn n.not_lt_zero, fun src dst => ?_, fun n => ?_, fun n => ?_⟩
    · rw [hnode, hnode]
      exact ⟨fun h => absurd h List.not_mem_nil, fun h => absurd h List.not_mem_nil⟩
    · rw [hnode]
      exact List.nodup_nil
    · rw [hnode]
      exact List.nodup_nil
  | node name _ ih =>
    rcases newNode_after _ name with ⟨n, hn⟩ | hs
    · exact ih.newNode hn
    · exact ih.congr hs.nodes
  | edge _ hsrc hdst ih =>
    rcases connect_after _ _ _ with hc | hs
    · exact ih.connect hsrc hdst hc
    · exact ih.congr hs.nodes
  | condition n c _ ih => exact ih.setCondition n c
  | var name _ ih => exact ih.congr rfl
  | origin sources _ _ _ ih => exact ih.addOrigin _ sources _
  | binding d sources _ _ _ ih => exact ih.addBinding _ d sources _

private theorem var_modify {f : Variable → Variable} (h : g'.vars = g.vars.modify w f) :
    g'.var v = if v = w ∧ w < g.vars.size then f (g.var v) else g.var v := by
  unfold Graph.var
  rw [h, Array.getElem?_modify]
  by_cases hw : w = v
  · subst hw
    by_cases hlt : w < g.vars.size
    · simp [hlt]
    · simp [hlt]
  · simp [hw, Ne.symm hw]

private theorem var_newVariable (hv : v ≠ g.vars.size) :
    (g.newVariable name).2.var v = g.var v := by
  change (g.vars.push _)[v]?.getD default = _
  rw [Array.getElem?_push, if_neg hv]
  rfl

private theorem addBinding_var_id (d : DataId) (sources : List BindingId) (n : NodeId) :
    ((g.addBinding v d sources n).2.var w).id = (g.var w).id := by
  unfold addBinding
  cases g.bindingTo? v d with
  | some b => rfl
  | none =>
    have hvars : (g.newBinding v d).2.vars = g.vars.modify v fun k => { k with
      bindings := k.bindings ++ [g.bindings.size]
      byData := k.byData.insert d g.bindings.size } := rfl
    change ((g.newBinding v d).2.var w).id = _
    rw [var_modify hvars]
    split_ifs <;> rfl

namespace Indexed

/-- Variables keep their lists and bindings what they bind. -/
theorem of_same (h : g.Indexed) (hw : g'.WellFormed) (hvars : g.vars.size ≤ g'.vars.size)
    (hsize : g'.bindings.size = g.bindings.size)
    (hid : ∀ v < g'.vars.size, (g'.var v).id = Word.low32 v)
    (hlist : ∀ v, g'.allBindings v = g.allBindings v)
    (hbid : ∀ b, (g'.binding b).id = (g.binding b).id)
    (hvar : ∀ b, (g'.binding b).var = (g.binding b).var)
    (hdata : ∀ b, g'.dataOf b = g.dataOf b) : g'.Indexed := by
  have hall (v : VarId) : g'.allData v = g.allData v := by
    unfold allData
    rw [hlist]
    exact List.map_congr_left fun b _ => hdata b
  refine ⟨hid, fun b hb => ?_, fun b hb => ?_, fun v b hb => ?_, fun b hb v => ?_, fun v => ?_,
    hw.found⟩
  · rw [hbid]
    exact h.binding_id b (hsize ▸ hb)
  · rw [hvar]
    exact Nat.lt_of_lt_of_le (h.var_lt b (hsize ▸ hb)) hvars
  · rw [hsize]
    exact h.listed_lt v b (hlist v ▸ hb)
  · rw [hlist, hvar]
    exact h.listed b (hsize ▸ hb) v
  · rw [hall]
    exact h.data_nodup v

theorem congr (h : g.Indexed) (hw : g'.WellFormed) (hvars : g'.vars = g.vars)
    (hbindings : g'.bindings = g.bindings) : g'.Indexed := by
  have hvar (v : VarId) : g'.var v = g.var v := by
    unfold Graph.var
    rw [hvars]
  have hbinding (b : BindingId) : g'.binding b = g.binding b := binding_congr hbindings
  refine h.of_same hw (Nat.le_of_eq (by rw [hvars])) (by rw [hbindings]) (fun v hv => ?_)
    (fun v => ?_) (fun b => ?_) (fun b => ?_) fun b => ?_
  · rw [hvar]
    exact h.var_id v (hvars ▸ hv)
  · unfold allBindings
    rw [hvar]
  · rw [hbinding]
  · rw [hbinding]
  · unfold dataOf
    rw [hbinding]

theorem newVariable (h : g.Indexed) (hw : g.WellFormed) (name : String) :
    (g.newVariable name).2.Indexed := by
  refine h.of_same (hw.newVariable name) ?_ rfl (fun v hv => ?_) (allBindings_newVariable g name) (fun _ => rfl)
    (fun _ => rfl) fun _ => rfl
  · simp [Graph.newVariable]
  · rcases eq_or_ne v g.vars.size with rfl | hne
    · simp [Graph.newVariable, Graph.var]
    · rw [var_newVariable hne]
      simp only [Graph.newVariable, Array.size_push] at hv
      exact h.var_id v (Nat.lt_of_le_of_ne (Nat.le_of_lt_succ hv) hne)

theorem addOrigin (h : g.Indexed) (hw : g.WellFormed) (hb : b < g.bindings.size)
    (hn : n < g.nodes.size) (sources : List BindingId) : (g.addOrigin b n sources).Indexed := by
  have hkept {α : Type} (field : Binding → α)
      (hf : ∀ k l, field { k with origins := l } = field k) (a : BindingId) :
      field ((g.addOrigin b n sources).binding a) = field (g.binding a) := by
    rw [addOrigin_binding]
    split_ifs
    · exact hf _ _
    · rfl
  exact h.of_same (hw.addOrigin hb hn sources) (Nat.le_refl _) (by simp [Graph.addOrigin]) h.var_id
    (fun _ => rfl) (hkept Binding.id fun _ _ => rfl) (hkept Binding.var fun _ _ => rfl)
    (hkept Binding.data fun _ _ => rfl)

theorem addBinding (h : g.Indexed) (hw : g.WellFormed) (hv : v < g.vars.size)
    (hn : n < g.nodes.size) (d : DataId) (sources : List BindingId) :
    (g.addBinding v d sources n).2.Indexed := by
  have hfound := (hw.addBinding hv hn d sources).found
  cases hb : g.bindingTo? v d with
  | some b =>
    rw [addBinding_old sources n hb]
    exact h.addOrigin hw (hw.listed v b (hw.mem_of_bindingTo? hb)).1 hn sources
  | none =>
    obtain ⟨g', he, hsize, hvars, hnew, hold, hlist, -⟩ := addBinding_new d sources n hb
    rw [he] at hfound ⊢
    change g'.Indexed
    have hid (w : VarId) : (g'.var w).id = (g.var w).id := by
      have hid := addBinding_var_id (g := g) (v := v) (w := w) d sources n
      rwa [he] at hid
    have hfresh (w : VarId) : g.bindings.size ∉ g.allBindings w := fun hm =>
      Nat.lt_irrefl _ (h.listed_lt w _ hm)
    have hdata (w : VarId) : (g.allBindings w).map g'.dataOf = g.allData w :=
      List.map_congr_left fun b hb => by
        unfold dataOf
        rw [hold b (Nat.ne_of_lt (h.listed_lt w b hb))]
    have hnodup (w : VarId) : (g'.allData w).Nodup := by
      unfold allData
      rw [hlist]
      split_ifs with hlisted
      · rw [List.map_append, hdata]
        refine List.nodup_append.mpr ⟨h.data_nodup w, List.nodup_singleton _, ?_⟩
        -- The value is new to the variable, for no binding to it was found.
        rintro _ hmem _ hd rfl
        obtain ⟨a, ha, had⟩ := List.mem_map.mp hmem
        have hd : g.dataOf a = d := by
          rw [had, List.mem_singleton.mp hd]
          simp [dataOf, hnew]
        cases hb.symm.trans ((hw.found v d a).mpr ⟨hlisted.1 ▸ ha, hd⟩)
      · rw [hdata]
        exact h.data_nodup w
    refine ⟨fun w hw => ?_, fun b hb => ?_, fun b hb => ?_, fun w b hb => ?_, fun b hb w => ?_,
      hnodup, hfound⟩
    · rw [hid]
      exact h.var_id w (hvars ▸ hw)
    · rcases eq_or_ne b g.bindings.size with rfl | hne
      · rw [hnew]
      · rw [hold b hne]
        exact h.binding_id b (by omega)
    · rw [hvars]
      rcases eq_or_ne b g.bindings.size with rfl | hne
      · rw [hnew]
        exact hv
      · rw [hold b hne]
        exact h.var_lt b (by omega)
    · rw [hlist] at hb
      split_ifs at hb
      · rcases List.mem_append.mp hb with hb | hb
        · exact hsize ▸ Nat.lt_succ_of_lt (h.listed_lt w b hb)
        · exact hsize ▸ List.mem_singleton.mp hb ▸ Nat.lt_succ_self _
      · exact hsize ▸ Nat.lt_succ_of_lt (h.listed_lt w b hb)
    · rcases eq_or_ne b g.bindings.size with rfl | hne
      · have hzero := List.count_eq_zero.mpr (hfresh w)
        rw [hlist, hnew]
        by_cases hw : w = v
        · subst hw
          simp [hv, hzero]
        · simp [hw, Ne.symm hw, hzero]
      · have hone := h.listed b (by omega) w
        rw [hold b hne, ← hone, hlist]
        split_ifs
        · simp [List.count_append, Ne.symm hne]
        · rfl

end Indexed

theorem Built.indexed (h : g.Built) : g.Indexed := by
  induction h with
  | empty limit =>
    have hlist (v : VarId) : ({ limit } : Graph).allBindings v = [] :=
      allBindings_eq_nil v.zero_le
    have hdata (v : VarId) : (({ limit } : Graph).allData v).Nodup := by
      unfold allData
      rw [hlist]
      exact List.nodup_nil
    exact ⟨fun v hv => absurd hv v.not_lt_zero, fun b hb => absurd hb b.not_lt_zero,
      fun b hb => absurd hb b.not_lt_zero, fun v b hb => absurd (hlist v ▸ hb) List.not_mem_nil,
      fun b hb => absurd hb b.not_lt_zero, hdata, (Built.empty limit).wellFormed.found⟩
  | node name hg ih =>
    have hw := (hg.node name).wellFormed
    rcases newNode_after _ name with ⟨n, hn⟩ | hs
    · obtain ⟨-, -, hl⟩ := newNode_ok hn
      exact ih.congr hw hl.vars hl.bindings
    · exact ih.congr hw hs.vars hs.bindings
  | edge hg hsrc hdst ih =>
    have hw := (hg.edge hsrc hdst).wellFormed
    rcases connect_after _ _ _ with hc | hs
    · obtain ⟨hl, -⟩ := connect_ok hc
      exact ih.congr hw hl.vars hl.bindings
    · exact ih.congr hw hs.vars hs.bindings
  | condition n c hg ih => exact ih.congr (hg.condition n c).wellFormed rfl rfl
  | var name hg ih => exact ih.newVariable hg.wellFormed name
  | origin sources hg hb hn ih => exact ih.addOrigin hg.wellFormed hb hn sources
  | binding d sources hg hv hn ih => exact ih.addBinding hg.wellFormed hv hn d sources

/-- Every binding has an origin, no two at a node, and a node assigns a variable that one of its
bindings has an origin at. -/
private structure Founded (g : Graph) : Prop where
  ne_nil : ∀ b < g.bindings.size, (g.binding b).origins ≠ []
  distinct : ∀ b < g.bindings.size, DistinctOrigins (g.binding b).origins
  assigned : ∀ b n, ((g.binding b).originAt? n).isSome →
    (g.node n).assigns (g.binding b).var = true

namespace Founded

private theorem congr (h : g.Founded) (hbindings : g'.bindings = g.bindings)
    (hassigns : ∀ n v, (g'.node n).assigns v = (g.node n).assigns v) : g'.Founded := by
  have hbinding (b : BindingId) : g'.binding b = g.binding b := binding_congr hbindings
  constructor
  · simpa only [hbinding, hbindings] using h.ne_nil
  · simpa only [hbinding, hbindings] using h.distinct
  · simpa only [hbinding, hassigns] using h.assigned

private theorem addOrigin (h : g.Founded) (hn : n < g.nodes.size) (b : BindingId)
    (sources : List BindingId) : (g.addOrigin b n sources).Founded := by
  have hsize : (g.addOrigin b n sources).bindings.size = g.bindings.size := by
    simp [Graph.addOrigin]
  have hadded := addOrigin_addedAt (g := g) b n sources
  refine ⟨fun a ha => ?_, fun a ha => ?_, fun a k ho => ?_⟩
  · rw [addOrigin_binding]
    split_ifs
    · exact addSources_ne_nil
    · exact h.ne_nil a (hsize ▸ ha)
  · rw [addOrigin_binding]
    split_ifs
    · exact (h.distinct a (hsize ▸ ha)).addSources (pairwise_ofList sources) n
    · exact h.distinct a (hsize ▸ ha)
  · rw [addOrigin_binding_var, addOrigin_assigns]
    by_cases hab : a = b ∧ k = n
    · exact .inr ⟨hab.2, hn, by rw [hab.1]⟩
    · refine .inl (h.assigned a k ?_)
      rw [addOrigin_binding] at ho
      split_ifs at ho with ha
      · rwa [originAt?_addSources fun hk => hab ⟨ha.1, hk⟩] at ho
      · exact ho

private theorem addBinding (h : g.Founded) (hn : n < g.nodes.size) (v : VarId) (d : DataId)
    (sources : List BindingId) : (g.addBinding v d sources n).2.Founded := by
  cases hb : g.bindingTo? v d with
  | some b =>
    rw [addBinding_old sources n hb]
    exact h.addOrigin hn b sources
  | none =>
    obtain ⟨g', he, hsize, -, hnew, hold, -, hassigns⟩ := addBinding_new d sources n hb
    rw [he]
    change g'.Founded
    refine ⟨fun a ha => ?_, fun a ha => ?_, fun a k ho => ?_⟩
    · rcases eq_or_ne a g.bindings.size with rfl | hne
      · rw [hnew]
        exact List.cons_ne_nil _ _
      · rw [hold a hne]
        exact h.ne_nil a (by omega)
    · rcases eq_or_ne a g.bindings.size with rfl | hne
      · rw [hnew]
        exact DistinctOrigins.nil.addSources (pairwise_ofList sources) n
      · rw [hold a hne]
        exact h.distinct a (by omega)
    · rw [hassigns]
      rcases eq_or_ne a g.bindings.size with rfl | hne
      · rw [hnew] at ho ⊢
        obtain rfl : n = k := by simpa [Binding.originAt?] using ho
        exact .inr ⟨rfl, hn, rfl⟩
      · rw [hold a hne] at ho ⊢
        exact .inl (h.assigned a k ho)

end Founded

private theorem Built.founded (h : g.Built) : g.Founded := by
  induction h with
  | empty limit =>
    have hbinding (b : BindingId) : ({ limit } : Graph).binding b = default := by
      simp [Graph.binding]
    refine ⟨fun b hb => absurd hb b.not_lt_zero, fun b hb => absurd hb b.not_lt_zero,
      fun b n ho => ?_⟩
    rw [hbinding] at ho
    exact absurd ho Bool.false_ne_true
  | node name _ ih =>
    rcases newNode_after _ name with ⟨n, hn⟩ | hs
    · obtain ⟨-, -, hl⟩ := newNode_ok hn
      exact ih.congr hl.bindings fun _ _ => hl.assigns
    · exact ih.congr hs.bindings fun _ _ => by rw [node_congr hs.nodes]
  | edge _ _ _ ih =>
    rcases connect_after _ _ _ with hc | hs
    · obtain ⟨hl, -⟩ := connect_ok hc
      exact ih.congr hl.bindings fun _ _ => hl.assigns
    · exact ih.congr hs.bindings fun _ _ => by rw [node_congr hs.nodes]
  | condition n c _ ih =>
    exact ih.congr rfl fun _ _ => (setCondition_linked c).assigns
  | var name _ ih => exact ih.congr rfl fun _ _ => rfl
  | origin sources _ _ hn ih => exact ih.addOrigin hn _ sources
  | binding d sources _ _ hn ih => exact ih.addBinding hn _ d sources

theorem Built.coherent (h : g.Built) : g.Coherent := by
  have hi := h.indexed
  have hf := h.founded
  refine ⟨h.mirrored, hi, hf.ne_nil, hf.distinct, fun n v => ⟨fun ha => ?_, ?_⟩⟩
  · obtain ⟨b, hb, hv, ho⟩ := h.wellFormed.assigned n v ha
    have hone : (g.allBindings v).count b = 1 := (hi.listed b hb v).trans (if_pos hv)
    exact ⟨b, List.count_pos_iff.mp (hone ▸ Nat.one_pos), ho⟩
  · rintro ⟨b, hb, ho⟩
    rw [← (h.wellFormed.listed v b hb).2]
    exact hf.assigned b n ho

/-- As long as there are enough numbers, every place has its own. -/
theorem Coherent.numbered (h : g.Coherent) (hfit : g.Addressable) : g.Numbered where
  node n hn := (h.mirrored.node_id n hn).trans (Nat.mod_eq_of_lt (hn.trans_le hfit.nodes))
  var v hv := (h.indexed.var_id v hv).trans (Nat.mod_eq_of_lt (hv.trans_le hfit.vars))
  binding b hb := (h.indexed.binding_id b hb).trans (Nat.mod_eq_of_lt (hb.trans_le hfit.bindings))

end Graph

end ValueTrace
