import ValueTrace.Proofs.Graph.WellFormed

/-! What is done to a graph where a query does not look: at nodes that do not lead to the one where
it is asked, at new nodes, and to variables that nothing else depends on. None of it changes the
answer. -/
namespace ValueTrace.Graph

/-- Nodes have been added, and of one node the edges into it and its condition may have changed. -/
structure LinkedAt (n : NodeId) (g g' : Graph) : Prop where
  linked : g.Linked g'
  incoming : ∀ k, k ≠ n → (g'.node k).incoming = (g.node k).incoming
  condition : ∀ k, k ≠ n → (g'.node k).condition = (g.node k).condition

/-- No binding of the variable is asked for, justifies a binding of another variable, or is the
condition of a node. -/
structure Detached (g : Graph) (v : VarId) (goals : List BindingId) : Prop where
  goal : ∀ b ∈ goals, (g.binding b).var ≠ v
  source : ∀ b < g.bindings.size, (g.binding b).var ≠ v → ∀ o ∈ (g.binding b).origins,
    ∀ s ∈ o.sourceSets, ∀ c ∈ s, (g.binding c).var ≠ v
  condition : ∀ n < g.nodes.size, ∀ c ∈ (g.node n).condition.toList, (g.binding c).var ≠ v

/-- An operation where a query at the node does not look. Operations that have a price may fail. -/
inductive Elsewhere (m : NodeId) (goals : List BindingId) (g : Graph) : Graph → Prop
  | binding {n} (v : VarId) (d : DataId) (sources : List BindingId) : ¬ g.Leads n m →
      Elsewhere m goals g (g.addBinding v d sources n).2
  | origin {n} (b : BindingId) (sources : List BindingId) : ¬ g.Leads n m →
      Elsewhere m goals g (g.addOrigin b n sources)
  | edge {n} (src : NodeId) : ¬ g.Leads n m → Elsewhere m goals g ((connect src n).after g)
  | condition {n} (c : Option BindingId) : ¬ g.Leads n m →
      Elsewhere m goals g (g.setCondition n c)
  | node (name : String) : Elsewhere m goals g ((newNode name).after g)
  | nodeBehind (src : NodeId) (name : String) (c : Option BindingId) :
      Elsewhere m goals g ((connectNew src name c).after g)
  | detached {v} (d : DataId) (sources : List BindingId) (n : NodeId) : g.Detached v goals →
      Elsewhere m goals g (g.addBinding v d sources n).2

variable {g g' g'' : Graph} {n m src : NodeId} {v : VarId} {d : DataId} {goals : List BindingId}
  {name : String}

theorem Leads.lt (hw : g.WellFormed) (hm : m < g.nodes.size) (h : g.Leads n m) :
    n < g.nodes.size := by
  induction h using Relation.ReflTransGen.head_induction_on with
  | refl => exact hm
  | head hp _ _ => exact hw.incoming _ _ hp

/-- Only a node itself leads to it if it has no edges. -/
theorem Leads.eq_of_start (hm : (g.node m).incoming = []) (h : g.Leads n m) : n = m := by
  rcases Relation.ReflTransGen.cases_tail h with rfl | ⟨k, -, hk⟩
  · rfl
  · rw [hm] at hk
    cases hk

namespace LinkedAt

theorem trans (h : LinkedAt n g g') (h' : LinkedAt n g' g'') : LinkedAt n g g'' where
  linked := h.linked.trans h'.linked
  incoming k hk := (h'.incoming k hk).trans (h.incoming k hk)
  condition k hk := (h'.condition k hk).trans (h.condition k hk)

theorem of_sameContent (n : NodeId) (h : g.SameContent g') : LinkedAt n g g' := by
  have hnode (k : NodeId) : g'.node k = g.node k := node_congr h.nodes
  refine ⟨⟨h.vars, h.bindings, fun k => ?_, ?_⟩, fun k _ => ?_, fun k _ => ?_⟩
  · rw [hnode]
  · rw [h.nodes]
  · rw [hnode]
  · rw [hnode]

theorem connect (g : Graph) (src n : NodeId) : LinkedAt n g ((Graph.connect src n).after g) := by
  rcases connect_after g src n with hc | hs
  · obtain ⟨hl, -, hcondition, hincoming⟩ := connect_ok hc
    refine ⟨hl, fun k hk => ?_, fun k _ => hcondition k⟩
    rw [hincoming, if_neg fun h => hk h.1]
  · exact of_sameContent n hs

theorem setCondition (g : Graph) (n : NodeId) (c : Option BindingId) :
    LinkedAt n g (g.setCondition n c) := by
  have hnodes : (g.setCondition n c).nodes = g.nodes.modify n ({ · with condition := c }) := rfl
  have hold (k : NodeId) (hk : k ≠ n) : (g.setCondition n c).node k = g.node k := by
    rw [node_modify hnodes, if_neg fun h => hk h.1]
  refine ⟨setCondition_linked c, fun k hk => ?_, fun k hk => ?_⟩
  · rw [hold k hk]
  · rw [hold k hk]

theorem newNode (g : Graph) (name : String) :
    LinkedAt g.nodes.size g ((Graph.newNode name).after g) := by
  rcases newNode_after g name with ⟨n, hn⟩ | hs
  · obtain ⟨-, hnodes, hl⟩ := newNode_ok hn
    have hold (k : NodeId) (hk : k ≠ g.nodes.size) :
        ((Graph.newNode name).after g).node k = g.node k := by
      rw [node_push hnodes, if_neg hk]
    refine ⟨hl, fun k hk => ?_, fun k hk => ?_⟩
    · rw [hold k hk]
    · rw [hold k hk]
  · exact of_sameContent _ hs

theorem connectNew (g : Graph) (src : NodeId) (name : String) (c : Option BindingId) :
    LinkedAt g.nodes.size g ((Graph.connectNew src name c).after g) := by
  have hnode := newNode g name
  unfold Graph.connectNew
  cases hn : Graph.newNode name g with
  | error e g₁ =>
    rw [Growth.after_error hn] at hnode
    rwa [Growth.after_bind_error hn]
  | ok n g₁ =>
    rw [Growth.after_ok hn] at hnode
    obtain ⟨rfl, -⟩ := newNode_ok hn
    have hedge := (hnode.trans (setCondition g₁ g.nodes.size c)).trans
      (connect (g₁.setCondition g.nodes.size c) src g.nodes.size)
    rw [Growth.after_bind_ok hn, Growth.after_bind_ok (modify_ok.mpr rfl)]
    cases hc : Graph.connect src g.nodes.size (g₁.setCondition g.nodes.size c) with
    | error e g₂ =>
      rw [Growth.after_error hc] at hedge
      rwa [Growth.after_bind_error hc]
    | ok _ g₂ =>
      rw [Growth.after_ok hc] at hedge
      rwa [Growth.after_bind_ok hc]

theorem agreeOn (h : LinkedAt n g g') (hm : ¬ g.Leads n m) :
    g.AgreeOn g' {k | g.Leads k m} Set.univ where
  closed k hk p hp := .head hp hk
  incoming k hk := h.incoming k fun he => hm (he ▸ hk)
  condition k hk := h.condition k fun he => hm (he ▸ hk)
  origin b _ k _ := by rw [h.linked.binding]
  var b _ _ := by rw [h.linked.binding]
  assigns _ _ _ _ _ := h.linked.assigns
  condition_mem _ _ _ _ := trivial
  source_mem _ _ _ _ _ _ _ _ _ _ := trivial

theorem canCombine_eq (h : LinkedAt n g g') (hm : ¬ g.Leads n m) (goals : List BindingId) :
    g'.canCombine goals m = g.canCombine goals m := by
  rw [Bool.eq_iff_iff, canCombine_iff, canCombine_iff]
  exact (h.agreeOn hm).canHold_iff .refl (Set.subset_univ _)

end LinkedAt

/-- What is asked for, and what that leads to, are bindings of other variables. -/
theorem Detached.agreeOn (h : g.Detached v goals) (hw : g.WellFormed) (hc : g.Closed) (d : DataId)
    (sources : List BindingId) (n : NodeId) : g.AgreeOn (g.addBinding v d sources n).2 Set.univ
      {b | b < g.bindings.size ∧ (g.binding b).var ≠ v} := by
  have hbound := addBinding_bound (g := g) v d sources n
  have hassigns := (addBinding_assigns (hw.lists v) d sources n).2
  refine ⟨fun _ _ _ _ => trivial, fun k _ => hbound.incoming k, fun k _ => hbound.condition k,
    fun b hb k _ => ?_, fun b hb _ => ?_, fun b hb _ k _ => ?_, fun k _ c hk => ?_,
    fun b hb k _ o ho s hs c hcs => ?_⟩
  · rw [addBinding_kept hw hb.1 hb.2]
  · rw [addBinding_kept hw hb.1 hb.2]
  · rw [Bool.eq_iff_iff, hassigns]
    exact or_iff_left fun he => hb.2 he.2.2
  · refine ⟨hc.condition hk, h.condition k ?_ c (Option.mem_toList.mpr hk)⟩
    by_contra hout
    rw [node_eq_default (Nat.le_of_not_lt hout)] at hk
    cases hk
  · exact ⟨hc.source ho hs hcs, h.source b hb.1 hb.2 o (List.mem_of_find?_eq_some ho) s hs c hcs⟩

namespace Elsewhere

/-- All operations but one kind change a single node that does not lead to the query. -/
theorem changes (h : Elsewhere m goals g g') (hw : g.WellFormed) (hm : m < g.nodes.size) :
    (∃ n, ¬ g.Leads n m ∧ (AddedAt n g g' ∨ LinkedAt n g g')) ∨
      ∃ v d sources n, g.Detached v goals ∧ g' = (g.addBinding v d sources n).2 := by
  have hnew : ¬ g.Leads g.nodes.size m := fun h => Nat.lt_irrefl _ (h.lt hw hm)
  cases h with
  | binding v d sources hn => exact .inl ⟨_, hn, .inl (addBinding_addedAt v d sources _)⟩
  | origin b sources hn => exact .inl ⟨_, hn, .inl (addOrigin_addedAt b _ sources)⟩
  | edge src hn => exact .inl ⟨_, hn, .inr (.connect g src _)⟩
  | condition c hn => exact .inl ⟨_, hn, .inr (.setCondition g _ c)⟩
  | node name => exact .inl ⟨_, hnew, .inr (.newNode g name)⟩
  | nodeBehind src name c => exact .inl ⟨_, hnew, .inr (.connectNew g src name c)⟩
  | detached d sources n hv => exact .inr ⟨_, d, sources, n, hv, rfl⟩

theorem canCombine_eq (h : Elsewhere m goals g g') (hw : g.WellFormed) (hc : g.Closed)
    (hm : m < g.nodes.size) (hgoals : ∀ b ∈ goals, b < g.bindings.size) :
    g'.canCombine goals m = g.canCombine goals m := by
  rcases h.changes hw hm with ⟨n, hn, hadded | hlinked⟩ | ⟨v, d, sources, n, hv, rfl⟩
  · exact hadded.canCombine_eq hn goals
  · exact hlinked.canCombine_eq hn goals
  · rw [Bool.eq_iff_iff, canCombine_iff, canCombine_iff]
    exact (hv.agreeOn hw hc d sources n).canHold_iff trivial fun b hb =>
      ⟨hgoals b hb, hv.goal b hb⟩

theorem size_le (h : Elsewhere m goals g g') (hw : g.WellFormed) (hm : m < g.nodes.size) :
    g.nodes.size ≤ g'.nodes.size ∧ g.bindings.size ≤ g'.bindings.size := by
  have hadd {n : NodeId} (ha : AddedAt n g g') :
      g.nodes.size ≤ g'.nodes.size ∧ g.bindings.size ≤ g'.bindings.size :=
    ⟨Nat.le_of_eq ha.bound.size_eq.symm, ha.size_le⟩
  rcases h.changes hw hm with ⟨n, -, hadded | hlinked⟩ | ⟨v, d, sources, n, -, rfl⟩
  · exact hadd hadded
  · exact ⟨hlinked.linked.size_le, Nat.le_of_eq (congrArg _ hlinked.linked.bindings.symm)⟩
  · exact hadd (addBinding_addedAt v d sources n)

end Elsewhere

/-- Queries are local: whatever is done elsewhere, one operation after another, the answer at the
node stays the same. -/
theorem canCombine_elsewhere (hm : m < g.nodes.size) (hgoals : ∀ b ∈ goals, b < g.bindings.size)
    (h : Relation.ReflTransGen
      (fun g g' => g.Built ∧ g.Closed ∧ Elsewhere m goals g g') g g') :
    g'.canCombine goals m = g.canCombine goals m := by
  induction h using Relation.ReflTransGen.head_induction_on with
  | refl => rfl
  | head hstep _ ih =>
    obtain ⟨hb, hc, hop⟩ := hstep
    obtain ⟨hnodes, hbindings⟩ := hop.size_le hb.wellFormed hm
    rw [ih (Nat.lt_of_lt_of_le hm hnodes) fun b hb => Nat.lt_of_lt_of_le (hgoals b hb) hbindings]
    exact hop.canCombine_eq hb.wellFormed hc hm hgoals

def line : Graph :=
  let g := (connectNew 0 "a" none).after ((newNode "a").after {})
  let g := ((g.newVariable "x").2.newVariable "y").2
  ((g.addBinding 0 (.value 1) [] 0).2.addBinding 1 (.value 2) [] 0).2

def rebound : Graph := (line.addBinding 0 (.value 2) [] 1).2

def looped : Graph := (connect 1 1).after rebound

def widened : Graph := (looped.addBinding 1 (.value 3) [0] 0).2

private theorem line_built : line.Built := by
  have hnodes := ((Built.empty none).node "a").connectNew (show 0 < _ by decide) "a" none
  have hx := ((hnodes.var "x").var "y").binding (.value 1) [] (v := 0) (n := 0) (by decide)
    (by decide)
  exact hx.binding (.value 2) [] (by decide) (by decide)

/-- What `x` is at the first node can be seen there as before. -/
theorem widened_canCombine : 0 < line.nodes.size ∧ (∀ b ∈ [0], b < line.bindings.size) ∧
    Relation.ReflTransGen (fun g g' => g.Built ∧ g.Closed ∧ Elsewhere 0 [0] g g') line widened ∧
    widened.canCombine [0] 0 = line.canCombine [0] 0 ∧ line.canCombine [0] 0 = true := by
  have hrebound : rebound.Built := line_built.binding (.value 2) [] (by decide) (by decide)
  have hlooped : looped.Built := hrebound.edge (by decide) (by decide)
  have hnode : ∀ b ∈ [0], b < line.bindings.size := by decide
  have hbind : Elsewhere 0 [0] line rebound :=
    .binding 0 (.value 2) [] fun h => absurd (h.eq_of_start rfl) Nat.one_ne_zero
  have hedge : Elsewhere 0 [0] rebound looped :=
    .edge 1 fun h => absurd (h.eq_of_start rfl) Nat.one_ne_zero
  have hdetached : Elsewhere 0 [0] looped widened :=
    .detached (.value 3) [0] 0 ⟨by decide, by decide, by decide⟩
  have hsteps : Relation.ReflTransGen
      (fun g g' => g.Built ∧ g.Closed ∧ Elsewhere 0 [0] g g') line widened :=
    .head ⟨line_built, ⟨by decide, by decide⟩, hbind⟩
      (.head ⟨hrebound, ⟨by decide, by decide⟩, hedge⟩
        (.single ⟨hlooped, ⟨by decide, by decide⟩, hdetached⟩))
  exact ⟨by decide, hnode, hsteps, canCombine_elsewhere (by decide) hnode hsteps,
    by decide +kernel⟩

end ValueTrace.Graph
