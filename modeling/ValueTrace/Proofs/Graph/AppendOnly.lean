import ValueTrace.Proofs.Graph.Coherence

/-! Growth takes nothing away. Whatever operations have been done to a graph, and whether they have
succeeded or failed, its copies of a fact agree, and what an operation adds comes behind what was
there. -/
namespace ValueTrace

/-- The origins are there in their old order, each with at least the sets it had. -/
def OriginsExtend (l l' : List Origin) : Prop :=
  ∀ (i : Nat) (o : Origin), l[i]? = some o →
    ∃ o', l'[i]? = some o' ∧ o'.node = o.node ∧ o.sourceSets <+: o'.sourceSets

namespace OriginsExtend

variable {l l' l'' : List Origin}

theorem refl (l : List Origin) : OriginsExtend l l :=
  fun _ o ho => ⟨o, ho, rfl, List.prefix_rfl⟩

theorem trans (h : OriginsExtend l l') (h' : OriginsExtend l' l'') : OriginsExtend l l'' := by
  intro i o ho
  obtain ⟨o', ho', hnode, hsets⟩ := h i o ho
  obtain ⟨o'', ho'', hnode', hsets'⟩ := h' i o' ho'
  exact ⟨o'', ho'', hnode'.trans hnode, hsets.trans hsets'⟩

theorem addSources (l : List Origin) (n : NodeId) (s : SourceSet) :
    OriginsExtend l (Graph.addSources l n s) := by
  induction l with
  | nil => exact fun i o ho => by simp at ho
  | cons p l ih =>
    intro i o ho
    rw [Graph.addSources]
    cases i with
    | zero =>
      obtain rfl : p = o := by simpa using ho
      split_ifs
      · exact ⟨p, rfl, rfl, List.prefix_rfl⟩
      · exact ⟨_, rfl, rfl, List.prefix_append _ _⟩
      · exact ⟨p, rfl, rfl, List.prefix_rfl⟩
    | succ i =>
      have ho : l[i]? = some o := by simpa using ho
      split_ifs
      · exact ⟨o, ho, rfl, List.prefix_rfl⟩
      · exact ⟨o, ho, rfl, List.prefix_rfl⟩
      · exact ih i o ho

end OriginsExtend

namespace Graph

/-- Nothing has been taken away from the graph, and what has been added comes last. -/
structure Grows (g g' : Graph) : Prop where
  nodes_le : g.nodes.size ≤ g'.nodes.size
  vars_le : g.vars.size ≤ g'.vars.size
  bindings_le : g.bindings.size ≤ g'.bindings.size
  outgoing : ∀ n, (g.node n).outgoing <+: (g'.node n).outgoing
  incoming : ∀ n, (g.node n).incoming <+: (g'.node n).incoming
  listed : ∀ v, g.allBindings v <+: g'.allBindings v
  origins : ∀ b < g.bindings.size, OriginsExtend (g.binding b).origins (g'.binding b).origins
  var : ∀ b < g.bindings.size, (g'.binding b).var = (g.binding b).var
  data : ∀ b < g.bindings.size, g'.dataOf b = g.dataOf b

/-- What can be done to a graph from outside. -/
inductive Operation where
  | node (name : String)
  | edge (src dst : NodeId)
  | connectNew (src : NodeId) (name : String) (condition : Option BindingId)
  | condition (n : NodeId) (condition : Option BindingId)
  | var (name : String)
  | binding (v : VarId) (d : DataId) (sources : List BindingId) (n : NodeId)
  | origin (b : BindingId) (sources : List BindingId) (n : NodeId)
  | paste (dst src : VarId) (n : NodeId)
  | merge (n : NodeId) (name : String) (vs : List VarId)

namespace Operation

/-- What the operation is done to exists. Sources and conditions are only noted, so they need not
be there. -/
def Fits (g : Graph) : Operation → Prop
  | node _ => True
  | edge src dst => src < g.nodes.size ∧ dst < g.nodes.size
  | connectNew src _ _ => src < g.nodes.size
  | condition n _ => n < g.nodes.size
  | var _ => True
  | binding v _ _ n => v < g.vars.size ∧ n < g.nodes.size
  | origin b _ n => b < g.bindings.size ∧ n < g.nodes.size
  | paste dst src n => dst < g.vars.size ∧ src < g.vars.size ∧ n < g.nodes.size
  | merge n _ vs => n < g.nodes.size ∧ ∀ v ∈ vs, v < g.vars.size

/-- The graph that the operation leaves, also where it fails. -/
def after (g : Graph) : Operation → Graph
  | node name => (newNode name).after g
  | edge src dst => (connect src dst).after g
  | connectNew src name c => (Graph.connectNew src name c).after g
  | condition n c => g.setCondition n c
  | var name => (g.newVariable name).2
  | binding v d sources n => (g.addBinding v d sources n).2
  | origin b sources n => g.addOrigin b n sources
  | paste dst src n => g.pasteVariable dst src n
  | merge n name vs => (g.mergeVariables n name vs).2

end Operation

/-- The graphs that operations make out of an empty one. -/
inductive Reached : Graph → Prop
  | empty (limit : Option Nat) : Reached { limit }
  | step {g} (op : Operation) : Reached g → op.Fits g → Reached (op.after g)

variable {g g' g'' : Graph} {n src dst : NodeId} {name : String}

namespace Grows

theorem refl (g : Graph) : g.Grows g where
  nodes_le := Nat.le_refl _
  vars_le := Nat.le_refl _
  bindings_le := Nat.le_refl _
  outgoing _ := List.prefix_rfl
  incoming _ := List.prefix_rfl
  listed _ := List.prefix_rfl
  origins _ _ := .refl _
  var _ _ := rfl
  data _ _ := rfl

theorem trans (h : g.Grows g') (h' : g'.Grows g'') : g.Grows g'' where
  nodes_le := Nat.le_trans h.nodes_le h'.nodes_le
  vars_le := Nat.le_trans h.vars_le h'.vars_le
  bindings_le := Nat.le_trans h.bindings_le h'.bindings_le
  outgoing n := (h.outgoing n).trans (h'.outgoing n)
  incoming n := (h.incoming n).trans (h'.incoming n)
  listed v := (h.listed v).trans (h'.listed v)
  origins b hb := (h.origins b hb).trans (h'.origins b (Nat.lt_of_lt_of_le hb h.bindings_le))
  var b hb := (h'.var b (Nat.lt_of_lt_of_le hb h.bindings_le)).trans (h.var b hb)
  data b hb := (h'.data b (Nat.lt_of_lt_of_le hb h.bindings_le)).trans (h.data b hb)

/-- Nodes and edges have been added. -/
private theorem of_linked (h : g.Linked g')
    (hout : ∀ n, (g.node n).outgoing <+: (g'.node n).outgoing)
    (hin : ∀ n, (g.node n).incoming <+: (g'.node n).incoming) : g.Grows g' where
  nodes_le := h.size_le
  vars_le := Nat.le_of_eq (by rw [h.vars])
  bindings_le := Nat.le_of_eq (by rw [h.bindings])
  outgoing := hout
  incoming := hin
  listed v := by
    unfold allBindings Graph.var
    rw [h.vars]
  origins b _ := by
    rw [h.binding]
    exact .refl _
  var b _ := by rw [h.binding]
  data b _ := by
    unfold dataOf
    rw [h.binding]

/-- Variables and bindings have been added. -/
private theorem of_addedAt (h : AddedAt n g g') (hvars : g.vars.size ≤ g'.vars.size)
    (horigins : ∀ b < g.bindings.size,
      OriginsExtend (g.binding b).origins (g'.binding b).origins) : g.Grows g' where
  nodes_le := Nat.le_of_eq h.bound.size_eq.symm
  vars_le := hvars
  bindings_le := h.size_le
  outgoing k := h.bound.outgoing k ▸ List.prefix_rfl
  incoming k := h.bound.incoming k ▸ List.prefix_rfl
  listed v := by
    obtain ⟨l, hl, -⟩ := h.listed v
    rw [hl]
    exact List.prefix_append _ _
  origins := horigins
  var := h.var
  data := h.data

theorem of_sameContent (h : g.SameContent g') : g.Grows g' := by
  have hnode (n : NodeId) : g'.node n = g.node n := node_congr h.nodes
  refine of_linked ⟨h.vars, h.bindings, fun n => ?_, ?_⟩ (fun n => ?_) fun n => ?_
  · rw [hnode]
  · rw [h.nodes]
  · rw [hnode]
  · rw [hnode]

theorem newNode (h : Graph.newNode name g = .ok n g') : g.Grows g' := by
  obtain ⟨-, hnodes, hl⟩ := newNode_ok h
  have hdefault : g.node g.nodes.size = default := node_eq_default (Nat.le_refl _)
  refine of_linked hl (fun k => ?_) fun k => ?_
  · rw [node_push hnodes]
    split_ifs with hk
    · rw [hk, hdefault]
      exact List.nil_prefix
    · exact List.prefix_rfl
  · rw [node_push hnodes]
    split_ifs with hk
    · rw [hk, hdefault]
      exact List.nil_prefix
    · exact List.prefix_rfl

theorem connect (h : Graph.connect src dst g = .ok () g') : g.Grows g' := by
  obtain ⟨hl, -⟩ := connect_ok h
  obtain ⟨-, -, -, hnode⟩ := connect_nodes h
  refine of_linked hl (fun k => ?_) fun k => ?_
  · rw [hnode]
    split_ifs
    all_goals first | exact List.prefix_rfl | exact List.prefix_append _ _
  · rw [hnode]
    split_ifs
    all_goals first | exact List.prefix_rfl | exact List.prefix_append _ _

theorem newNode_after (g : Graph) (name : String) : g.Grows ((Graph.newNode name).after g) := by
  rcases Graph.newNode_after g name with ⟨n, hn⟩ | hs
  · exact newNode hn
  · exact of_sameContent hs

theorem connect_after (g : Graph) (src dst : NodeId) :
    g.Grows ((Graph.connect src dst).after g) := by
  rcases Graph.connect_after g src dst with hc | hs
  · exact connect hc
  · exact of_sameContent hs

theorem setCondition (g : Graph) (n : NodeId) (c : Option BindingId) :
    g.Grows (g.setCondition n c) := by
  have hnodes : (g.setCondition n c).nodes = g.nodes.modify n ({ · with condition := c }) := rfl
  refine of_linked (setCondition_linked c) (fun k => ?_) fun k => ?_
  · rw [node_modify hnodes]
    split_ifs <;> exact List.prefix_rfl
  · rw [node_modify hnodes]
    split_ifs <;> exact List.prefix_rfl

/-- A node that fails to get its edge is there all the same. -/
theorem connectNew_after (g : Graph) (src : NodeId) (name : String) (c : Option BindingId) :
    g.Grows ((Graph.connectNew src name c).after g) := by
  have hnode := newNode_after g name
  unfold Graph.connectNew
  cases hn : Graph.newNode name g with
  | error e g₁ =>
    rw [Growth.after_error hn] at hnode
    rwa [Growth.after_bind_error hn]
  | ok n g₁ =>
    rw [Growth.after_ok hn] at hnode
    have hedge := (hnode.trans (setCondition g₁ n c)).trans (connect_after _ src n)
    rw [Growth.after_bind_ok hn, Growth.after_bind_ok (modify_ok.mpr rfl)]
    cases hc : Graph.connect src n (g₁.setCondition n c) with
    | error e g₂ =>
      rw [Growth.after_error hc] at hedge
      rwa [Growth.after_bind_error hc]
    | ok _ g₂ =>
      rw [Growth.after_ok hc] at hedge
      rwa [Growth.after_bind_ok hc]

theorem newVariable (g : Graph) (name : String) : g.Grows (g.newVariable name).2 :=
  of_addedAt (newVariable_addedAt g name 0) (by simp [Graph.newVariable]) fun _ _ => .refl _

theorem addOrigin (g : Graph) (b : BindingId) (sources : List BindingId) (n : NodeId) :
    g.Grows (g.addOrigin b n sources) := by
  refine of_addedAt (addOrigin_addedAt b n sources) (Nat.le_refl _) fun a _ => ?_
  rw [addOrigin_binding]
  split_ifs
  · exact .addSources _ n _
  · exact .refl _

theorem addBinding (g : Graph) (v : VarId) (d : DataId) (sources : List BindingId) (n : NodeId) :
    g.Grows (g.addBinding v d sources n).2 := by
  cases hb : g.bindingTo? v d with
  | some b =>
    rw [addBinding_old sources n hb]
    exact addOrigin g b sources n
  | none =>
    have hadded := addBinding_addedAt (g := g) v d sources n
    have hvars := addBinding_vars_size (g := g) v d sources n
    obtain ⟨g', he, _, _, _, hold, _⟩ := addBinding_new d sources n hb
    rw [he] at hadded hvars ⊢
    refine of_addedAt hadded (Nat.le_of_eq hvars.symm) fun a ha => ?_
    rw [hold a (Nat.ne_of_lt ha)]
    exact .refl _

theorem pasteVariable (g : Graph) (dst src : VarId) (n : NodeId) :
    g.Grows (g.pasteVariable dst src n) := by
  have hpaste (bs : List BindingId) (g : Graph) : g.Grows (g.pasteBindings dst bs n) := by
    induction bs generalizing g with
    | nil => exact refl g
    | cons b bs ih => exact (addBinding g dst (g.dataOf b) [b] n).trans (ih _)
  unfold Graph.pasteVariable
  split_ifs
  · exact refl g
  · exact hpaste _ g

theorem mergeVariables (g : Graph) (n : NodeId) (name : String) (vs : List VarId) :
    g.Grows (g.mergeVariables n name vs).2 := by
  have hpaste (dst : VarId) (vs : List VarId) (g : Graph) :
      g.Grows (vs.foldl (fun g v => g.pasteVariable dst v n) g) := by
    induction vs generalizing g with
    | nil => exact refl g
    | cons v vs ih => exact (pasteVariable g dst v n).trans (ih _)
  unfold Graph.mergeVariables
  split
  · exact newVariable g name
  · exact refl g
  · exact (newVariable g name).trans (hpaste _ _ _)

end Grows

theorem Built.mergeVariables (h : g.Built) (hn : n < g.nodes.size) (name : String)
    (vs : List VarId) : (g.mergeVariables n name vs).2.Built := by
  have hpaste (dst : VarId) (vs : List VarId) (g : Graph) (h : g.Built) (hv : dst < g.vars.size)
      (hn : n < g.nodes.size) : (vs.foldl (fun g v => g.pasteVariable dst v n) g).Built := by
    induction vs generalizing g with
    | nil => exact h
    | cons v vs ih =>
      have hgrows := Grows.pasteVariable g dst v n
      exact ih _ (h.pasteVariable hv hn v) (Nat.lt_of_lt_of_le hv hgrows.vars_le)
        (Nat.lt_of_lt_of_le hn hgrows.nodes_le)
  unfold Graph.mergeVariables
  split
  · exact h.var name
  · exact h
  · exact hpaste _ _ _ (h.var name) (by simp [newVariable]) hn

namespace Operation

theorem built (h : g.Built) {op : Operation} (hop : op.Fits g) : (op.after g).Built := by
  cases op with
  | node name => exact h.node name
  | edge src dst => exact h.edge hop.1 hop.2
  | connectNew src name c => exact h.connectNew hop name c
  | condition n c => exact h.condition n c
  | var name => exact h.var name
  | binding v d sources n => exact h.binding d sources hop.1 hop.2
  | origin b sources n => exact h.origin sources hop.1 hop.2
  | paste dst src n => exact h.pasteVariable hop.1 hop.2.2 src
  | merge n name vs => exact h.mergeVariables hop.1 name vs

theorem grows (g : Graph) (op : Operation) : g.Grows (op.after g) := by
  cases op with
  | node name => exact .newNode_after g name
  | edge src dst => exact .connect_after g src dst
  | connectNew src name c => exact .connectNew_after g src name c
  | condition n c => exact .setCondition g n c
  | var name => exact .newVariable g name
  | binding v d sources n => exact .addBinding g v d sources n
  | origin b sources n => exact .addOrigin g b sources n
  | paste dst src n => exact .pasteVariable g dst src n
  | merge n name vs => exact .mergeVariables g n name vs

end Operation

theorem Reached.built (h : g.Reached) : g.Built := by
  induction h with
  | empty limit => exact .empty limit
  | step op _ hop ih => exact op.built ih hop

/-- As long as there are enough numbers for the nodes, variables and bindings of a graph, the numbers
are their places. Whatever has been done to the graph, failures included, all copies of a fact agree,
and whatever is done to it next only adds to it. -/
theorem Reached.coherent_grows (h : g.Reached) (hfit : g.Addressable) :
    g.Numbered ∧ g.Coherent ∧ ∀ op : Operation, g.Grows (op.after g) :=
  ⟨h.built.coherent.numbered hfit, h.built.coherent, fun op => op.grows g⟩

/-- The second node was made, but the edge to it was too dear. A variable is bound there twice, and
copied from. -/
def cutShort : Graph :=
  List.foldl Operation.after { limit := some 2 } [.node "root", .connectNew 0 "after" none,
    .var "x", .binding 0 (.value 0) [] 1, .binding 0 (.value 0) [0] 1, .var "y", .paste 1 0 0]

theorem cutShort_coherent_grows : cutShort.Reached ∧ cutShort.nodes.size = 2 ∧
    (cutShort.node 0).outgoing = [] ∧ cutShort.allBindings 0 = [0] ∧
    (cutShort.binding 0).origins = [⟨1, [[], [0]]⟩] ∧ cutShort.allBindings 1 = [1] ∧
    cutShort.Addressable ∧ cutShort.Numbered ∧ cutShort.Coherent ∧
      ∀ op : Operation, cutShort.Grows (op.after cutShort) := by
  have hfit : cutShort.Addressable := ⟨by decide, by decide, by decide⟩
  have h : cutShort.Reached := by
    unfold cutShort
    simp only [List.foldl_cons, List.foldl_nil]
    refine .step _ (.step _ (.step _ (.step _ (.step _ (.step _ (.step _ (.empty _) ?_) ?_) ?_) ?_)
      ?_) ?_) ?_
    · exact trivial
    · change _ < _
      decide
    · exact trivial
    · exact ⟨by decide, by decide⟩
    · exact ⟨by decide, by decide⟩
    · exact trivial
    · exact ⟨by decide, by decide, by decide⟩
  exact ⟨h, by decide, by decide, by decide, by decide, by decide, hfit, h.coherent_grows hfit⟩

/-- There are graphs with any number of variables. -/
theorem exists_reached_vars (k : Nat) : ∃ g : Graph, g.Reached ∧ g.vars.size = k := by
  induction k with
  | zero => exact ⟨{}, .empty none, rfl⟩
  | succ k ih =>
    obtain ⟨g, hg, rfl⟩ := ih
    exact ⟨_, hg.step (.var "x") trivial, by simp [Operation.after, newVariable]⟩

/-- When there are more variables than numbers, the numbers begin anew. -/
theorem exists_not_numbered : ∃ g : Graph, g.Reached ∧ ¬ g.Numbered := by
  obtain ⟨g, hg, hsize⟩ := exists_reached_vars (Word.bound32 + 1)
  have hlt : Word.bound32 < g.vars.size := hsize ▸ Nat.lt_succ_self _
  refine ⟨g, hg, fun h => ?_⟩
  have hid := (hg.built.coherent.indexed.var_id _ hlt).symm.trans (h.var _ hlt)
  exact absurd hid (by decide)

end Graph

end ValueTrace
