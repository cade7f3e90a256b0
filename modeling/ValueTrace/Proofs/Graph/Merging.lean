import ValueTrace.Machine.Basic
import ValueTrace.Proofs.Graph.Coherence
import ValueTrace.Proofs.Graph.NewVariables

/-!
# Merging and copying variables

A variable that is made of others at a node can hold there what these can hold there, and nothing
else. Each of its bindings is justified by the one that it copies, so what decides is whether that
one can hold. A variable of which the visible bindings are copied has its values in order, because a
variable has one binding for each of its values.
-/

namespace ValueTrace

namespace Graph

/-- A graph has grown by variables that are bound at one node, and by nothing else. -/
structure GrownAt (n : NodeId) (g g' : Graph) : Prop where
  built : g'.Built
  closed : g'.Closed
  grown : g.Extends g'
  added : AddedAt n g g'

/-- A variable of the second graph can hold at the node just what one of two variables of the first
graph can hold there. -/
def Merges (n : NodeId) (a b : VarId) (g : Graph) (v : VarId) (g' : Graph) : Prop :=
  ∀ d, d ∈ g'.visibleData v n ↔ ∃ x, (x ∈ g.allBindings a ∨ x ∈ g.allBindings b) ∧
    g.dataOf x = d ∧ g.isVisible x n = true

variable {g g' g'' : Graph} {n k src dst : NodeId} {v a b : VarId} {d : DataId} {x : BindingId}
  {name : String}

namespace GrownAt

theorem refl (hb : g.Built) (hc : g.Closed) : GrownAt n g g := ⟨hb, hc, .refl g, .refl n g⟩

theorem trans (h : GrownAt n g g') (h' : GrownAt n g' g'') : GrownAt n g g'' :=
  ⟨h'.built, h'.closed, h.grown.trans h'.grown, h.added.trans h'.added⟩

/-- No old variable has got a binding. -/
theorem allBindings_eq (h : GrownAt n g g') (hv : v < g.vars.size) :
    g'.allBindings v = g.allBindings v := by
  obtain ⟨l, hl, hnew⟩ := h.added.listed v
  cases l with
  | nil => rw [hl, List.append_nil]
  | cons c l =>
    have hc : c ∈ g'.allBindings v := by simp [hl]
    obtain ⟨hlt, hvar⟩ := h.built.wellFormed.listed v c hc
    have hfresh := h.grown.fresh c (hnew c List.mem_cons_self) hlt
    exact absurd (hvar ▸ hfresh) (Nat.not_le.mpr hv)

theorem isVisible_eq (h : GrownAt n g g') (hw : g.WellFormed) (hc : g.Closed)
    (hk : k < g.nodes.size) (hx : x < g.bindings.size) : g'.isVisible x k = g.isVisible x k :=
  (h.grown.agreeOn hw hc).isVisible_eq hk hx

theorem visibleData_eq (h : GrownAt n g g') (hw : g.WellFormed) (hc : g.Closed)
    (hk : k < g.nodes.size) (hv : v < g.vars.size) :
    g'.visibleData v k = g.visibleData v k := by
  have hlt (x : BindingId) (hx : x ∈ g.allBindings v) : x < g.bindings.size :=
    (hw.listed v x hx).1
  have hvisible : g'.visible v k = g.visible v k := by
    rw [visible_eq_filter, visible_eq_filter, h.allBindings_eq hv]
    exact List.filter_congr fun x hx => h.isVisible_eq hw hc hk (hlt x hx)
  unfold visibleData
  rw [hvisible]
  refine List.map_congr_left fun x hx => ?_
  exact h.added.data x (hlt x (mem_of_mem_visible hx))

/-- What was merged before is not touched. -/
theorem merges_of_old (h : GrownAt n g' g'') (hb : g'.Built) (hc : g'.Closed)
    (hn : n < g'.nodes.size) (hv : v < g'.vars.size) (hm : Merges n a b g v g') :
    Merges n a b g v g'' := by
  intro d
  rw [h.visibleData_eq hb.wellFormed hc hn hv]
  exact hm d

/-- What is merged later is what was there at the start. -/
theorem merges_of_grown (h : GrownAt n g g') (hw : g.WellFormed) (hc : g.Closed)
    (hn : n < g.nodes.size) (ha : a < g.vars.size) (hb : b < g.vars.size)
    (hm : Merges n a b g' v g'') : Merges n a b g v g'' := by
  intro d
  rw [hm d, h.allBindings_eq ha, h.allBindings_eq hb]
  refine exists_congr fun x => and_congr_right fun hx => ?_
  have hlt : x < g.bindings.size := hx.elim (fun hx => (hw.listed a x hx).1) fun hx =>
    (hw.listed b x hx).1
  have hdata : g'.dataOf x = g.dataOf x := h.added.data x hlt
  rw [hdata, h.isVisible_eq hw hc hn hlt]

end GrownAt

theorem mem_visibleData (g : Graph) (v : VarId) (n : NodeId) (d : DataId) :
    d ∈ g.visibleData v n ↔ ∃ x ∈ g.allBindings v, g.dataOf x = d ∧ g.isVisible x n = true := by
  unfold visibleData
  rw [visible_eq_filter, List.mem_map]
  refine exists_congr fun x => ?_
  rw [List.mem_filter, and_assoc, and_comm (a := g.isVisible x n = true)]

private theorem mem_record {l : List (DataId × List SourceSet)} {e : DataId} {s t : SourceSet} :
    (∃ sets, (e, sets) ∈ record d s l ∧ t ∈ sets) ↔
      e = d ∧ t = s ∨ ∃ sets, (e, sets) ∈ l ∧ t ∈ sets := by
  induction l with
  | nil => simp [record]
  | cons f l ih =>
    obtain ⟨c, sets⟩ := f
    have hcons (l : List (DataId × List SourceSet)) (r : List SourceSet) :
        (∃ sets, (e, sets) ∈ (c, r) :: l ∧ t ∈ sets) ↔
          e = c ∧ t ∈ r ∨ ∃ sets, (e, sets) ∈ l ∧ t ∈ sets := by
      simp only [List.mem_cons, Prod.mk.injEq, or_and_right, exists_or, and_assoc,
        exists_and_left, exists_eq_left]
    rw [record]
    split_ifs with hcd hs
    · subst hcd
      rw [hcons, ← or_assoc]
      refine or_congr_left ⟨.inr, ?_⟩
      rintro (⟨rfl, rfl⟩ | h)
      · exact ⟨rfl, List.contains_iff_mem.mp hs⟩
      · exact h
    · subst hcd
      rw [hcons, hcons, List.mem_append, List.mem_singleton]
      tauto
    · rw [hcons, hcons, ih]
      tauto

theorem mem_gather {entries : List (DataId × List BindingId)} {s : SourceSet} :
    (∃ sets, (d, sets) ∈ gather entries ∧ s ∈ sets) ↔
      ∃ sources, (d, sources) ∈ entries ∧ s = .ofList sources := by
  have hfold (l : List (DataId × List SourceSet)) :
      (∃ sets, (d, sets) ∈ entries.foldl (fun l e => record e.1 (.ofList e.2) l) l ∧ s ∈ sets) ↔
        (∃ sources, (d, sources) ∈ entries ∧ s = .ofList sources) ∨
          ∃ sets, (d, sets) ∈ l ∧ s ∈ sets := by
    induction entries generalizing l with
    | nil => simp
    | cons e entries ih =>
      rw [List.foldl_cons, ih, mem_record, ← or_assoc]
      refine or_congr_left ?_
      obtain ⟨c, sources⟩ := e
      simp only [List.mem_cons, Prod.mk.injEq, or_and_right, exists_or, and_assoc,
        exists_and_left, exists_eq_left]
      exact or_comm
  have h := hfold []
  simpa [gather] using h

/-- A new variable can hold a value where it is bound if the sources of one of its bindings can hold
there together. -/
theorem mem_visibleData_bindAll (hb : g.Built) (hc : g.Closed) (hn : n < g.nodes.size)
    (name : String) {entries : List (DataId × List BindingId)}
    (hs : ∀ e ∈ entries, ∀ c ∈ e.2, c < g.bindings.size) :
    d ∈ ((g.newVariable name).2.bindAll g.vars.size n entries).visibleData g.vars.size n ↔
      ∃ sources, (d, sources) ∈ entries ∧ g.canCombine (SourceSet.ofList sources) n = true := by
  rw [visibleData_bindAll hb hc hn name hs, List.mem_map]
  constructor
  · rintro ⟨⟨_, sets⟩, he, rfl⟩
    obtain ⟨he, hany⟩ := List.mem_filter.mp he
    obtain ⟨s, hs, hold⟩ := List.any_eq_true.mp hany
    obtain ⟨sources, hmem, rfl⟩ := mem_gather.mp ⟨sets, he, hs⟩
    exact ⟨sources, hmem, hold⟩
  · rintro ⟨sources, hmem, hold⟩
    obtain ⟨sets, he, hs⟩ := mem_gather.mpr ⟨sources, hmem, rfl⟩
    exact ⟨(d, sets), List.mem_filter.mpr ⟨he, List.any_eq_true.mpr ⟨_, hs, hold⟩⟩, rfl⟩

def copies (g : Graph) (v : VarId) : List (DataId × List BindingId) :=
  (g.allBindings v).map fun x => (g.dataOf x, [x])

private theorem sources_lt {bs : List BindingId} (hbs : ∀ x ∈ bs, x < g.bindings.size) :
    ∀ e ∈ bs.map fun x => (g.dataOf x, [x]), ∀ c ∈ e.2, c < g.bindings.size := by
  intro e he c hc
  obtain ⟨x, hx, rfl⟩ := List.mem_map.mp he
  obtain rfl := List.mem_singleton.mp hc
  exact hbs c hx

private theorem sources_copies (hw : g.WellFormed) : ∀ e ∈ g.copies a, ∀ c ∈ e.2,
    c < g.bindings.size := sources_lt fun x hx => (hw.listed a x hx).1

/-- Copying bindings one after another is binding their values. -/
private theorem pasteBindings_eq (h : g.BoundAt g' v n) (hb : g.Built) (hn : n < g.nodes.size)
    {bs : List BindingId} (hbs : ∀ x ∈ bs, x < g.bindings.size) :
    g'.pasteBindings v bs n = g'.bindAll v n (bs.map fun x => (g.dataOf x, [x])) := by
  induction bs generalizing g' with
  | nil => rfl
  | cons x bs ih =>
    have hx := hbs x List.mem_cons_self
    have hdata : g'.dataOf x = g.dataOf x := by
      unfold dataOf
      rw [h.grown.kept x hx]
    have hself : ∀ c ∈ [x], c < g.bindings.size := fun c hc => List.mem_singleton.mp hc ▸ hx
    have hstep := h.addBinding hb hn (g.dataOf x) hself
    have hrest := ih hstep fun y hy => hbs y (List.mem_cons_of_mem x hy)
    change (g'.addBinding v (g'.dataOf x) [x] n).2.pasteBindings v bs n = _
    rw [hdata, hrest]
    rfl

/-- Copying an old variable to the new one binds the new one to the values of the old one. -/
private theorem BoundAt.pasteVariable (h : g.BoundAt g' v n) (hg : GrownAt n g g') (hb : g.Built)
    (hn : n < g.nodes.size) (ha : a < g.vars.size) :
    g'.pasteVariable v a n = g'.bindAll v n (g.copies a) ∧
      g.BoundAt (g'.pasteVariable v a n) v n ∧ GrownAt n g (g'.pasteVariable v a n) := by
  have hw := hb.wellFormed
  have hne : v ≠ a := Nat.ne_of_gt (Nat.lt_of_lt_of_le ha h.new)
  have heq : g'.pasteVariable v a n = g'.bindAll v n (g.copies a) := by
    unfold Graph.pasteVariable
    rw [if_neg (by simpa using hne), hg.allBindings_eq ha]
    exact pasteBindings_eq h hb hn fun x hx => (hw.listed a x hx).1
  have hbound := (h.bindAll hb hn (sources_copies (a := a) hw)).1
  rw [← heq] at hbound
  refine ⟨heq, hbound, hbound.built, ?_, hbound.grown, hg.added.trans (pasteVariable_addedAt ..)⟩
  exact hg.closed.pasteVariable hg.built.wellFormed v a n

/-- Copying old variables to the new one binds the new one to the values of all of them. -/
private theorem BoundAt.pasteVariables {vs : List VarId} (h : g.BoundAt g' v n)
    (hg : GrownAt n g g') (hb : g.Built) (hn : n < g.nodes.size)
    (hvs : ∀ a ∈ vs, a < g.vars.size) :
    let pasted := vs.foldl (fun g a => g.pasteVariable v a n) g'
    pasted = g'.bindAll v n (vs.flatMap g.copies) ∧ g.BoundAt pasted v n ∧
      GrownAt n g pasted := by
  induction vs generalizing g' with
  | nil => exact ⟨rfl, h, hg⟩
  | cons a vs ih =>
    obtain ⟨ha, hvs⟩ := List.forall_mem_cons.mp hvs
    obtain ⟨heq, hbound, hgrown⟩ := h.pasteVariable hg hb hn ha
    obtain ⟨hrest, hdone⟩ := ih hbound hgrown hvs
    refine ⟨?_, hdone⟩
    rw [List.foldl_cons, hrest, heq, List.flatMap_cons]
    exact (List.foldl_append ..).symm

/-- A new variable that some others have been copied to can hold at the node what these can hold
there. -/
private theorem pasted_holds {vs : List VarId} (hb : g.Built) (hc : g.Closed)
    (hn : n < g.nodes.size) (hvs : ∀ a ∈ vs, a < g.vars.size) (name : String) :
    let pasted := vs.foldl (fun g' a => g'.pasteVariable g.vars.size a n) (g.newVariable name).2
    GrownAt n g pasted ∧ g.vars.size < pasted.vars.size ∧
      ∀ d, d ∈ pasted.visibleData g.vars.size n ↔ ∃ a ∈ vs, d ∈ g.visibleData a n := by
  have hw := hb.wellFormed
  have hnew := newVariable_boundAt hb name n
  have hfresh : GrownAt n g (g.newVariable name).2 :=
    ⟨hnew.built, hc.newVariable name, hnew.grown, newVariable_addedAt g name n⟩
  obtain ⟨heq, hbound, hgrown⟩ := hnew.pasteVariables hfresh hb hn hvs
  refine ⟨hgrown, hbound.bound, fun d => ?_⟩
  have hsources : ∀ e ∈ vs.flatMap g.copies, ∀ c ∈ e.2, c < g.bindings.size := by
    intro e he
    obtain ⟨a, -, hea⟩ := List.mem_flatMap.mp he
    exact sources_copies hw e hea
  rw [heq, mem_visibleData_bindAll hb hc hn name hsources]
  simp only [mem_visibleData]
  constructor
  · rintro ⟨sources, hmem, hold⟩
    obtain ⟨a, ha, hcopy⟩ := List.mem_flatMap.mp hmem
    obtain ⟨x, hx, he⟩ := List.mem_map.mp hcopy
    obtain ⟨rfl, rfl⟩ := Prod.mk.inj he
    exact ⟨a, ha, x, hx, rfl, hold⟩
  · rintro ⟨a, ha, x, hx, rfl, hold⟩
    exact ⟨[x], List.mem_flatMap.mpr ⟨a, ha, List.mem_map.mpr ⟨x, hx, rfl⟩⟩, hold⟩

/-- A merged variable can hold at the node what its parts can hold there. -/
theorem mergeVariables_holds {vs : List VarId} (hb : g.Built) (hc : g.Closed)
    (hn : n < g.nodes.size) (hvs : ∀ a ∈ vs, a < g.vars.size)
    (h : g.mergeVariables n name vs = (v, g')) : GrownAt n g g' ∧ v < g'.vars.size ∧
      ∀ d, d ∈ g'.visibleData v n ↔ ∃ a ∈ vs, d ∈ g.visibleData a n := by
  have hmem (a : VarId) : a ∈ vs.eraseDups ↔ a ∈ vs := List.mem_eraseDups
  simp only [← hmem] at hvs ⊢
  unfold mergeVariables at h
  have hpasted := pasted_holds hb hc hn hvs name
  cases hparts : vs.eraseDups with
  | nil =>
    rw [hparts] at h hpasted
    obtain ⟨rfl, rfl⟩ := Prod.mk.inj h
    exact hpasted
  | cons a parts =>
    cases parts with
    | nil =>
      rw [hparts] at h hvs
      obtain ⟨rfl, rfl⟩ := Prod.mk.inj h
      exact ⟨.refl hb hc, hvs a (List.mem_singleton_self a), fun d => by simp⟩
    | cons b parts =>
      rw [hparts] at h hpasted
      obtain ⟨rfl, rfl⟩ := Prod.mk.inj h
      exact hpasted

/-- Two variables are merged into one that can hold what either can hold. -/
theorem mergeVariables_pair (hb : g.Built) (hc : g.Closed) (hn : n < g.nodes.size)
    (ha : a < g.vars.size) (ha' : b < g.vars.size)
    (h : g.mergeVariables n name [a, b] = (v, g')) :
    GrownAt n g g' ∧ v < g'.vars.size ∧ Merges n a b g v g' := by
  obtain ⟨hgrown, hv, hholds⟩ := mergeVariables_holds hb hc hn (by simp [ha, ha']) h
  refine ⟨hgrown, hv, fun d => (hholds d).trans ?_⟩
  simp only [mem_visibleData, List.mem_cons, List.not_mem_nil, or_false, exists_eq_left,
    or_and_right, exists_or]

private theorem record_new {l : List (DataId × List SourceSet)} {s : SourceSet}
    (h : d ∉ l.map (·.1)) : record d s l = l ++ [(d, [s])] := by
  induction l with
  | nil => rfl
  | cons e l ih =>
    rw [List.map_cons, List.mem_cons, not_or] at h
    rw [record, if_neg (Ne.symm h.1), ih h.2, List.cons_append]

/-- Different values are each justified by the sources that they are bound with. -/
theorem gather_of_nodup {entries : List (DataId × List BindingId)}
    (h : (entries.map (·.1)).Nodup) :
    gather entries = entries.map fun e => (e.1, [.ofList e.2]) := by
  have hfold (l : List (DataId × List SourceSet))
      (h : (l.map (·.1) ++ entries.map (·.1)).Nodup) :
      entries.foldl (fun l e => record e.1 (.ofList e.2) l) l =
        l ++ entries.map fun e => (e.1, [.ofList e.2]) := by
    clear * - h
    induction entries generalizing l with
    | nil => simp
    | cons e entries ih =>
      rw [List.map_cons] at h
      have hnew : e.1 ∉ l.map (·.1) := fun he =>
        List.disjoint_of_nodup_append h he List.mem_cons_self
      rw [List.foldl_cons, record_new hnew, ih, List.map_cons, List.append_assoc]
      · rfl
      · simpa using h
  exact hfold [] h

/-- A copy of bindings with different values has in order those that can hold at the node. -/
theorem visibleData_pasteBindings {bs : List BindingId} (hb : g.Built) (hc : g.Closed)
    (hn : n < g.nodes.size) (name : String) (hbs : ∀ x ∈ bs, x < g.bindings.size)
    (hd : (bs.map g.dataOf).Nodup) :
    ((g.newVariable name).2.pasteBindings g.vars.size bs n).visibleData g.vars.size n =
      (bs.filter (g.isVisible · n)).map g.dataOf := by
  have hkeys : ((bs.map fun x => (g.dataOf x, [x])).map (·.1)).Nodup := by
    rwa [List.map_map]
  rw [pasteBindings_eq (newVariable_boundAt hb name n) hb hn hbs,
    visibleData_bindAll hb hc hn name (sources_lt hbs), gather_of_nodup hkeys, List.map_map,
    List.filter_map, List.map_map]
  exact congrArg (List.map g.dataOf) (List.filter_congr fun x _ => Bool.or_false _)

/-- A copy of the visible bindings of a variable has in order what is visible of the variable. -/
theorem visibleData_pasteVisible (hb : g.Built) (hc : g.Closed) (hn : n < g.nodes.size)
    (name : String) (v : VarId) :
    ((g.newVariable name).2.pasteBindings g.vars.size (g.visible v n) n).visibleData g.vars.size n =
      g.visibleData v n := by
  have hsub : (g.visible v n).Sublist (g.allBindings v) := by
    rw [visible_eq_filter]
    exact List.filter_sublist
  have hbs : ∀ x ∈ g.visible v n, x < g.bindings.size := fun x hx =>
    (hb.wellFormed.listed v x (hsub.subset hx)).1
  have hd : ((g.visible v n).map g.dataOf).Nodup :=
    (hb.indexed.data_nodup v).sublist (hsub.map g.dataOf)
  rw [visibleData_pasteBindings hb hc hn name hbs hd, visibleData]
  congr 1
  refine List.filter_eq_self.mpr fun x hx => ?_
  rw [visible_eq_filter] at hx
  exact (List.mem_filter.mp hx).2

end Graph

namespace Analysis

/-- Merging is union: at the node the merged variable can hold just what one of its parts can hold
there, and the parts hold what they held before. Copying keeps all that a variable can hold at the
node, in order. -/
theorem visibleData_merged_copied {m : Machine} {n : NodeId} (hb : m.graph.Built)
    (hc : m.graph.Closed) (hn : n < m.graph.nodes.size) :
    (∀ name vs, (∀ v ∈ vs, v < m.graph.vars.size) → ∀ merged g,
      m.graph.mergeVariables n name vs = (merged, g) →
        (∀ d, d ∈ g.visibleData merged n ↔ ∃ v ∈ vs, d ∈ m.graph.visibleData v n) ∧
        ∀ v ∈ vs, g.visibleData v n = m.graph.visibleData v n) ∧
    ∀ v, ∃ copy m', copyVisible v n m = .ok copy m' ∧ m.graph.vars.size ≤ copy ∧
      m'.graph.visibleData copy n = m.graph.visibleData v n := by
  refine ⟨fun name vs hvs merged g hmerge => ?_, fun v => ?_⟩
  · obtain ⟨hgrown, -, hholds⟩ := Graph.mergeVariables_holds hb hc hn hvs hmerge
    exact ⟨hholds, fun v hv => hgrown.visibleData_eq hb.wellFormed hc hn (hvs v hv)⟩
  · exact ⟨m.graph.vars.size, _, rfl, Nat.le_refl _, Graph.visibleData_pasteVisible hb hc hn _ v⟩

/-- Behind its first node `x` is one or two, and `y` is two because of `x`. -/
def overlapping : Graph :=
  let g := (Graph.connectNew 0 "b" none).after ((Graph.newNode "a").after {})
  let g := ((g.newVariable "x").2.newVariable "y").2
  let g := ((g.addBinding 0 (.value 1) [] 0).2.addBinding 0 (.value 2) [] 0).2
  (g.addBinding 1 (.value 2) [1] 0).2

private theorem overlapping_built : overlapping.Built := by
  have hnodes := ((Graph.Built.empty none).node "a").connectNew (show 0 < _ by decide) "b" none
  have hx := (((hnodes.var "x").var "y").binding (.value 1) [] (v := 0) (n := 0) (by decide)
    (by decide)).binding (.value 2) [] (v := 0) (n := 0) (by decide) (by decide)
  exact hx.binding (.value 2) [1] (by decide) (by decide)

/-- Together the variables can be one or two, and so can a copy of the first one. -/
theorem overlapping_merged_copied : overlapping.Built ∧ overlapping.Closed ∧
    1 < overlapping.nodes.size ∧
    (∀ merged g, overlapping.mergeVariables 1 "both" [0, 1, 0] = (merged, g) →
      .value 1 ∈ g.visibleData merged 1 ∧ .value 2 ∈ g.visibleData merged 1 ∧
        .value 3 ∉ g.visibleData merged 1) ∧
    ∃ copy m', copyVisible 0 1 { graph := overlapping } = .ok copy m' ∧
      m'.graph.visibleData copy 1 = [.value 1, .value 2] := by
  have hclosed : overlapping.Closed := ⟨by decide, by decide⟩
  have hnode : 1 < overlapping.nodes.size := by decide
  have hx : overlapping.visibleData 0 1 = [.value 1, .value 2] := by decide +kernel
  have hy : overlapping.visibleData 1 1 = [.value 2] := by decide +kernel
  obtain ⟨hmerged, hcopied⟩ := visibleData_merged_copied (m := { graph := overlapping })
    overlapping_built hclosed hnode
  refine ⟨overlapping_built, hclosed, hnode, fun merged g hmerge => ?_, ?_⟩
  · have hholds := (hmerged "both" [0, 1, 0] (by decide) merged g hmerge).1
    simp only [hholds, List.mem_cons, List.not_mem_nil, or_false, exists_eq_or_imp, exists_eq_left,
      hx, hy]
    decide
  · obtain ⟨copy, m', hrun, -, hdata⟩ := hcopied 0
    exact ⟨copy, m', hrun, hdata.trans hx⟩

end Analysis

end ValueTrace
