import ValueTrace.Proofs.Graph.WellFormed

/-! What a new variable can hold at the node where it is bound: a value is visible there if one of
the sets that justify it could hold there before. -/
namespace ValueTrace

def Binding.setsAt (b : Binding) (n : NodeId) : List SourceSet :=
  (b.originAt? n).elim [] (·.sourceSets)

namespace Graph

/-- Note that a set justifies a value. -/
def record (d : DataId) (s : SourceSet) :
    List (DataId × List SourceSet) → List (DataId × List SourceSet)
  | [] => [(d, [s])]
  | (e, sets) :: rest =>
    if e = d then (e, if sets.contains s then sets else sets ++ [s]) :: rest
    else (e, sets) :: record d s rest

def justified (g : Graph) (v : VarId) (n : NodeId) : List (DataId × List SourceSet) :=
  (g.allBindings v).map fun b => (g.dataOf b, (g.binding b).setsAt n)

def bindAll (g : Graph) (v : VarId) (n : NodeId) (entries : List (DataId × List BindingId)) :
    Graph :=
  entries.foldl (fun g e => (g.addBinding v e.1 e.2 n).2) g

def gather (entries : List (DataId × List BindingId)) : List (DataId × List SourceSet) :=
  entries.foldl (fun l e => record e.1 (.ofList e.2) l) []

variable {g g' : Graph} {v : VarId} {n : NodeId} {d : DataId} {b c : BindingId} {s : SourceSet}
  {sources : List BindingId} {name : String}

private theorem record_map_of_some {f f' : BindingId → DataId × List SourceSet}
    {l : List BindingId} (h : l.find? (fun a => (f a).1 == d) = some b) (hl : l.Nodup)
    (hold : ∀ a ∈ l, a ≠ b → f' a = f a)
    (hnew : f' b = ((f b).1, if (f b).2.contains s then (f b).2 else (f b).2 ++ [s])) :
    l.map f' = record d s (l.map f) := by
  induction l with
  | nil => cases h
  | cons a l ih =>
    obtain ⟨hal, hl⟩ := List.nodup_cons.mp hl
    rw [List.map_cons, List.map_cons]
    by_cases ha : (f a).1 = d
    · obtain rfl : a = b := by
        rw [List.find?_cons_of_pos (by simpa using ha)] at h
        exact Option.some.inj h
      have hrest : l.map f' = l.map f := List.map_congr_left fun c hc =>
        hold c (List.mem_cons_of_mem a hc) fun he => hal (he ▸ hc)
      rw [hrest, hnew, record, if_pos ha]
    · rw [List.find?_cons_of_neg (by simpa using ha)] at h
      have hab : a ≠ b := by
        rintro rfl
        exact hal (List.mem_of_find?_eq_some h)
      rw [hold a List.mem_cons_self hab, record, if_neg ha]
      rw [ih h hl fun c hc => hold c (List.mem_cons_of_mem a hc)]

private theorem record_map_of_none {f : BindingId → DataId × List SourceSet} {l : List BindingId}
    (h : l.find? (fun a => (f a).1 == d) = none) :
    record d s (l.map f) = l.map f ++ [(d, [s])] := by
  induction l with
  | nil => rfl
  | cons a l ih =>
    rw [List.find?_eq_none] at h
    have ha : (f a).1 ≠ d := by simpa using h a List.mem_cons_self
    have hl : l.find? (fun a => (f a).1 == d) = none :=
      List.find?_eq_none.mpr fun c hc => h c (List.mem_cons_of_mem a hc)
    rw [List.map_cons, record, if_neg ha, ih hl, List.cons_append]

theorem setsAt_addSources {k : Binding} :
    ({ k with origins := addSources k.origins n s } : Binding).setsAt n =
      if (k.setsAt n).contains s then k.setsAt n else k.setsAt n ++ [s] := by
  have hfind (origins : List Origin) :
      ((addSources origins n s).find? (·.node == n)).elim [] (·.sourceSets) =
        if ((origins.find? (·.node == n)).elim [] (·.sourceSets)).contains s
        then (origins.find? (·.node == n)).elim [] (·.sourceSets)
        else (origins.find? (·.node == n)).elim [] (·.sourceSets) ++ [s] := by
    induction origins with
    | nil => simp [addSources]
    | cons o origins ih =>
      rw [addSources]
      by_cases ho : o.node = n
      · simp [ho]
      · have hno : ¬ (o.node == n) = true := by simpa using ho
        have hskip (l : List Origin) : (o :: l).find? (·.node == n) = l.find? (·.node == n) :=
          List.find?_cons_of_neg hno
        rw [if_neg hno, hskip, hskip]
        exact ih
  exact hfind k.origins

/-- The binding that a variable has for a value, old or new, gets one more set. -/
private theorem addBinding_at (hw : g.WellFormed) (hv : v < g.vars.size) (d : DataId)
    (sources : List BindingId) (n : NodeId) : ∃ b g', g.addBinding v d sources n = (b, g') ∧
      (b ∈ g.allBindings v ∧ g'.allBindings v = g.allBindings v ∨
        b ∉ g.allBindings v ∧ g'.allBindings v = g.allBindings v ++ [b]) ∧
      (∀ a, a ≠ b → g'.binding a = g.binding a) ∧ ((g'.binding b).originAt? n).isSome ∧
      ∀ s ∈ (g'.binding b).setsAt n, s = .ofList sources ∨
        b ∈ g.allBindings v ∧ s ∈ (g.binding b).setsAt n := by
  cases hb : g.bindingTo? v d with
  | some b =>
    have hmem : b ∈ g.allBindings v := hw.mem_of_bindingTo? hb
    have hself : (g.addOrigin b n sources).binding b = _ :=
      (addOrigin_binding sources b).trans (if_pos ⟨rfl, (hw.listed v b hmem).1⟩)
    refine ⟨b, _, addBinding_old sources n hb, .inl ⟨hmem, rfl⟩, fun a hab => ?_, ?_,
      fun s hs => ?_⟩
    · rw [addOrigin_binding, if_neg fun h => hab h.1]
    · rw [hself]
      exact originAt?_addSources_self
    · rw [hself, setsAt_addSources] at hs
      have hs : s ∈ (g.binding b).setsAt n ∨ s = .ofList sources := by
        split_ifs at hs
        · exact .inl hs
        · exact (List.mem_append.mp hs).imp_right List.mem_singleton.mp
      exact hs.symm.imp_right fun hs => ⟨hmem, hs⟩
  | none =>
    obtain ⟨g', he, _, _, hnew, hold, hlist, _⟩ := addBinding_new d sources n hb
    refine ⟨_, g', he, .inr ⟨fun h => Nat.lt_irrefl _ (hw.listed v _ h).1, ?_⟩, hold, ?_, ?_⟩
    · rw [hlist, if_pos ⟨rfl, hv⟩]
    · simp [hnew, Binding.originAt?]
    · simp [hnew, Binding.setsAt, Binding.originAt?]

theorem justified_addBinding (hw : g.WellFormed) (hv : v < g.vars.size)
    (hl : (g.allBindings v).Nodup) :
    (g.addBinding v d sources n).2.justified v n =
      record d (.ofList sources) (g.justified v n) := by
  cases hb : g.bindingTo? v d with
  | some b =>
    have hlt := (hw.listed v b (hw.mem_of_bindingTo? hb)).1
    rw [addBinding_old sources n hb]
    refine record_map_of_some ((hw.bindingTo?_eq_find? v d).symm.trans hb) hl
      (fun a _ hab => ?_) ?_
    · unfold dataOf
      rw [addOrigin_binding, if_neg fun h => hab h.1]
    · unfold dataOf
      rw [addOrigin_binding, if_pos ⟨rfl, hlt⟩, setsAt_addSources]
  | none =>
    obtain ⟨g', he, _, _, hnew, hold, hlist, _⟩ := addBinding_new d sources n hb
    rw [he]
    have hsame : (g.allBindings v).map (fun a => (g'.dataOf a, (g'.binding a).setsAt n)) =
        g.justified v n := by
      refine List.map_congr_left fun a ha => ?_
      unfold dataOf
      rw [hold a (Nat.ne_of_lt (hw.listed v a ha).1)]
    have hrecord : record d (.ofList sources) (g.justified v n) =
        g.justified v n ++ [(d, [.ofList sources])] :=
        record_map_of_none ((hw.bindingTo?_eq_find? v d).symm.trans hb)
    change (g'.allBindings v).map (fun a => (g'.dataOf a, (g'.binding a).setsAt n)) = _
    rw [hrecord, hlist, if_pos ⟨rfl, hv⟩, List.map_append, hsame, List.map_singleton]
    simp [dataOf, hnew, Binding.setsAt, Binding.originAt?]

/-- A variable that is new in the second graph has been bound at a node, by what the first graph
has. -/
structure BoundAt (g g' : Graph) (v : VarId) (n : NodeId) : Prop where
  built : g'.Built
  grown : g.Extends g'
  new : g.vars.size ≤ v
  bound : v < g'.vars.size
  nodup : (g'.allBindings v).Nodup
  begun : ∀ b ∈ g'.allBindings v, ((g'.binding b).originAt? n).isSome
  sources : ∀ b ∈ g'.allBindings v, ∀ s ∈ (g'.binding b).setsAt n, ∀ c ∈ s, c < g.bindings.size

theorem newVariable_unbound (g : Graph) (name : String) :
    (g.newVariable name).2.allBindings g.vars.size = [] := by
  rw [allBindings_newVariable, allBindings_eq_nil (Nat.le_refl _)]

theorem newVariable_boundAt (hb : g.Built) (name : String) (n : NodeId) :
    g.BoundAt (g.newVariable name).2 g.vars.size n := by
  have hnil := newVariable_unbound g name
  refine ⟨hb.var name, (Extends.refl g).newVariable name, Nat.le_refl _, ?_, ?_, ?_, ?_⟩
  · simp [newVariable]
  · simp [hnil]
  · simp [hnil]
  · simp [hnil]

namespace BoundAt

theorem addBinding (h : g.BoundAt g' v n) (hb : g.Built) (hn : n < g.nodes.size) (d : DataId)
    (hs : ∀ c ∈ sources, c < g.bindings.size) :
    g.BoundAt (g'.addBinding v d sources n).2 v n := by
  have hw := h.built.wellFormed
  have hn' : n < g'.nodes.size := Nat.lt_of_lt_of_le hn h.grown.nodes_le
  obtain ⟨b, g₁, he, hlist, hold, hbegun, hsets⟩ := addBinding_at hw h.bound d sources n
  have hgrown := h.grown.addBinding hb.wellFormed hw h.new d sources n
  have hbuilt := h.built.binding d sources h.bound hn'
  have hvars := addBinding_vars_size (g := g') v d sources n
  rw [he] at hgrown hbuilt hvars ⊢
  have hmem {a : BindingId} (ha : a ∈ g₁.allBindings v) : a = b ∨ a ≠ b ∧ a ∈ g'.allBindings v := by
    rcases eq_or_ne a b with hab | hab
    · exact .inl hab
    · refine .inr ⟨hab, ?_⟩
      rcases hlist with ⟨_, hl⟩ | ⟨_, hl⟩
      · exact hl ▸ ha
      · rw [hl] at ha
        exact (List.mem_append.mp ha).resolve_right (by simpa using hab)
  refine ⟨hbuilt, hgrown, h.new, hvars ▸ h.bound, ?_, fun a ha => ?_, fun a ha s hsa c hc => ?_⟩
  · rcases hlist with ⟨_, hl⟩ | ⟨hout, hl⟩
    · exact hl ▸ h.nodup
    · change (g₁.allBindings v).Nodup
      rw [hl]
      exact h.nodup.append (List.nodup_singleton b) (by simpa using hout)
  · rcases hmem ha with rfl | ⟨hab, ha⟩
    · exact hbegun
    · change ((g₁.binding a).originAt? n).isSome
      rw [hold a hab]
      exact h.begun a ha
  · rcases hmem ha with rfl | ⟨hab, ha⟩
    · rcases hsets s hsa with rfl | ⟨ha, hsa⟩
      · exact hs c (SourceSet.mem_ofList.mp hc)
      · exact h.sources a ha s hsa c hc
    · change s ∈ (g₁.binding a).setsAt n at hsa
      rw [hold a hab] at hsa
      exact h.sources a ha s hsa c hc

/-- A value is visible where it was bound if one of its sets could hold there before. -/
theorem isVisible_eq (h : g.BoundAt g' v n) (hw : g.WellFormed) (hc : g.Closed)
    (hn : n < g.nodes.size) (hb : b ∈ g'.allBindings v) :
    g'.isVisible b n = ((g'.binding b).setsAt n).any (g.canCombine · n) := by
  obtain ⟨o, ho⟩ := Option.isSome_iff_exists.mp (h.begun b hb)
  have hsets : (g'.binding b).setsAt n = o.sourceSets := by simp [Binding.setsAt, ho]
  have hagree := h.grown.agreeOn hw hc
  have hvar : (g'.binding b).var = v := (h.built.wellFormed.listed v b hb).2
  have hold (s : SourceSet) (hs : s ∈ o.sourceSets) :
      (∅ ∪ {a | a ∈ s} : Set BindingId) ⊆ {a | a < g.bindings.size} := by
    rintro c (hc | hc)
    · cases hc
    · exact h.sources b hb s (hsets ▸ hs) c hc
  have hother (s : SourceSet) (hs : s ∈ o.sourceSets) (choice : BindingId → SourceSet)
      (c : BindingId) (hg : g'.HoldsBy n choice (∅ ∪ {a | a ∈ s}))
      (hseen : g'.Seen n choice (∅ ∪ {a | a ∈ s}) c)
      (hv : (g'.binding c).var = (g'.binding b).var) : c = b := by
    -- What the old graph justifies leads to old bindings only, and none of them is of the variable.
    have hlt : c < g.bindings.size := hagree.symm.seen_mem hn hg.1 (hold s hs) hseen
    rw [hvar, h.grown.kept c hlt] at hv
    exact absurd (hv ▸ hw.var c hlt) (Nat.not_lt.mpr h.new)
  rw [Bool.eq_iff_iff, Graph.isVisible_iff, hsets, List.any_eq_true]
  have hiff := canHold_insert_iff_of_seen ho hother
  rw [insert_empty_eq] at hiff
  rw [hiff]
  refine exists_congr fun s => and_congr_right fun hs => ?_
  rw [hagree.canHold_iff hn (hold s hs), canCombine_iff, Set.empty_union]

theorem visibleData_eq (h : g.BoundAt g' v n) (hw : g.WellFormed) (hc : g.Closed)
    (hn : n < g.nodes.size) : g'.visibleData v n =
      ((g'.justified v n).filter fun e => e.2.any (g.canCombine · n)).map (·.1) := by
  unfold visibleData justified
  rw [visible_eq_filter, List.filter_map, List.map_map]
  have hfilter : (g'.allBindings v).filter (g'.isVisible · n) = (g'.allBindings v).filter
      fun b => ((g'.binding b).setsAt n).any (g.canCombine · n) :=
    List.filter_congr fun b hb => h.isVisible_eq hw hc hn hb
  rw [hfilter]
  rfl

theorem bindAll (h : g.BoundAt g' v n) (hb : g.Built) (hn : n < g.nodes.size)
    {entries : List (DataId × List BindingId)}
    (hs : ∀ e ∈ entries, ∀ c ∈ e.2, c < g.bindings.size) :
    g.BoundAt (g'.bindAll v n entries) v n ∧ (g'.bindAll v n entries).justified v n =
      entries.foldl (fun l e => record e.1 (.ofList e.2) l) (g'.justified v n) := by
  induction entries generalizing g' with
  | nil => exact ⟨h, rfl⟩
  | cons e entries ih =>
    have hstep := h.addBinding hb hn e.1 (hs e List.mem_cons_self)
    obtain ⟨hall, hrest⟩ := ih hstep fun e' he' => hs e' (List.mem_cons_of_mem e he')
    refine ⟨hall, hrest.trans ?_⟩
    rw [justified_addBinding h.built.wellFormed h.bound h.nodup]
    rfl

end BoundAt

/-- What a new variable can hold at the node where it is bound. -/
theorem visibleData_bindAll (hb : g.Built) (hc : g.Closed) (hn : n < g.nodes.size) (name : String)
    {entries : List (DataId × List BindingId)}
    (hs : ∀ e ∈ entries, ∀ c ∈ e.2, c < g.bindings.size) :
    ((g.newVariable name).2.bindAll g.vars.size n entries).visibleData g.vars.size n =
      ((gather entries).filter fun e => e.2.any (g.canCombine · n)).map (·.1) := by
  have hnew := newVariable_boundAt hb name n
  obtain ⟨hall, hjustified⟩ := hnew.bindAll hb hn hs
  have hnil : (g.newVariable name).2.justified g.vars.size n = [] := by
    unfold justified
    rw [newVariable_unbound]
    rfl
  rw [hall.visibleData_eq hb.wellFormed hc hn, hjustified, hnil]
  rfl

end Graph

end ValueTrace
