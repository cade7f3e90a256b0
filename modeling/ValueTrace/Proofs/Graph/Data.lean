import ValueTrace.Proofs.Graph.AppendOnly

/-! What variables are bound to, wherever that holds. Whatever is done to a graph only adds to it.
-/

namespace ValueTrace.Graph

variable {g g' g'' : Graph} {v w dst src : VarId} {b : BindingId} {bs sources : List BindingId}
  {d d' : DataId} {n : NodeId} {A : VarId → DataId → Prop}

/-- A graph has grown, and variables have been bound to nothing but what they may be. -/
structure Adds (g g' : Graph) (A : VarId → DataId → Prop) : Prop where
  built : g'.Built
  grows : g.Grows g'
  only : ∀ v, ∀ d ∈ g'.allData v, d ∈ g.allData v ∨ A v d

theorem mem_allData : d ∈ g.allData v ↔ ∃ b ∈ g.allBindings v, g.dataOf b = d := List.mem_map

/-- Nothing that a variable has been bound to is lost. -/
theorem Grows.allData (h : g.Grows g') (hw : g.WellFormed) (v : VarId) :
    g.allData v ⊆ g'.allData v := by
  intro d hd
  obtain ⟨b, hb, rfl⟩ := mem_allData.mp hd
  rw [← h.data b (hw.listed v b hb).1]
  exact List.mem_map_of_mem ((h.listed v).subset hb)

theorem allData_newVariable (g : Graph) (name : String) (v : VarId) :
    (g.newVariable name).2.allData v = g.allData v := by
  unfold allData
  rw [allBindings_newVariable]
  rfl

/-- A variable that is not there is not bound to anything. -/
theorem allData_eq_nil (h : g.vars.size ≤ v) : g.allData v = [] := by
  unfold allData
  rw [allBindings_eq_nil h]
  rfl

theorem allData_addOrigin (b : BindingId) (sources : List BindingId) (n : NodeId) (v : VarId) :
    (g.addOrigin b n sources).allData v = g.allData v := by
  refine List.map_congr_left fun a _ => ?_
  unfold dataOf
  rw [addOrigin_binding]
  split_ifs <;> rfl

theorem mem_allData_addBinding (hw : g.WellFormed) (hv : v < g.vars.size) :
    d ∈ (g.addBinding v d' sources n).2.allData w ↔ d ∈ g.allData w ∨ w = v ∧ d = d' := by
  cases hb : g.bindingTo? v d' with
  | some b =>
    rw [addBinding_old sources n hb, allData_addOrigin]
    refine (or_iff_left_of_imp ?_).symm
    rintro ⟨rfl, rfl⟩
    exact mem_allData.mpr ⟨b, (hw.found w d b).mp hb⟩
  | none =>
    obtain ⟨k, he, -, -, hnew, hold, hlist, -⟩ := addBinding_new d' sources n hb
    rw [he]
    change d ∈ k.allData w ↔ _
    have hkept : (g.allBindings w).map k.dataOf = g.allData w := List.map_congr_left fun a ha =>
      congrArg Binding.data (hold a (Nat.ne_of_lt (hw.listed w a ha).1))
    have hdata : k.dataOf g.bindings.size = d' := congrArg Binding.data hnew
    unfold Graph.allData
    rw [hlist]
    by_cases hwv : w = v
    · rw [if_pos ⟨hwv, hv⟩, List.map_append, hkept, List.map_singleton, hdata]
      simp [hwv, Graph.allData]
    · rw [if_neg fun h => hwv h.1, hkept]
      simp [hwv, Graph.allData]

theorem mem_allData_pasteBindings (hw : g.WellFormed) (hv : v < g.vars.size)
    (hn : n < g.nodes.size) (hbs : ∀ b ∈ bs, b < g.bindings.size) :
    d ∈ (g.pasteBindings v bs n).allData w ↔ d ∈ g.allData w ∨ w = v ∧ ∃ b ∈ bs, g.dataOf b = d := by
  induction bs generalizing g with
  | nil => simp [pasteBindings]
  | cons b bs ih =>
    have hgrows := Grows.addBinding g v (g.dataOf b) [b] n
    have hrest (a : BindingId) (ha : a ∈ bs) : a < g.bindings.size :=
      hbs a (List.mem_cons_of_mem b ha)
    have hkept : (∃ a ∈ bs, (g.addBinding v (g.dataOf b) [b] n).2.dataOf a = d) ↔
        ∃ a ∈ bs, g.dataOf a = d :=
      exists_congr fun a => and_congr_right fun ha => by rw [hgrows.data a (hrest a ha)]
    change d ∈ ((g.addBinding v (g.dataOf b) [b] n).2.pasteBindings v bs n).allData w ↔ _
    rw [ih (hw.addBinding hv hn _ _) (hv.trans_le hgrows.vars_le) (hn.trans_le hgrows.nodes_le)
      fun a ha => (hrest a ha).trans_le hgrows.bindings_le, hkept, mem_allData_addBinding hw hv,
      List.exists_mem_cons_iff]
    tauto

theorem mem_allData_pasteVariable (hw : g.WellFormed) (hdst : dst < g.vars.size)
    (hn : n < g.nodes.size) : d ∈ (g.pasteVariable dst src n).allData w ↔
      d ∈ g.allData w ∨ w = dst ∧ d ∈ g.allData src := by
  unfold pasteVariable
  split
  · next h =>
    refine (or_iff_left_of_imp ?_).symm
    rintro ⟨rfl, hd⟩
    rwa [eq_of_beq h]
  · rw [mem_allData_pasteBindings hw hdst hn fun b hb => (hw.listed src b hb).1]
    exact or_congr_right (and_congr_right fun _ => mem_allData.symm)

namespace Adds

theorem refl (hb : g.Built) : g.Adds g A := ⟨hb, .refl g, fun _ _ => .inl⟩

theorem trans (h : g.Adds g' A) (h' : g'.Adds g'' A) : g.Adds g'' A :=
  ⟨h'.built, h.grows.trans h'.grows, fun v d hd => (h'.only v d hd).elim (h.only v d) .inr⟩

theorem newVariable (hb : g.Built) (name : String) : g.Adds (g.newVariable name).2 A :=
  ⟨hb.var name, .newVariable g name, fun v d hd => .inl (by rwa [allData_newVariable] at hd)⟩

theorem addBinding (h : g.Adds g' A) (hv : v < g'.vars.size) (hn : n < g'.nodes.size)
    (hA : A v d) (sources : List BindingId) : g.Adds (g'.addBinding v d sources n).2 A := by
  refine ⟨h.built.binding d sources hv hn, h.grows.trans (.addBinding ..), fun w d' hd' => ?_⟩
  rcases (mem_allData_addBinding h.built.wellFormed hv).mp hd' with hd' | ⟨rfl, rfl⟩
  · exact h.only w d' hd'
  · exact .inr hA

theorem pasteVariable (h : g.Adds g' A) (hv : v < g'.vars.size) (hn : n < g'.nodes.size)
    (hA : ∀ d ∈ g'.allData w, A v d) : g.Adds (g'.pasteVariable v w n) A := by
  refine ⟨h.built.pasteVariable hv hn w, h.grows.trans (.pasteVariable ..), fun u d hd => ?_⟩
  rcases (mem_allData_pasteVariable h.built.wellFormed hv hn).mp hd with hd' | ⟨rfl, hd'⟩
  · exact h.only u d hd'
  · exact .inr (hA d hd')

end Adds

end ValueTrace.Graph
