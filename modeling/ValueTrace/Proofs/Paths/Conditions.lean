import ValueTrace.Path.Split
import ValueTrace.Proofs.Visibility.Locality

/-! The conditions that a branch gives to its sides. A marker is justified by the bindings that were
visible when the branch was taken, and by no others. -/
namespace ValueTrace
namespace Graph

/-- The binding marks that one of the bindings has agreed at the node, under the condition of the
path so far. -/
def Marks (g : Graph) (c : BindingId) (n : NodeId) (parent : Option BindingId)
    (agreeing : List BindingId) : Prop :=
  ∃ sets, (g.binding c).origins = [⟨n, sets⟩] ∧
    ∀ s, s ∈ sets ↔ ∃ a ∈ agreeing, s = SourceSet.ofList (a :: parent.toList)

theorem Marks.congr {g g' : Graph} {c : BindingId} {n : NodeId} {parent : Option BindingId}
    {agreeing : List BindingId} (h : g.Marks c n parent agreeing)
    (hc : g'.binding c = g.binding c) : g'.Marks c n parent agreeing := by
  unfold Marks
  rw [hc]
  exact h

variable {g g' : Graph} {n : NodeId} {parent : Option BindingId} {agreeing : List BindingId}
  {total : Nat} {c : BindingId}

/-- Mark one more binding. -/
def mark (marker : VarId) (n : NodeId) (parent : Option BindingId) :
    Condition × Graph → BindingId → Condition × Graph
  | (_, g), b =>
    let (m, g) := g.addBinding marker .marker (b :: parent.toList) n
    (.holds m, g)

/-- The variable of a marker is bound to that marker. -/
private structure Marking (g g' : Graph) (marker : VarId) (n : NodeId) (parent : Option BindingId)
    (agreeing : List BindingId) : Prop where
  bound : g.Bound g'
  size_eq : g'.bindings.size = g.bindings.size + 1
  kept : ∀ a < g.bindings.size, g'.binding a = g.binding a
  found : g'.bindingTo? marker .marker = some g.bindings.size
  marks : g'.Marks g.bindings.size n parent agreeing

private theorem marking_first (b : BindingId) :
    let r := mark g.vars.size n parent (.unrestricted, (g.newVariable "condition").2) b
    r.1 = .holds g.bindings.size ∧ Marking g r.2 g.vars.size n parent [b] := by
  let g₁ := (g.newVariable "condition").2
  have hnone : g₁.bindingTo? g.vars.size .marker = none := by
    rw [bindingTo?_newVariable]
    exact bindingTo?_eq_none (Nat.le_refl _) .marker
  have hindex := addBinding_bindingTo? (g := g₁) g.vars.size .marker (b :: parent.toList) n
    g.vars.size .marker
  obtain ⟨g', he, hsize, _, hnew, hold, _⟩ :=
    addBinding_new .marker (b :: parent.toList) n hnone
  have hb := addBinding_bound (g := g₁) g.vars.size .marker (b :: parent.toList) n
  have hmark : mark g.vars.size n parent (.unrestricted, g₁) b = (.holds g.bindings.size, g') := by
    simp only [mark, he]
    rfl
  simp only [g₁] at hmark
  rw [hmark]
  rw [he] at hb hindex
  have hg : g.Bound g₁ := .of_nodes rfl
  refine ⟨rfl, hg.trans hb, hsize, fun a ha => ?_, ?_, [.ofList (b :: parent.toList)], ?_, ?_⟩
  · exact (hold a (Nat.ne_of_lt ha)).trans (binding_congr rfl)
  · exact hindex.trans (if_pos ⟨rfl, by simp [g₁, newVariable], rfl⟩)
  · exact congrArg Binding.origins hnew
  · simp

private theorem marking_next {marker : VarId} {cond : Condition} (b : BindingId)
    (h : Marking g g' marker n parent agreeing) :
    (mark marker n parent (cond, g') b).1 = .holds g.bindings.size ∧
      Marking g (mark marker n parent (cond, g') b).2 marker n parent (agreeing ++ [b]) := by
  let sources := b :: parent.toList
  have hmark : mark marker n parent (cond, g') b =
      (.holds g.bindings.size, g'.addOrigin g.bindings.size n sources) := by
    simp only [mark, addBinding_old sources n h.found, sources]
  have hlt : g.bindings.size < g'.bindings.size := by simp [h.size_eq]
  obtain ⟨sets, horigins, hsets⟩ := h.marks
  rw [hmark]
  refine ⟨rfl, h.bound.trans (addOrigin_bound sources), ?_, fun a ha => ?_, h.found,
    if sets.contains (.ofList sources) then sets else sets ++ [.ofList sources], ?_, fun s => ?_⟩
  · simpa [addOrigin] using h.size_eq
  · rw [addOrigin_binding, if_neg fun he => Nat.ne_of_lt ha he.1]
    exact h.kept a ha
  · rw [addOrigin_binding, if_pos ⟨rfl, hlt⟩, horigins]
    simp [addSources]
  · have hmem : s ∈ (if sets.contains (.ofList sources) then sets else sets ++ [.ofList sources]) ↔
        s ∈ sets ∨ s = .ofList sources := by
      split_ifs with hin
      · have hin : SourceSet.ofList sources ∈ sets := by simpa using hin
        exact ⟨.inl, fun h => h.elim id fun h => h ▸ hin⟩
      · simp
    rw [hmem, hsets]
    constructor
    · rintro (⟨a, ha, he⟩ | he)
      · exact ⟨a, List.mem_append_left _ ha, he⟩
      · exact ⟨b, List.mem_append_right _ (List.mem_singleton_self b), he⟩
    · rintro ⟨a, ha, he⟩
      rcases List.mem_append.mp ha with ha | ha
      · exact .inl ⟨a, ha, he⟩
      · obtain rfl := List.mem_singleton.mp ha
        exact .inr he

private theorem marking_all {marker : VarId} {cond : Condition} (bs : List BindingId)
    (hcond : cond = .holds g.bindings.size) (h : Marking g g' marker n parent agreeing) :
    (bs.foldl (mark marker n parent) (cond, g')).1 = .holds g.bindings.size ∧
      Marking g (bs.foldl (mark marker n parent) (cond, g')).2 marker n parent
        (agreeing ++ bs) := by
  induction bs generalizing cond g' agreeing with
  | nil => exact ⟨hcond, by simpa using h⟩
  | cons b bs ih =>
    obtain ⟨hc, hm⟩ : (mark marker n parent (cond, g') b).1 = _ ∧ _ := marking_next b h
    have := ih hc hm
    simpa [List.append_assoc] using this

theorem conditionOf_eq_foldl (hne : agreeing ≠ []) (htotal : agreeing.length ≠ total) :
    g.conditionOf n parent agreeing total =
      agreeing.foldl (mark g.vars.size n parent)
        (.unrestricted, (g.newVariable "condition").2) := by
  unfold conditionOf
  rw [if_neg (by simpa using hne), if_neg (by simpa using htotal)]
  rfl

/-- Which condition a side gets. -/
theorem conditionOf_cases (g : Graph) (n : NodeId) (parent : Option BindingId)
    (agreeing : List BindingId) (total : Nat) :
    agreeing = [] ∧ g.conditionOf n parent agreeing total = (.unsatisfiable, g) ∨
      agreeing ≠ [] ∧ agreeing.length = total ∧
        g.conditionOf n parent agreeing total = (.unrestricted, g) ∨
      agreeing ≠ [] ∧ agreeing.length ≠ total ∧
        ∃ g', g.conditionOf n parent agreeing total = (.holds g.bindings.size, g') ∧
          g.Bound g' ∧ (∀ a < g.bindings.size, g'.binding a = g.binding a) ∧
          g'.bindings.size = g.bindings.size + 1 ∧ g'.Marks g.bindings.size n parent agreeing := by
  cases agreeing with
  | nil => exact .inl ⟨rfl, rfl⟩
  | cons b bs =>
    refine .inr ?_
    by_cases htotal : (b :: bs).length = total
    · exact .inl ⟨List.cons_ne_nil b bs, htotal, by simp [conditionOf, htotal]⟩
    · have hne := List.cons_ne_nil b bs
      obtain ⟨hfirst, hm⟩ : _ ∧ Marking g _ g.vars.size n parent [b] := marking_first b
      obtain ⟨hc, hm⟩ := marking_all bs hfirst hm
      rw [conditionOf_eq_foldl hne htotal, List.foldl_cons]
      exact .inr ⟨hne, htotal, _, Prod.ext hc rfl, hm.bound, hm.kept, hm.size_eq,
        hm.marks⟩

theorem conditionOf_bound : g.Bound (g.conditionOf n parent agreeing total).2 := by
  rcases g.conditionOf_cases n parent agreeing total with
    ⟨_, he⟩ | ⟨_, _, he⟩ | ⟨_, _, g', he, hb, _⟩
  · exact he ▸ .refl g
  · exact he ▸ .refl g
  · exact he ▸ hb

theorem conditionOf_kept {a : BindingId} (ha : a < g.bindings.size) :
    (g.conditionOf n parent agreeing total).2.binding a = g.binding a := by
  rcases g.conditionOf_cases n parent agreeing total with
    ⟨_, he⟩ | ⟨_, _, he⟩ | ⟨_, _, g', he, _, hk, _⟩
  · rw [he]
  · rw [he]
  · rw [he, ← hk a ha]

theorem conditionOf_size_le :
    g.bindings.size ≤ (g.conditionOf n parent agreeing total).2.bindings.size := by
  rcases g.conditionOf_cases n parent agreeing total with
    ⟨_, he⟩ | ⟨_, _, he⟩ | ⟨_, _, g', he, _, _, hs, _⟩
  · exact he ▸ Nat.le_refl _
  · exact he ▸ Nat.le_refl _
  · rw [he, hs]
    exact Nat.le_succ _

end Graph

def Store.agreeing (s : Store) (g : Graph) (n : NodeId) (v : VarId) (side : Bool) :
    List BindingId :=
  (g.visible v n).filter fun b => s.compatibleWith g (g.dataOf b) side

/-- What a side of a branch asks for: all bindings of one of these lists. -/
def Store.asks (s : Store) (g : Graph) (n : NodeId) (parent : Option BindingId) (v : VarId)
    (side : Bool) : List (List BindingId) :=
  let agreeing := s.agreeing g n v side
  if agreeing.length = (g.visible v n).length then [parent.toList]
  else agreeing.map (· :: parent.toList)

namespace Store

def sideOf (s : Store) (g : Graph) (n : NodeId) (parent : Option BindingId) (v : VarId)
    (side : Bool) : Condition :=
  if side then (s.split g n parent v).1 else (s.split g n parent v).2.1

variable {s : Store} {g : Graph} {n : NodeId} {parent : Option BindingId} {v : VarId}
  {side : Bool}

theorem split_bound : g.Bound (s.split g n parent v).2.2 := by
  unfold split
  dsimp only
  split_ifs
  · exact .refl g
  · exact Graph.conditionOf_bound.trans Graph.conditionOf_bound

/-- A side has no condition of its own if all that is visible agrees with it, and else it has a
marker for what agrees, if anything does. -/
theorem sideOf_cases (s : Store) (g : Graph) (n : NodeId) (parent : Option BindingId) (v : VarId)
    (side : Bool) :
    s.sideOf g n parent v side = .unsatisfiable ∧ s.agreeing g n v side = [] ∧ g.visible v n ≠ [] ∨
      s.sideOf g n parent v side = .unrestricted ∧
        (s.agreeing g n v side).length = (g.visible v n).length ∨
      (s.agreeing g n v side).length ≠ (g.visible v n).length ∧
        ∃ c, s.sideOf g n parent v side = .holds c ∧ g.bindings.size ≤ c ∧
          (s.split g n parent v).2.2.Marks c n parent (s.agreeing g n v side) := by
  by_cases hnil : g.visible v n = []
  · refine .inr (.inl ⟨?_, by simp [agreeing, hnil]⟩)
    cases side <;> simp [sideOf, split, hnil]
  · let g₁ := (g.conditionOf n parent (s.agreeing g n v true) (g.visible v n).length).2
    have hsplit : s.split g n parent v =
        ((g.conditionOf n parent (s.agreeing g n v true) (g.visible v n).length).1,
          g₁.conditionOf n parent (s.agreeing g n v false) (g.visible v n).length) := by
      unfold split
      dsimp only
      rw [if_neg (by simpa using hnil)]
      rfl
    cases side with
    | true =>
      have hside : s.sideOf g n parent v true = (g.conditionOf n parent (s.agreeing g n v true)
          (g.visible v n).length).1 := by simp only [sideOf, if_true, hsplit]
      rw [hside, hsplit]
      rcases g.conditionOf_cases n parent (s.agreeing g n v true) (g.visible v n).length with
        ⟨ha, he⟩ | ⟨_, hl, he⟩ | ⟨_, hl, g', he, _, _, hsize, hm⟩
      · exact .inl ⟨congrArg Prod.fst he, ha, hnil⟩
      · exact .inr (.inl ⟨congrArg Prod.fst he, hl⟩)
      · obtain rfl : g₁ = g' := congrArg Prod.snd he
        have hlt : g.bindings.size < g₁.bindings.size := by simp [hsize]
        exact .inr (.inr ⟨hl, _, congrArg Prod.fst he, Nat.le_refl _,
          hm.congr (Graph.conditionOf_kept hlt)⟩)
    | false =>
      have hside : s.sideOf g n parent v false = (g₁.conditionOf n parent (s.agreeing g n v false)
          (g.visible v n).length).1 := by simp [sideOf, hsplit]
      rw [hside, hsplit]
      rcases g₁.conditionOf_cases n parent (s.agreeing g n v false) (g.visible v n).length with
        ⟨ha, he⟩ | ⟨_, hl, he⟩ | ⟨_, hl, g', he, _, _, _, hm⟩
      · exact .inl ⟨congrArg Prod.fst he, ha, hnil⟩
      · exact .inr (.inl ⟨congrArg Prod.fst he, hl⟩)
      · exact .inr (.inr ⟨hl, _, congrArg Prod.fst he, Graph.conditionOf_size_le, he ▸ hm⟩)

end Store

end ValueTrace
