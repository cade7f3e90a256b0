import ValueTrace.Proofs.Graph.Data
import ValueTrace.Proofs.Graph.NewVariables

/-!
# Variables that are bound to one value only

Such a variable has one binding at most, so no two of its bindings can be in each other's way. It
holds the value at a node if what justifies it there can hold there.
-/

namespace ValueTrace.Graph

/-- A graph has grown, and the variables that were there have got no further bindings. -/
structure Widens (g g' : Graph) : Prop extends Extends g g' where
  listed : ∀ v < g.vars.size, g'.allBindings v = g.allBindings v

/-- Whatever binds the variable binds it to this value, and nothing else does so. -/
def OnlyBinds (g : Graph) (v : VarId) (d : DataId) : Prop :=
  ∀ b < g.bindings.size, (g.binding b).var = v → g.allBindings v = [b] ∧ g.dataOf b = d

/-- The variable is bound to this value only, and at the node this set justifies its binding. -/
structure BoundBy (g : Graph) (n : NodeId) (v : VarId) (d : DataId) (b : BindingId)
    (s : SourceSet) : Prop where
  only : g.OnlyBinds v d
  listed : b ∈ g.allBindings v
  justified : s ∈ (g.binding b).setsAt n

variable {g g' g'' : Graph} {n : NodeId} {v w : VarId} {d : DataId} {b : BindingId}
  {s : SourceSet} {sources : List BindingId} {name : String}

namespace Widens

theorem refl (g : Graph) : g.Widens g := ⟨.refl g, fun _ _ => rfl⟩

theorem trans (h : g.Widens g') (h' : g'.Widens g'') : g.Widens g'' :=
  ⟨h.toExtends.trans h'.toExtends, fun v hv =>
    (h'.listed v (hv.trans_le h.vars_le)).trans (h.listed v hv)⟩

theorem newVariable (h : g.Widens g') (name : String) : g.Widens (g'.newVariable name).2 :=
  ⟨h.toExtends.newVariable name, fun v hv =>
    (allBindings_newVariable g' name v).trans (h.listed v hv)⟩

theorem addBinding (h : g.Widens g') (hw : g.WellFormed) (hw' : g'.WellFormed)
    (hv : g.vars.size ≤ v) (d : DataId) (sources : List BindingId) (n : NodeId) :
    g.Widens (g'.addBinding v d sources n).2 := by
  refine ⟨h.toExtends.addBinding hw hw' hv d sources n, fun w hlt => ?_⟩
  rw [← h.listed w hlt]
  exact addBinding_listed (Nat.ne_of_lt (hlt.trans_le hv)) d sources n

theorem pasteBindings (h : g.Widens g') (hw : g.WellFormed) (hb : g'.Built) (hv : g.vars.size ≤ v)
    (hv' : v < g'.vars.size) (hn : n < g'.nodes.size) (bs : List BindingId) :
    g.Widens (g'.pasteBindings v bs n) := by
  induction bs generalizing g' with
  | nil => exact h
  | cons b bs ih =>
    have hgrows := Grows.addBinding g' v (g'.dataOf b) [b] n
    exact ih (h.addBinding hw hb.wellFormed hv _ _ n) (hb.binding _ _ hv' hn)
      (hv'.trans_le hgrows.vars_le) (hn.trans_le hgrows.nodes_le)

theorem pasteVariable (h : g.Widens g') (hw : g.WellFormed) (hb : g'.Built) (hv : g.vars.size ≤ v)
    (hv' : v < g'.vars.size) (hn : n < g'.nodes.size) (w : VarId) :
    g.Widens (g'.pasteVariable v w n) := by
  unfold Graph.pasteVariable
  split
  · exact h
  · exact h.pasteBindings hw hb hv hv' hn _

/-- The variables that were there are bound to what they were bound to. -/
theorem connectNew (hw : g.WellFormed) {src k : NodeId} {condition : Option BindingId}
    (h : Graph.connectNew src name condition g = .ok k g') : g.Widens g' := by
  obtain ⟨-, hl, -⟩ := connectNew_ok h
  refine ⟨(connectNew_extends hw h).1, fun v _ => ?_⟩
  unfold allBindings Graph.var
  rw [hl.vars]

theorem allData_eq (h : g.Widens g') (hw : g.WellFormed) (hv : v < g.vars.size) :
    g'.allData v = g.allData v := by
  unfold allData
  rw [h.listed v hv]
  refine List.map_congr_left fun b hb => ?_
  unfold dataOf
  rw [h.kept b (hw.listed v b hb).1]

/-- What could be held before can be held still. -/
theorem visible_eq (h : g.Widens g') (hw : g.WellFormed) (hc : g.Closed) (hv : v < g.vars.size)
    (hn : n < g.nodes.size) : g'.visible v n = g.visible v n := by
  rw [visible_eq_filter, visible_eq_filter, h.listed v hv]
  exact List.filter_congr fun b hb =>
    (h.toExtends.agreeOn hw hc).isVisible_eq hn (hw.listed v b hb).1

theorem visibleData_eq (h : g.Widens g') (hw : g.WellFormed) (hc : g.Closed)
    (hv : v < g.vars.size) (hn : n < g.nodes.size) : g'.visibleData v n = g.visibleData v n := by
  unfold visibleData
  rw [h.visible_eq hw hc hv hn]
  refine List.map_congr_left fun b hb => ?_
  unfold dataOf
  rw [h.kept b (hw.listed v b (mem_of_mem_visible hb)).1]

theorem canHold_iff (h : g.Widens g') (hw : g.WellFormed) (hc : g.Closed) (hn : n < g.nodes.size)
    {goals : Set BindingId} (hgoals : ∀ b ∈ goals, b < g.bindings.size) :
    g'.CanHold n goals ↔ g.CanHold n goals :=
  (h.toExtends.agreeOn hw hc).canHold_iff hn hgoals

end Widens

/-- Only at a node that is there can anything be held. -/
theorem lt_of_mem_visible (hw : g.WellFormed) (h : b ∈ g.visible v n) :
    n < g.nodes.size ∧ v < g.vars.size := by
  have hlisted := mem_of_mem_visible h
  rw [visible_eq_filter] at h
  have hhold := (isVisible_iff g b n).mp (List.mem_filter.mp h).2
  constructor
  · by_contra hn
    have hnone (b : BindingId) : (g.binding b).originAt? n = none := by
      by_contra ho
      exact hn (hw.origin b n (Option.isSome_iff_ne_none.mpr ho))
    cases hhold with
    | here choice _ hc => exact hc b ⟨.goal rfl, hnone b⟩
    | before choice p _ hp =>
      rw [node_eq_default (Nat.le_of_not_lt hn)] at hp
      cases hp
  · by_contra hv
    rw [allBindings_eq_nil (Nat.le_of_not_lt hv)] at hlisted
    cases hlisted

namespace OnlyBinds

theorem newVariable (hw : g.WellFormed) (name : String) (d : DataId) :
    (g.newVariable name).2.OnlyBinds (g.newVariable name).1 d :=
  fun b hb hv => absurd (hw.var b hb) (hv ▸ Nat.lt_irrefl g.vars.size)

theorem widens (h : g.OnlyBinds v d) (hg : g.Widens g') (hv : v < g.vars.size) :
    g'.OnlyBinds v d := by
  intro b hb hbv
  rcases Nat.lt_or_ge b g.bindings.size with hold | hnew
  · rw [hg.kept b hold] at hbv
    obtain ⟨hlist, hdata⟩ := h b hold hbv
    refine ⟨(hg.listed v hv).trans hlist, ?_⟩
    unfold dataOf
    rw [hg.kept b hold]
    exact hdata
  · have hfresh := hg.fresh b hnew hb
    rw [hbv] at hfresh
    exact absurd hfresh (Nat.not_le.mpr hv)

theorem eq_singleton (h : g.OnlyBinds v d) (hw : g.WellFormed) (hb : b ∈ g.allBindings v) :
    g.allBindings v = [b] ∧ g.dataOf b = d :=
  h b (hw.listed v b hb).1 (hw.listed v b hb).2

theorem bindingTo? (h : g.OnlyBinds v d) (hw : g.WellFormed) (hb : b ∈ g.allBindings v) :
    g.bindingTo? v d = some b := by
  exact (hw.found v d b).mpr ⟨hb, (h.eq_singleton hw hb).2⟩

/-- Binding any variable to the value changes nothing about that. -/
theorem addBinding (h : g.OnlyBinds v d) (hw : g.WellFormed) (hwv : w < g.vars.size)
    (sources : List BindingId) (n : NodeId) :
    (g.addBinding w d sources n).2.OnlyBinds v d := by
  cases hc : g.bindingTo? w d with
  | some c =>
    rw [addBinding_old sources n hc]
    intro b hb hbv
    rw [addOrigin_binding_var] at hbv
    obtain ⟨hlist, hdata⟩ := h b (by simpa [addOrigin] using hb) hbv
    refine ⟨hlist, ?_⟩
    unfold dataOf
    rw [addOrigin_binding]
    split_ifs <;> exact hdata
  | none =>
    obtain ⟨k, he, hsize, _, hnew, hold, hlist, _⟩ := addBinding_new d sources n hc
    rw [he]
    intro b hb hbv
    change b < k.bindings.size at hb
    change (k.binding b).var = v at hbv
    change k.allBindings v = [b] ∧ (k.binding b).data = d
    rcases eq_or_ne b g.bindings.size with rfl | hne
    · rw [hnew] at hbv
      obtain rfl : w = v := hbv
      have hnil : g.allBindings w = [] := List.eq_nil_iff_forall_not_mem.mpr fun a ha => by
        rw [h.bindingTo? hw ha] at hc
        cases hc
      rw [hlist, if_pos ⟨rfl, hwv⟩, hnil, hnew]
      exact ⟨rfl, rfl⟩
    · rw [hold b hne] at hbv ⊢
      have hlt : b < g.bindings.size := by omega
      obtain ⟨hsingle, hdata⟩ := h b hlt hbv
      refine ⟨?_, hdata⟩
      rw [hlist, if_neg, hsingle]
      rintro ⟨rfl, -⟩
      rw [h.bindingTo? hw (hsingle ▸ List.mem_singleton_self b)] at hc
      cases hc

/-- Once the variable is bound, the sources justify its binding. -/
theorem boundBy (h : g.OnlyBinds v d) (hw : g.WellFormed) (hv : v < g.vars.size)
    (sources : List BindingId) (n : NodeId) :
    ∃ b, (g.addBinding v d sources n).2.BoundBy n v d b (.ofList sources) := by
  have honly := h.addBinding hw hv sources n
  cases hb : g.bindingTo? v d with
  | some b =>
    have hmem : b ∈ g.allBindings v := hw.mem_of_bindingTo? hb
    rw [addBinding_old sources n hb] at honly ⊢
    refine ⟨b, honly, hmem, ?_⟩
    rw [addOrigin_binding, if_pos ⟨rfl, (hw.listed v b hmem).1⟩, setsAt_addSources]
    split
    · next hs => exact List.contains_iff_mem.mp hs
    · simp
  | none =>
    obtain ⟨k, he, _, _, hnew, _, hlist, _⟩ := addBinding_new d sources n hb
    rw [he] at honly ⊢
    refine ⟨g.bindings.size, honly, ?_, ?_⟩
    · change _ ∈ k.allBindings v
      rw [hlist, if_pos ⟨rfl, hv⟩]
      simp
    · change _ ∈ (k.binding g.bindings.size).setsAt n
      simp [hnew, Binding.setsAt, Binding.originAt?]

end OnlyBinds

namespace BoundBy

theorem lt (h : g.BoundBy n v d b s) : v < g.vars.size := by
  by_contra hv
  have hlisted := h.listed
  rw [allBindings_eq_nil (Nat.le_of_not_lt hv)] at hlisted
  cases hlisted

theorem widens (h : g.BoundBy n v d b s) (hw : g.WellFormed) (hg : g.Widens g') :
    g'.BoundBy n v d b s := by
  have hv := h.lt
  refine ⟨h.only.widens hg hv, ?_, ?_⟩
  · rw [hg.listed v hv]
    exact h.listed
  · rw [hg.kept b (hw.listed v b h.listed).1]
    exact h.justified

/-- Sets that justify a binding stay. -/
theorem addBinding (h : g.BoundBy n v d b s) (hw : g.WellFormed) (hwv : w < g.vars.size)
    (sources : List BindingId) : (g.addBinding w d sources n).2.BoundBy n v d b s := by
  have honly := h.only.addBinding hw hwv sources n
  have hlt := (hw.listed v b h.listed).1
  cases hc : g.bindingTo? w d with
  | some c =>
    rw [addBinding_old sources n hc] at honly ⊢
    refine ⟨honly, h.listed, ?_⟩
    rw [addOrigin_binding]
    split_ifs
    · rw [setsAt_addSources]
      split
      · exact h.justified
      · exact List.mem_append_left _ h.justified
    · exact h.justified
  | none =>
    obtain ⟨k, he, _, _, _, hold, hlist, _⟩ := addBinding_new d sources n hc
    rw [he] at honly ⊢
    refine ⟨honly, ?_, ?_⟩
    · change b ∈ k.allBindings v
      rw [hlist]
      split_ifs
      · exact List.mem_append_left _ h.listed
      · exact h.listed
    · change s ∈ (k.binding b).setsAt n
      rw [hold b (Nat.ne_of_lt hlt)]
      exact h.justified

theorem sole (h : g.BoundBy n v d b s) (hw : g.WellFormed) : g.Sole b := by
  intro a ha hav
  have hlt : a < g.bindings.size := by
    by_contra hout
    rw [binding, Array.getElem?_eq_none (Nat.le_of_not_lt hout)] at ha
    exact ha rfl
  obtain ⟨hsingle, -⟩ := h.only a hlt (hav.trans (hw.listed v b h.listed).2)
  have hb := h.listed
  rw [hsingle] at hb
  exact (List.mem_singleton.mp hb).symm

/-- The binding holds together with whatever the set does. -/
theorem canHold (h : g.BoundBy n v d b s) (hw : g.WellFormed) {goals : Set BindingId}
    (hs : g.CanHold n (goals ∪ {a | a ∈ s})) : g.CanHold n (insert b goals) := by
  have hjustified := h.justified
  unfold Binding.setsAt at hjustified
  cases ho : (g.binding b).originAt? n with
  | none =>
    rw [ho] at hjustified
    cases hjustified
  | some o =>
    rw [ho] at hjustified
    exact (canHold_insert_iff ho (h.sole hw)).mpr ⟨s, hjustified, hs⟩

theorem visible_eq (h : g.BoundBy n v d b s) (hw : g.WellFormed)
    (hs : g.CanHold n {a | a ∈ s}) : g.visible v n = [b] := by
  have hhold : g.CanHold n {b} := by
    rw [← insert_empty_eq]
    refine h.canHold hw ?_
    rwa [Set.empty_union]
  rw [visible_eq_filter, (h.only.eq_singleton hw h.listed).1]
  exact List.filter_eq_self.mpr fun a ha =>
    List.mem_singleton.mp ha ▸ (isVisible_iff g b n).mpr hhold

theorem visibleData_eq (h : g.BoundBy n v d b s) (hw : g.WellFormed)
    (hs : g.CanHold n {a | a ∈ s}) : g.visibleData v n = [d] := by
  unfold visibleData
  rw [h.visible_eq hw hs, List.map_singleton, (h.only.eq_singleton hw h.listed).2]

end BoundBy

end ValueTrace.Graph
