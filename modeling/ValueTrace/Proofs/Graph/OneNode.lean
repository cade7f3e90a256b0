import ValueTrace.Proofs.Absorption.Variables
import ValueTrace.Proofs.Graph.Coherence

/-!
# Variables that are bound at one node

What such a variable shows there depends on what justifies its bindings, if it had none before. What
is asked about other bindings is answered as if it had none still.
-/

namespace ValueTrace.Graph

/-- A variable is bound at the node, and there to these values for these reasons. -/
structure BoundTo (g : Graph) (v : VarId) (n : NodeId) (P : DataId → SourceSet → Prop) : Prop where
  begun : ∀ c ∈ g.allBindings v, ((g.binding c).originAt? n).isSome
  sets : ∀ d s, P d s ↔ ∃ c ∈ g.allBindings v, g.dataOf c = d ∧ s ∈ (g.binding c).setsAt n

/-- The variable has a binding to the value that can hold at the node together with the goals. -/
def Admits (g : Graph) (n : NodeId) (v : VarId) (d : DataId) (goals : Set BindingId) : Prop :=
  ∃ c ∈ g.allBindings v, g.dataOf c = d ∧ g.CanHold n (insert c goals)

/-- A graph has grown at the variable, which nothing was bound to, and at new ones. -/
structure GrowsAt (g g' : Graph) (w : VarId) : Prop where
  nodes_le : g.nodes.size ≤ g'.nodes.size
  vars_le : g.vars.size ≤ g'.vars.size
  bindings_le : g.bindings.size ≤ g'.bindings.size
  incoming : ∀ n < g.nodes.size, (g'.node n).incoming = (g.node n).incoming
  condition : ∀ n < g.nodes.size, (g'.node n).condition = (g.node n).condition
  kept : ∀ b < g.bindings.size, g'.binding b = g.binding b
  unbound : ∀ b < g.bindings.size, (g.binding b).var ≠ w
  assigns : ∀ n < g.nodes.size, ∀ v < g.vars.size, v ≠ w →
    (g'.node n).assigns v = (g.node n).assigns v
  listed : ∀ v < g.vars.size, v ≠ w → g'.allBindings v = g.allBindings v

variable {g g' g'' : Graph} {n : NodeId} {v w : VarId} {d : DataId} {b c : BindingId}
  {P : DataId → SourceSet → Prop} {sources : List BindingId} {goals : Set BindingId}
  {region : Set NodeId} {asked : Set BindingId} {name : String}

namespace GrowsAt

theorem refl (h : ∀ b < g.bindings.size, (g.binding b).var ≠ w) : g.GrowsAt g w :=
  ⟨le_rfl, le_rfl, le_rfl, fun _ _ => rfl, fun _ _ => rfl, fun _ _ => rfl, h, fun _ _ _ _ _ => rfl,
    fun _ _ _ => rfl⟩

theorem addBinding (h : g.GrowsAt g' w) (hw : g'.WellFormed) (d : DataId)
    (sources : List BindingId) (n : NodeId) : g.GrowsAt (g'.addBinding w d sources n).2 w := by
  have hbound := addBinding_bound (g := g') w d sources n
  have hassigns := (addBinding_assigns (hw.lists w) d sources n).2
  have hgrows := Grows.addBinding g' w d sources n
  have hvar (b : BindingId) (hb : b < g.bindings.size) : (g'.binding b).var ≠ w := by
    rw [h.kept b hb]
    exact h.unbound b hb
  refine ⟨h.nodes_le.trans hgrows.nodes_le, h.vars_le.trans hgrows.vars_le,
    h.bindings_le.trans hgrows.bindings_le, fun n hn => (hbound.incoming n).trans (h.incoming n hn),
    fun n hn => (hbound.condition n).trans (h.condition n hn), fun b hb => ?_, h.unbound,
    fun n hn v hv hne => ?_, fun v hv hne => ?_⟩
  · rw [← h.kept b hb]
    exact addBinding_kept hw (hb.trans_le h.bindings_le) (hvar b hb) d sources n
  · rw [← h.assigns n hn v hv hne, Bool.eq_iff_iff, hassigns]
    exact or_iff_left fun he => hne he.2.2
  · rw [← h.listed v hv hne]
    exact addBinding_listed hne d sources n

/-- All that was asked of a graph is answered as before. -/
theorem agreeOn (h : g.GrowsAt g' w) (hw : g.WellFormed) (hc : g.Closed) :
    g.AgreeOn g' {n | n < g.nodes.size} {b | b < g.bindings.size} where
  closed n _ p hp := hw.incoming n p hp
  incoming n hn := h.incoming n hn
  condition n hn := h.condition n hn
  origin b hb n _ := by rw [h.kept b hb]
  var b hb _ := by rw [h.kept b hb]
  assigns b hb _ n hn := h.assigns n hn _ (hw.var b hb) (h.unbound b hb)
  condition_mem _ _ _ hn := hc.condition hn
  source_mem _ _ _ _ _ ho _ hs _ hcs := hc.source ho hs hcs

theorem visible_eq (h : g.GrowsAt g' w) (hw : g.WellFormed) (hc : g.Closed) (hv : v < g.vars.size)
    (hn : n < g.nodes.size) (hne : v ≠ w) : g'.visible v n = g.visible v n := by
  rw [visible_eq_filter, visible_eq_filter, h.listed v hv hne]
  exact List.filter_congr fun b hb => (h.agreeOn hw hc).isVisible_eq hn (hw.listed v b hb).1

theorem visibleData_eq (h : g.GrowsAt g' w) (hw : g.WellFormed) (hc : g.Closed)
    (hv : v < g.vars.size) (hn : n < g.nodes.size) (hne : v ≠ w) :
    g'.visibleData v n = g.visibleData v n := by
  unfold visibleData
  rw [h.visible_eq hw hc hv hn hne]
  refine List.map_congr_left fun b hb => ?_
  unfold dataOf
  rw [h.kept b (hw.listed v b (mem_of_mem_visible hb)).1]

end GrowsAt

/-- A variable that is bound to one value shows it, also after another variable has been bound. -/
theorem BoundBy.visibleData_growsAt {s : SourceSet} (h : g.BoundBy n v d c s)
    (hg : g.GrowsAt g' w) (hw : g.WellFormed) (hc : g.Closed) (hn : n < g.nodes.size)
    (hs : g.CanHold n {a | a ∈ s}) : g'.visibleData v n = [d] := by
  obtain ⟨hlt, hvar⟩ := hw.listed v c h.listed
  have hne : v ≠ w := fun he => hg.unbound c hlt (hvar.trans he)
  exact (hg.visibleData_eq hw hc h.lt hn hne).trans (h.visibleData_eq hw hs)

theorem mem_visible_iff : c ∈ g.visible v n ↔ c ∈ g.allBindings v ∧ g.CanHold n {c} := by
  rw [visible_eq_filter, List.mem_filter, isVisible_iff]

theorem mem_visibleData_iff_admits : d ∈ g.visibleData v n ↔ g.Admits n v d ∅ := by
  unfold visibleData Admits
  simp only [List.mem_map, mem_visible_iff, insert_empty_eq]
  exact exists_congr fun c => by tauto

namespace BoundTo

theorem of_unbound (h : g.allBindings v = []) : g.BoundTo v n fun _ _ => False :=
  ⟨fun c hc => by simp [h] at hc, fun d s => by simp [h]⟩

theorem congr {Q : DataId → SourceSet → Prop} (h : g.BoundTo v n P) (hQ : ∀ d s, P d s ↔ Q d s) :
    g.BoundTo v n Q := ⟨h.begun, fun d s => (hQ d s).symm.trans (h.sets d s)⟩

/-- Another reason to bind the variable to a value. -/
theorem addBinding (h : g.BoundTo v n P) (hw : g.WellFormed) (hv : v < g.vars.size) (d : DataId)
    (sources : List BindingId) : (g.addBinding v d sources n).2.BoundTo v n fun e s =>
      P e s ∨ e = d ∧ s = .ofList sources := by
  cases hb : g.bindingTo? v d with
  | some b =>
    obtain ⟨hmem, hdata⟩ := (hw.found v d b).mp hb
    have hlt := (hw.listed v b hmem).1
    rw [addBinding_old sources n hb]
    have hkept (c : BindingId) : (g.addOrigin b n sources).dataOf c = g.dataOf c := by
      unfold dataOf
      rw [addOrigin_binding]
      split_ifs <;> rfl
    have hsets (c : BindingId) (s : SourceSet) :
        s ∈ ((g.addOrigin b n sources).binding c).setsAt n ↔
          s ∈ (g.binding c).setsAt n ∨ c = b ∧ s = .ofList sources := by
      rw [addOrigin_binding]
      by_cases hc : c = b
      · subst hc
        rw [if_pos ⟨rfl, hlt⟩, setsAt_addSources]
        split
        · next hs =>
          refine (or_iff_left_of_imp ?_).symm
          rintro ⟨-, rfl⟩
          exact List.contains_iff_mem.mp hs
        · simp
      · simp [hc]
    refine ⟨fun c hc => ?_, fun e s => ?_⟩
    · rw [addOrigin_binding]
      split_ifs
      · exact originAt?_addSources_self
      · exact h.begun c hc
    · change P e s ∨ e = d ∧ s = .ofList sources ↔ ∃ c ∈ g.allBindings v, _
      rw [h.sets]
      constructor
      · rintro (⟨c, hc, rfl, hs⟩ | ⟨rfl, rfl⟩)
        · exact ⟨c, hc, hkept c, (hsets c s).mpr (.inl hs)⟩
        · exact ⟨b, hmem, (hkept b).trans hdata, (hsets b _).mpr (.inr ⟨rfl, rfl⟩)⟩
      · rintro ⟨c, hc, rfl, hs⟩
        rcases (hsets c s).mp hs with hs | ⟨rfl, rfl⟩
        · exact .inl ⟨c, hc, (hkept c).symm, hs⟩
        · exact .inr ⟨(hkept c).trans hdata, rfl⟩
  | none =>
    obtain ⟨k, hk, -, -, hnew, hold, hlist, -⟩ := addBinding_new d sources n hb
    rw [hk]
    have hall : k.allBindings v = g.allBindings v ++ [g.bindings.size] := by
      rw [hlist, if_pos ⟨rfl, hv⟩]
    have hkept (c : BindingId) (hc : c ∈ g.allBindings v) : k.binding c = g.binding c :=
      hold c (Nat.ne_of_lt (hw.listed v c hc).1)
    have hsets : (k.binding g.bindings.size).setsAt n = [.ofList sources] := by
      simp [hnew, Binding.setsAt, Binding.originAt?]
    refine ⟨fun c hc => ?_, fun e s => ?_⟩
    · change c ∈ k.allBindings v at hc
      change ((k.binding c).originAt? n).isSome
      rw [hall] at hc
      rcases List.mem_append.mp hc with hc | hc
      · rw [hkept c hc]
        exact h.begun c hc
      · obtain rfl := List.mem_singleton.mp hc
        simp [hnew, Binding.originAt?]
    · change _ ↔ ∃ c ∈ k.allBindings v, (k.binding c).data = e ∧ s ∈ (k.binding c).setsAt n
      rw [h.sets, hall]
      constructor
      · rintro (⟨c, hc, rfl, hs⟩ | ⟨rfl, rfl⟩)
        · rw [← hkept c hc] at hs
          exact ⟨c, List.mem_append_left _ hc, congrArg Binding.data (hkept c hc), hs⟩
        · refine ⟨_, List.mem_append_right _ List.mem_cons_self, congrArg Binding.data hnew, ?_⟩
          rw [hsets]
          exact List.mem_singleton_self _
      · rintro ⟨c, hc, rfl, hs⟩
        rcases List.mem_append.mp hc with hc | hc
        · rw [hkept c hc] at hs ⊢
          exact .inl ⟨c, hc, rfl, hs⟩
        · obtain rfl := List.mem_singleton.mp hc
          rw [hsets] at hs
          exact .inr ⟨congrArg Binding.data hnew, List.mem_singleton.mp hs⟩

theorem bindAll (h : g.BoundTo v n P) (hb : g.Built) (hv : v < g.vars.size)
    (hn : n < g.nodes.size) (entries : List (DataId × List BindingId)) :
    (g.bindAll v n entries).BoundTo v n fun d s =>
      P d s ∨ ∃ e ∈ entries, d = e.1 ∧ s = .ofList e.2 := by
  induction entries generalizing g P with
  | nil => exact h.congr fun d s => by simp
  | cons e entries ih =>
    have hgrows := Grows.addBinding g v e.1 e.2 n
    refine (ih (h.addBinding hb.wellFormed hv e.1 e.2) (hb.binding e.1 e.2 hv hn)
      (hv.trans_le hgrows.vars_le) (hn.trans_le hgrows.nodes_le)).congr fun d s => ?_
    rw [or_assoc, List.exists_mem_cons_iff]

/-- A binding of the variable holds together with others if one of its reasons does. -/
theorem canHold_insert_iff (h : g'.BoundTo v n P) (hg : g.AgreeOn g' region asked) (hn : n ∈ region)
    (hP : ∀ d s, P d s → ∀ a ∈ s, a ∈ asked) (hother : ∀ a ∈ asked, (g'.binding a).var ≠ v)
    (hw : g'.WellFormed) (hc : c ∈ g'.allBindings v) (hgoals : goals ⊆ asked) :
    g'.CanHold n (insert c goals) ↔
      ∃ s ∈ (g'.binding c).setsAt n, g.CanHold n (goals ∪ {a | a ∈ s}) := by
  obtain ⟨o, ho⟩ := Option.isSome_iff_exists.mp (h.begun c hc)
  have hsets : (g'.binding c).setsAt n = o.sourceSets := by simp [Binding.setsAt, ho]
  have hasked (s : SourceSet) (hs : s ∈ o.sourceSets) : goals ∪ {a | a ∈ s} ⊆ asked := by
    refine Set.union_subset hgoals fun a ha => ?_
    exact hP _ s ((h.sets _ s).mpr ⟨c, hc, rfl, hsets ▸ hs⟩) a ha
  -- Whatever the reasons lead to has been asked for before, so it is of other variables.
  rw [canHold_insert_iff_of_seen ho fun s hs choice e hholds hseen hv => absurd
    (hv.trans (hw.listed v c hc).2) (hother e (hg.symm.seen_mem hn hholds.1 (hasked s hs) hseen)),
    hsets]
  refine exists_congr fun s => and_congr_right fun hs => ?_
  exact hg.canHold_iff hn (hasked s hs)

/-- The variable admits a value if one of the reasons for it holds. -/
theorem admits_iff (h : g'.BoundTo v n P) (hg : g.AgreeOn g' region asked) (hn : n ∈ region)
    (hP : ∀ d s, P d s → ∀ a ∈ s, a ∈ asked) (hother : ∀ a ∈ asked, (g'.binding a).var ≠ v)
    (hw : g'.WellFormed) (hgoals : goals ⊆ asked) :
    g'.Admits n v d goals ↔ ∃ s, P d s ∧ g.CanHold n (goals ∪ {a | a ∈ s}) := by
  constructor
  · rintro ⟨c, hc, rfl, hhold⟩
    obtain ⟨s, hs, hhold⟩ := (h.canHold_insert_iff hg hn hP hother hw hc hgoals).mp hhold
    exact ⟨s, (h.sets _ s).mpr ⟨c, hc, rfl, hs⟩, hhold⟩
  · rintro ⟨s, hs, hhold⟩
    obtain ⟨c, hc, rfl, hset⟩ := (h.sets d s).mp hs
    exact ⟨c, hc, rfl, (h.canHold_insert_iff hg hn hP hother hw hc hgoals).mpr ⟨s, hset, hhold⟩⟩

end BoundTo

theorem Built.bindAll (hb : g.Built) (hv : v < g.vars.size) (hn : n < g.nodes.size)
    (entries : List (DataId × List BindingId)) : (g.bindAll v n entries).Built := by
  induction entries generalizing g with
  | nil => exact hb
  | cons e entries ih =>
    have hgrows := Grows.addBinding g v e.1 e.2 n
    exact ih (hb.binding e.1 e.2 hv hn) (hv.trans_le hgrows.vars_le) (hn.trans_le hgrows.nodes_le)

/-- A variable that nothing was bound to is bound again and again, and no other one is. -/
theorem bindAll_growsAt {k : Graph} (hk : k.WellFormed) (hle : k.Widens g') (hnew : k.vars.size ≤ w)
    (hb : g'.Built) (hw : w < g'.vars.size) (hn : n < g'.nodes.size) (hg : g.GrowsAt g' w)
    (hto : g'.BoundTo w n P) (entries : List (DataId × List BindingId)) :
    (g'.bindAll w n entries).Built ∧ k.Widens (g'.bindAll w n entries) ∧
      g.GrowsAt (g'.bindAll w n entries) w ∧ (g'.bindAll w n entries).BoundTo w n fun d s =>
        P d s ∨ ∃ e ∈ entries, d = e.1 ∧ s = .ofList e.2 := by
  have hgrown : k.Widens (g'.bindAll w n entries) ∧ g.GrowsAt (g'.bindAll w n entries) w := by
    clear hto
    induction entries generalizing g' with
    | nil => exact ⟨hle, hg⟩
    | cons e entries ih =>
      have hwf := hb.wellFormed
      have hgrows := Grows.addBinding g' w e.1 e.2 n
      exact ih (hle.addBinding hk hwf hnew e.1 e.2 n) (hb.binding e.1 e.2 hw hn)
        (hw.trans_le hgrows.vars_le) (hn.trans_le hgrows.nodes_le) (hg.addBinding hwf e.1 e.2 n)
  exact ⟨hb.bindAll hw hn entries, hgrown.1, hgrown.2, hto.bindAll hb hw hn entries⟩

end ValueTrace.Graph
