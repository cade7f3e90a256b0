import ValueTrace.Proofs.Absorption.Variables
import ValueTrace.Proofs.Visibility.Elsewhere

/-!
# Growth that alters some variables at one node

Besides new variables, some that were there have got bindings at the node. A query elsewhere sees
nothing of that unless it comes to the node, or to one behind it, with a binding that rests on one of
these variables.
-/
namespace ValueTrace.Graph

/-- A graph has grown, and of the variables that were there only those in `W` have got bindings, all
of which begin at the node `n`. -/
structure Alters (g g' : Graph) (n : NodeId) (W : Set VarId) : Prop where
  nodes_le : g.nodes.size ≤ g'.nodes.size
  vars_le : g.vars.size ≤ g'.vars.size
  bindings_le : g.bindings.size ≤ g'.bindings.size
  incoming : ∀ k < g.nodes.size, (g'.node k).incoming = (g.node k).incoming
  condition : ∀ k < g.nodes.size, (g'.node k).condition = (g.node k).condition
  var : ∀ b < g.bindings.size, (g'.binding b).var = (g.binding b).var
  data : ∀ b < g.bindings.size, g'.dataOf b = g.dataOf b
  origin : ∀ b < g.bindings.size, ∀ k, (k = n → (g.binding b).var ∉ W) →
    (g'.binding b).originAt? k = (g.binding b).originAt? k
  assigns : ∀ k < g.nodes.size, ∀ v < g.vars.size, (k = n → v ∉ W) →
    (g'.node k).assigns v = (g.node k).assigns v
  assigned : ∀ k < g.nodes.size, ∀ v < g.vars.size, (g.node k).assigns v = true →
    (g'.node k).assigns v = true
  listed : ∀ v < g.vars.size, v ∉ W → g'.allBindings v = g.allBindings v
  grown : ∀ v < g.vars.size, ∃ l, g'.allBindings v = g.allBindings v ++ l ∧
    ∀ b ∈ l, g.bindings.size ≤ b
  newer : ∀ b, g.bindings.size ≤ b → (g'.binding b).var < g.vars.size → ∀ k ≠ n,
    (g'.binding b).originAt? k = none

variable {g g' g'' g₁ g₂ : Graph} {n m k src : NodeId} {v : VarId} {d : DataId} {W : Set VarId}
  {sources : List BindingId} {bs : List BindingId} {asked goals : Set BindingId} {b c : BindingId}
  {name : String}

theorem binding_eq_default (h : g.bindings.size ≤ b) : g.binding b = default := by
  unfold binding
  rw [Array.getElem?_eq_none h]
  rfl

namespace Alters

theorem of_widens (h : g.Widens g') (n : NodeId) (W : Set VarId) : g.Alters g' n W where
  nodes_le := h.nodes_le
  vars_le := h.vars_le
  bindings_le := h.bindings_le
  incoming := h.incoming
  condition := h.condition
  var b hb := by rw [h.kept b hb]
  data b hb := congrArg Binding.data (h.kept b hb)
  origin b hb k _ := by rw [h.kept b hb]
  assigns k hk v hv _ := h.assigns k hk v hv
  assigned k hk v hv := (h.assigns k hk v hv).trans
  listed v hv _ := h.listed v hv
  grown v hv := ⟨[], by rw [h.listed v hv, List.append_nil], nofun⟩
  newer b hb hv k _ := by
    rcases Nat.lt_or_ge b g'.bindings.size with hlt | hle
    · exact absurd hv (Nat.not_lt.mpr (h.fresh b hb hlt))
    · rw [binding_eq_default hle]
      rfl

/-- On the way new variables may have been bound, too. -/
theorem trans (h : g.Alters g' n W) (hw : g.WellFormed)
    (h' : g'.Alters g'' n (W ∪ {v | g.vars.size ≤ v})) : g.Alters g'' n W := by
  have hold {v : VarId} (hv : v < g.vars.size) (hne : v ∉ W) : v ∉ W ∪ {v | g.vars.size ≤ v} :=
    fun hmem => hmem.elim hne (Nat.not_le.mpr hv)
  refine ⟨h.nodes_le.trans h'.nodes_le, h.vars_le.trans h'.vars_le,
    h.bindings_le.trans h'.bindings_le, fun k hk => ?_, fun k hk => ?_, fun b hb => ?_,
    fun b hb => ?_, fun b hb k hk => ?_, fun k hk v hv hne => ?_, fun k hk v hv ha => ?_,
    fun v hv hne => ?_, fun v hv => ?_, fun b hb hlt k hk => ?_⟩
  · exact (h'.incoming k (hk.trans_le h.nodes_le)).trans (h.incoming k hk)
  · exact (h'.condition k (hk.trans_le h.nodes_le)).trans (h.condition k hk)
  · exact (h'.var b (hb.trans_le h.bindings_le)).trans (h.var b hb)
  · exact (h'.data b (hb.trans_le h.bindings_le)).trans (h.data b hb)
  · rw [h'.origin b (hb.trans_le h.bindings_le) k fun hkn => h.var b hb ▸ hold (hw.var b hb) (hk hkn),
      h.origin b hb k hk]
  · rw [h'.assigns k (hk.trans_le h.nodes_le) v (hv.trans_le h.vars_le) fun hkn => hold hv (hne hkn),
      h.assigns k hk v hv hne]
  · exact h'.assigned k (hk.trans_le h.nodes_le) v (hv.trans_le h.vars_le) (h.assigned k hk v hv ha)
  · rw [h'.listed v (hv.trans_le h.vars_le) (hold hv hne), h.listed v hv hne]
  · obtain ⟨l, hl, hnew⟩ := h.grown v hv
    obtain ⟨l', hl', hnew'⟩ := h'.grown v (hv.trans_le h.vars_le)
    refine ⟨l ++ l', by rw [hl', hl, List.append_assoc], fun b hb => ?_⟩
    rcases List.mem_append.mp hb with hb | hb
    · exact hnew b hb
    · exact h.bindings_le.trans (hnew' b hb)
  · rcases Nat.lt_or_ge b g'.bindings.size with hlt' | hle
    · rw [h'.origin b hlt' k fun h => absurd h hk]
      exact h.newer b hb (h'.var b hlt' ▸ hlt) k hk
    · exact h'.newer b hle (hlt.trans_le h.vars_le) k hk

theorem mono {W' : Set VarId} (h : g.Alters g' n W) (hsub : W ⊆ W') : g.Alters g' n W' :=
  { h with
    origin := fun b hb k hk => h.origin b hb k fun hkn hmem => hk hkn (hsub hmem)
    assigns := fun k hk v hv hne => h.assigns k hk v hv fun hkn hmem => hne hkn (hsub hmem)
    listed := fun v hv hne => h.listed v hv fun hmem => hne (hsub hmem) }

theorem newVariable (h : g.Alters g' n W) (hw : g.WellFormed) (name : String) :
    g.Alters (g'.newVariable name).2 n W :=
  h.trans hw (of_widens ((Widens.refl g').newVariable name) n _)

/-- A new variable may be bound anywhere, one in `W` at the node. -/
theorem addBinding (h : g.Alters g' n W) (hw : g.WellFormed) (hw' : g'.WellFormed)
    (hv : g.vars.size ≤ v ∨ v ∈ W ∧ k = n) (d : DataId) (sources : List BindingId) :
    g.Alters (g'.addBinding v d sources k).2 n W := by
  have hbound := addBinding_bound (g := g') v d sources k
  have hadded := addBinding_addedAt (g := g') v d sources k
  have hassigns := (addBinding_assigns (hw'.lists v) d sources k).2
  -- At a node an old variable is another one, unless the node is `n` and the variable is in `W`.
  have hother {w : VarId} {j : NodeId} (hlt : w < g.vars.size) (hj : j = n → w ∉ W) :
      j ≠ k ∨ w ≠ v := by
    by_contra hne
    obtain ⟨rfl, rfl⟩ := not_or.mp hne |>.imp not_not.mp not_not.mp
    rcases hv with hv | ⟨hv, rfl⟩
    · exact absurd hlt (Nat.not_lt.mpr hv)
    · exact hj rfl hv
  refine ⟨hbound.size_eq ▸ h.nodes_le, ?_, h.bindings_le.trans hadded.size_le,
    fun j hj => (hbound.incoming j).trans (h.incoming j hj),
    fun j hj => (hbound.condition j).trans (h.condition j hj), fun b hb => ?_, fun b hb => ?_,
    fun b hb j hj => ?_, fun j hj w hlt hne => ?_, fun j hj w hlt ha => ?_, fun w hlt hne => ?_,
    fun w hlt => ?_, fun b hb hlt j hj => ?_⟩
  · rw [addBinding_vars_size]
    exact h.vars_le
  · exact (hadded.var b (hb.trans_le h.bindings_le)).trans (h.var b hb)
  · exact (hadded.data b (hb.trans_le h.bindings_le)).trans (h.data b hb)
  · rw [← h.origin b hb j hj]
    rcases hother (hw.var b hb) hj with hjk | hbv
    · exact hadded.origin b j hjk
    · rw [addBinding_kept hw' (hb.trans_le h.bindings_le) (h.var b hb ▸ hbv)]
  · rw [← h.assigns j hj w hlt hne, Bool.eq_iff_iff, hassigns]
    refine or_iff_left fun he => ?_
    rcases hother hlt hne with hjk | hwv
    · exact hjk he.1
    · exact hwv he.2.2
  · exact (hassigns j w).mpr (.inl (h.assigned j hj w hlt ha))
  · rw [← h.listed w hlt hne]
    refine addBinding_listed ?_ d sources k
    rintro rfl
    rcases hv with hv | ⟨hv, -⟩
    · exact absurd hlt (Nat.not_lt.mpr hv)
    · exact hne hv
  · obtain ⟨l, hl, hnew⟩ := h.grown w hlt
    obtain ⟨l', hl', hnew'⟩ := hadded.listed w
    refine ⟨l ++ l', by rw [hl', hl, List.append_assoc], fun b hb => ?_⟩
    rcases List.mem_append.mp hb with hb | hb
    · exact hnew b hb
    · exact h.bindings_le.trans (hnew' b hb)
  · rcases Nat.lt_or_ge b g'.bindings.size with hlt' | hle
    · rw [hadded.var b hlt'] at hlt
      rcases hother hlt fun h => absurd h hj with hjk | hbv
      · rw [hadded.origin b j hjk]
        exact h.newer b hb hlt j hj
      · rw [addBinding_kept hw' hlt' hbv]
        exact h.newer b hb hlt j hj
    · have hnone : (g'.binding b).originAt? j = none := by
        rw [binding_eq_default hle]
        rfl
      rcases eq_or_ne j k with rfl | hjk
      · -- It is a new variable that is bound, so the new binding, if there is one, is not meant.
        have hv : g.vars.size ≤ v := hv.resolve_right fun h => hj h.2
        cases hfound : g'.bindingTo? v d with
        | some c =>
          have hc := (hw'.listed v c (hw'.mem_of_bindingTo? hfound)).1
          have hne : b ≠ c := Nat.ne_of_gt (hc.trans_le hle)
          rw [addBinding_old sources j hfound, addOrigin_binding, if_neg fun h => hne h.1]
          exact hnone
        | none =>
          obtain ⟨k, he, -, -, hnew, hold, -⟩ := addBinding_new d sources j hfound
          rw [he] at hlt ⊢
          dsimp only at hlt ⊢
          rcases eq_or_ne b g'.bindings.size with rfl | hne
          · rw [hnew] at hlt
            exact absurd hlt (Nat.not_lt.mpr hv)
          · rw [hold b hne]
            exact hnone
      · rw [hadded.origin b j hjk]
        exact hnone

theorem pasteBindings (h : g.Alters g' n W) (hw : g.WellFormed) (hb : g'.Built)
    (hv : g.vars.size ≤ v ∨ v ∈ W ∧ k = n) (hlt : v < g'.vars.size) (hk : k < g'.nodes.size)
    (bs : List BindingId) : g.Alters (g'.pasteBindings v bs k) n W := by
  induction bs generalizing g' with
  | nil => exact h
  | cons b bs ih =>
    have hgrows := Grows.addBinding g' v (g'.dataOf b) [b] k
    exact ih (h.addBinding hw hb.wellFormed hv _ _) (hb.binding _ _ hlt hk)
      (hlt.trans_le hgrows.vars_le) (hk.trans_le hgrows.nodes_le)

theorem pasteVariable (h : g.Alters g' n W) (hw : g.WellFormed) (hb : g'.Built)
    (hv : g.vars.size ≤ v ∨ v ∈ W ∧ k = n) (hlt : v < g'.vars.size) (hk : k < g'.nodes.size)
    (w : VarId) : g.Alters (g'.pasteVariable v w k) n W := by
  unfold Graph.pasteVariable
  split
  · exact h
  · exact h.pasteBindings hw hb hv hlt hk _

end Alters

end ValueTrace.Graph
