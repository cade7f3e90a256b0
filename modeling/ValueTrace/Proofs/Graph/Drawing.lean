import ValueTrace.Proofs.Absorption.Variables
import ValueTrace.Proofs.Graph.Withdrawal

/-!
# Growth that draws on what is clear

What lies between two nodes of a graph is clear of some variables if it does not rest on them there.
As long as only new variables are bound, and only by what is clear, what variables can hold at the
second node does not depend on what those have been bound to at the first one.
-/

namespace ValueTrace.Graph

def Between (g : Graph) (n m : NodeId) : Set NodeId := {k | g.Leads n k ∧ g.Leads k m}

/-- The binding belongs to one of the variables, or something that justifies it in the region
does, however far behind. -/
inductive RestsOn (g : Graph) (region : Set NodeId) (W : Set VarId) : BindingId → Prop
  | var {b} : b < g.bindings.size → (g.binding b).var ∈ W → RestsOn g region W b
  | source {b c k o s} : k ∈ region → (g.binding b).originAt? k = some o → s ∈ o.sourceSets →
      c ∈ s → RestsOn g region W c → RestsOn g region W b

/-- On the way from one node to another neither the bindings of these variables nor the conditions
rest on the variables in `W`. -/
structure Spared (g : Graph) (n m : NodeId) (W asked : Set VarId) : Prop where
  bindings : ∀ v ∈ asked, ∀ b ∈ g.allBindings v, ¬ g.RestsOn (g.Between n m) W b
  conditions : ∀ k ∈ g.Between n m, ∀ c, (g.node k).condition = some c →
    ¬ g.RestsOn (g.Between n m) W c

/-- What has been bound since are new variables, and what justifies that is among these bindings or
new. -/
structure Draws (g g' : Graph) (clear : Set BindingId) : Prop extends Widens g g' where
  nodes_eq : g'.nodes.size = g.nodes.size
  incoming_eq : ∀ k, (g'.node k).incoming = (g.node k).incoming
  condition_eq : ∀ k, (g'.node k).condition = (g.node k).condition
  drawn : ∀ b, g.bindings.size ≤ b → ∀ o ∈ (g'.binding b).origins, ∀ s ∈ o.sourceSets, ∀ c ∈ s,
    g.bindings.size ≤ c ∨ c ∈ clear
  newer : ∀ v, g.vars.size ≤ v → ∀ b ∈ g'.allBindings v, g.bindings.size ≤ b
  indexed : ∀ v, g.vars.size ≤ v → ∀ d b, g'.bindingTo? v d = some b →
    g.bindings.size ≤ b ∧ b < g'.bindings.size

variable {g g' g₁ : Graph} {n m k : NodeId} {v w : VarId} {d : DataId} {W asked : Set VarId}
  {b c : BindingId} {sources bs : List BindingId} {clear : Set BindingId} {name : String}

namespace Draws

theorem refl (g : Graph) (clear : Set BindingId) : g.Draws g clear where
  toWidens := .refl g
  nodes_eq := rfl
  incoming_eq _ := rfl
  condition_eq _ := rfl
  drawn b hb o ho := by
    rw [binding_eq_default hb] at ho
    cases ho
  newer v hv b hb := by
    rw [allBindings_eq_nil hv] at hb
    cases hb
  indexed v hv d b hb := by
    rw [bindingTo?_eq_none hv] at hb
    cases hb

theorem newVariable (h : g.Draws g' clear) (name : String) :
    g.Draws (g'.newVariable name).2 clear where
  toWidens := h.toWidens.newVariable name
  nodes_eq := h.nodes_eq
  incoming_eq := h.incoming_eq
  condition_eq := h.condition_eq
  drawn := h.drawn
  newer v hv b hb := h.newer v hv b (allBindings_newVariable g' name v ▸ hb)
  indexed v hv d b hb := h.indexed v hv d b (bindingTo?_newVariable g' name v d ▸ hb)

/-- A new binding may get an origin. -/
theorem addOrigin (h : g.Draws g' clear) (hb : g.bindings.size ≤ b) (hlt : b < g'.bindings.size)
    (hs : ∀ c ∈ sources, g.bindings.size ≤ c ∨ c ∈ clear) (n : NodeId) :
    g.Draws (g'.addOrigin b n sources) clear := by
  have hbound := addOrigin_bound (g := g') (b := b) (n := n) sources
  refine ⟨⟨⟨hbound.size_eq ▸ h.nodes_le, h.vars_le, ?_, fun k hk => ?_, fun k hk => ?_,
    fun k hk v hv => ?_, fun a ha => ?_, fun a ha hlt => ?_⟩, h.listed⟩, hbound.size_eq.trans h.nodes_eq,
    fun k => (hbound.incoming k).trans (h.incoming_eq k),
    fun k => (hbound.condition k).trans (h.condition_eq k), fun a ha o ho s hso c hc => ?_, h.newer,
    fun v hv d a ha => ?_⟩
  · simpa [Graph.addOrigin] using h.bindings_le
  · rw [hbound.incoming, h.incoming_eq]
  · rw [hbound.condition, h.condition_eq]
  · rw [← h.assigns k hk v hv, Bool.eq_iff_iff, addOrigin_assigns]
    refine or_iff_left fun he => ?_
    exact absurd (he.2.2 ▸ h.fresh b hb hlt) (Nat.not_le.mpr hv)
  · have hne : a ≠ b := Nat.ne_of_lt (ha.trans_le hb)
    rw [addOrigin_binding, if_neg fun he => hne he.1, h.kept a ha]
  · rw [addOrigin_binding_var]
    exact h.fresh a ha (by simpa [Graph.addOrigin] using hlt)
  · rw [addOrigin_binding] at ho
    split_ifs at ho
    · rcases Closed.mem_addSources ho hso with rfl | ⟨o', ho', hso⟩
      · exact hs c (SourceSet.mem_ofList.mp hc)
      · exact h.drawn a ha o' ho' s hso c hc
    · exact h.drawn a ha o ho s hso c hc
  · exact (h.indexed v hv d a ha).imp_right fun hlt => by simpa [Graph.addOrigin] using hlt

/-- A new variable may get a binding. -/
theorem newBinding (h : g.Draws g' clear) (hv : g.vars.size ≤ v) (d : DataId) :
    g.Draws (g'.newBinding v d).2 clear := by
  have hbinding (a : BindingId) : (g'.newBinding v d).2.binding a =
      if a = g'.bindings.size then { id := Word.low32 g'.bindings.size, var := v, data := d }
      else g'.binding a := by
    unfold Graph.newBinding binding
    rw [Array.getElem?_push]
    split_ifs <;> rfl
  have hvar (w : VarId) (hne : w ≠ v) : (g'.newBinding v d).2.var w = g'.var w := by
    unfold Graph.newBinding Graph.var
    rw [Array.getElem?_modify, if_neg hne.symm]
  have hsize : (g'.newBinding v d).2.bindings.size = g'.bindings.size + 1 := by
    simp [Graph.newBinding]
  refine ⟨⟨⟨h.nodes_le, ?_, ?_, h.incoming, h.condition, h.assigns, fun a ha => ?_,
    fun a ha hlt => ?_⟩, fun w hw => ?_⟩, h.nodes_eq, h.incoming_eq, h.condition_eq,
    fun a ha o ho => ?_, fun w hw a ha => ?_, fun w hw e a ha => ?_⟩
  · simpa [Graph.newBinding] using h.vars_le
  · exact h.bindings_le.trans (hsize ▸ Nat.le_succ _)
  · rw [hbinding, if_neg (Nat.ne_of_lt (ha.trans_le h.bindings_le)), h.kept a ha]
  · rw [hbinding]
    split_ifs with he
    · exact hv
    · rw [hsize] at hlt
      exact h.fresh a ha (lt_of_le_of_ne (Nat.le_of_lt_succ hlt) he)
  · rw [← h.listed w hw]
    exact congrArg Variable.bindings (hvar w (Nat.ne_of_lt (hw.trans_le hv)))
  · rw [hbinding] at ho
    split_ifs at ho
    · cases ho
    · exact h.drawn a ha o ho
  · rcases eq_or_ne w v with rfl | hne
    · unfold allBindings Graph.var Graph.newBinding at ha
      rw [Array.getElem?_modify, if_pos rfl] at ha
      cases hget : g'.vars[w]? with
      | none =>
        rw [hget] at ha
        cases ha
      | some x =>
        rw [hget] at ha
        have hx : g'.allBindings w = x.bindings := by
          unfold allBindings Graph.var
          rw [hget]
          rfl
        rcases List.mem_append.mp ha with ha | ha
        · exact h.newer w hw a (hx ▸ ha)
        · exact (List.mem_singleton.mp ha).symm ▸ h.bindings_le
    · unfold allBindings at ha
      rw [hvar w hne] at ha
      exact h.newer w hw a ha
  · rw [hsize]
    rcases eq_or_ne w v with rfl | hne
    · unfold bindingTo? Graph.var Graph.newBinding at ha
      rw [Array.getElem?_modify, if_pos rfl] at ha
      cases hget : g'.vars[w]? with
      | none =>
        rw [hget] at ha
        cases Std.TreeMap.getElem?_emptyc.symm.trans ha
      | some x =>
        rw [hget] at ha
        have hx (e : DataId) : g'.bindingTo? w e = x.byData[e]? := by
          unfold bindingTo? Graph.var
          rw [hget]
          rfl
        dsimp only [Option.map_some, Option.getD_some] at ha
        rw [Std.TreeMap.getElem?_insert] at ha
        split_ifs at ha
        · obtain rfl := Option.some.inj ha
          exact ⟨h.bindings_le, Nat.lt_succ_self _⟩
        · exact (h.indexed w hw e a ((hx e).trans ha)).imp_right Nat.lt_succ_of_lt
    · unfold bindingTo? at ha
      rw [hvar w hne] at ha
      exact (h.indexed w hw e a ha).imp_right Nat.lt_succ_of_lt

theorem addBinding (h : g.Draws g' clear) (hv : g.vars.size ≤ v) (d : DataId)
    (hs : ∀ c ∈ sources, g.bindings.size ≤ c ∨ c ∈ clear) (n : NodeId) :
    g.Draws (g'.addBinding v d sources n).2 clear := by
  unfold Graph.addBinding
  cases hfound : g'.bindingTo? v d with
  | some b =>
    obtain ⟨hb, hlt⟩ := h.indexed v hv d b hfound
    exact h.addOrigin hb hlt hs n
  | none =>
    have hlt : g'.bindings.size < (g'.newBinding v d).2.bindings.size := by
      simp [Graph.newBinding]
    exact (h.newBinding hv d).addOrigin h.bindings_le hlt hs n

theorem pasteBindings (h : g.Draws g' clear) (hv : g.vars.size ≤ v)
    (hs : ∀ c ∈ bs, g.bindings.size ≤ c ∨ c ∈ clear) (n : NodeId) :
    g.Draws (g'.pasteBindings v bs n) clear := by
  induction bs generalizing g' with
  | nil => exact h
  | cons b bs ih =>
    obtain ⟨hb, hbs⟩ := List.forall_mem_cons.mp hs
    exact ih (h.addBinding hv _ (by simpa using hb) n) hbs

theorem pasteVariable (h : g.Draws g' clear) (hv : g.vars.size ≤ v)
    (hs : ∀ c ∈ g'.allBindings w, g.bindings.size ≤ c ∨ c ∈ clear) (n : NodeId) :
    g.Draws (g'.pasteVariable v w n) clear := by
  unfold Graph.pasteVariable
  split
  · exact h
  · exact h.pasteBindings hv hs n

theorem leads_iff (h : g.Draws g' clear) : g'.Leads n m ↔ g.Leads n m := by
  have he : (fun a b => a ∈ (g'.node b).incoming) = fun a b => a ∈ (g.node b).incoming := by
    funext a b
    rw [h.incoming_eq]
  unfold Leads
  rw [he]

theorem between_eq (h : g.Draws g' clear) : g'.Between n m = g.Between n m := by
  ext k
  exact and_congr h.leads_iff h.leads_iff

/-- What rests on the variables now did so before. -/
theorem restsOn (h : g.Draws g' {c | ¬ g.RestsOn (g.Between n m) W c})
    (hW : ∀ v ∈ W, v < g.vars.size) (hrests : g'.RestsOn (g'.Between n m) W b) :
    b < g.bindings.size ∧ g.RestsOn (g.Between n m) W b := by
  rw [h.between_eq] at hrests
  induction hrests with
  | @var b hlt hb =>
    rcases Nat.lt_or_ge b g.bindings.size with hold | hnew
    · exact ⟨hold, .var hold (h.kept b hold ▸ hb)⟩
    · exact absurd (hW _ hb) (Nat.not_lt.mpr (h.fresh b hnew hlt))
  | @source b c k o s hk ho hs hc _ ih =>
    rcases Nat.lt_or_ge b g.bindings.size with hold | hnew
    · exact ⟨hold, .source hk (h.kept b hold ▸ ho) hs hc ih.2⟩
    · rcases h.drawn b hnew o (List.mem_of_find?_eq_some ho) s hs c hc with hc | hc
      · exact absurd ih.1 (Nat.not_lt.mpr hc)
      · exact absurd ih.2 hc

theorem spared (h : g.Draws g' {c | ¬ g.RestsOn (g.Between n m) W c})
    (hW : ∀ v ∈ W, v < g.vars.size) (hs : g.Spared n m W ∅)
    (hasked : ∀ v ∈ asked, ∀ b ∈ g'.allBindings v,
      g.bindings.size ≤ b ∨ ¬ g.RestsOn (g.Between n m) W b) : g'.Spared n m W asked where
  bindings v hv b hb hrests := by
    obtain ⟨hlt, hrests⟩ := h.restsOn hW hrests
    exact (hasked v hv b hb).elim (Nat.not_le.mpr hlt) fun hc => hc hrests
  conditions k hk c hc hrests :=
    hs.conditions k (h.between_eq ▸ hk) c (h.condition_eq k ▸ hc) (h.restsOn hW hrests).2

end Draws

namespace Spared

theorem mono {asked' : Set VarId} (h : g.Spared n m W asked) (hsub : asked' ⊆ asked) :
    g.Spared n m W asked' := ⟨fun v hv => h.bindings v (hsub hv), h.conditions⟩

/-- A search that does not come to the node with anything that rests on the variables sees nothing of
what they have been bound to there. -/
theorem agreeAlong (h : g.Spared n m W asked) (hsame : g.SameBut g' n W) :
    g.AgreeAlong g' {k | g.Leads k m}
      fun k => {b | g.Leads n k → ¬ g.RestsOn (g.Between n m) W b} where
  closed _ hk _ hp := .head hp hk
  condition_mem k hk c hc hlead := h.conditions k ⟨hlead, hk⟩ c hc
  source_mem _ hk _ hb _ ho _ hs _ hc hlead hrests :=
    hb hlead (.source ⟨hlead, hk⟩ ho hs hc hrests)
  carried_mem _ _ _ hp _ hb hlead := hb (hlead.tail hp)
  incoming k _ := hsame.incoming k
  condition k _ := hsame.condition k
  origin k _ b hb := by
    rcases Nat.lt_or_ge b g.bindings.size with hlt | hle
    · exact hsame.origin b k fun hkn hmem => hb (hkn ▸ .refl) (.var hlt hmem)
    · rw [binding_eq_default hle, binding_eq_default (hsame.bindings ▸ hle)]
  var _ _ b _ _ := hsame.var b
  assigns k _ b hb hbegins := by
    obtain ⟨j, -, -, ho⟩ := hbegins
    rcases Nat.lt_or_ge b g.bindings.size with hlt | hle
    · exact hsame.assigns k _ fun hkn hmem => hb (hkn ▸ .refl) (.var hlt hmem)
    · rw [binding_eq_default hle] at ho
      cases ho

/-- A variable whose bindings are spared shows the same in both graphs. -/
theorem visible_eq (h : g.Spared n m W asked) (hsame : g.SameBut g' n W) (hv : v ∈ asked) :
    g'.visible v m = g.visible v m := by
  rw [visible_eq_filter, visible_eq_filter, hsame.allBindings]
  refine List.filter_congr fun b hb => ?_
  rw [Bool.eq_iff_iff, isVisible_iff, isVisible_iff]
  refine (h.agreeAlong hsame).canHold_iff .refl fun a ha _ => ?_
  obtain rfl := Set.mem_singleton_iff.mp ha
  exact h.bindings v hv a hb

theorem visibleData_eq (h : g.Spared n m W asked) (hsame : g.SameBut g' n W) (hv : v ∈ asked) :
    g'.visibleData v m = g.visibleData v m := by
  unfold visibleData
  rw [h.visible_eq hsame hv]
  exact List.map_congr_left fun b _ => hsame.data b

end Spared

end ValueTrace.Graph
