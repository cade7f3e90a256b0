import ValueTrace.Proofs.Graph.AppendOnly
import ValueTrace.Proofs.Visibility.Regions

/-!
# Variables that hold one value from one node on

Such a variable has got its value without sources at the node. Whatever else binds it copies another
binding. As long as nothing has been copied to it, it holds the value just where a walk leads back
to the node on which all conditions are met.
-/
namespace ValueTrace.Graph

/-- The binding begins to hold at the node, and nothing has to hold for that. -/
def Unjustified (g : Graph) (b : BindingId) (n : NodeId) : Prop :=
  ∃ o ∈ (g.binding b).origins, o.node = n ∧ [] ∈ o.sourceSets

/-- Whatever has been added to the variable is a copy of another binding. -/
def OnlyCopies (g g' : Graph) (v : VarId) : Prop :=
  ∀ b n, (g'.binding b).var = v → g'.Unjustified b n → g.Unjustified b n

/-- The first binding of the variable binds the value from the node on, and whatever else binds the
variable is justified by another binding. -/
structure Grounded (g : Graph) (start : NodeId) (v : VarId) (d : DataId) (b : BindingId) :
    Prop where
  first : (g.allBindings v).head? = some b
  data : g.dataOf b = d
  unjustified : g.Unjustified b start
  copies : ∀ a n, (g.binding a).var = v → g.Unjustified a n → a = b ∧ n = start

def Untouched (g : Graph) (start : NodeId) (v : VarId) (b : BindingId) : Prop :=
  g.allBindings v = [b] ∧ (g.binding b).origins = [⟨start, [[]]⟩]

/-- Some walk against the edges leads from the node to where the variable begins, and all conditions
on it are met. -/
def Connected (g : Graph) (start n : NodeId) : Prop :=
  n = start ∧ g.CanHold start ∅ ∨ n ≠ start ∧ ∃ rest, g.LeadsOut {k | k ≠ start} n ∅ start rest ∧
    (∀ a ∈ rest, ¬ g.Overwrites start a) ∧ g.CanHold start rest

variable {g g' g'' : Graph} {n k start : NodeId} {v w : VarId} {d : DataId} {a b : BindingId}
  {sources : List BindingId} {goals less : Set BindingId}

theorem Unjustified.lt (h : g.Unjustified b n) : b < g.bindings.size := by
  obtain ⟨o, ho, -⟩ := h
  by_contra hb
  rw [binding, Array.getElem?_eq_none (Nat.le_of_not_lt hb)] at ho
  cases ho

theorem Unjustified.grows (h : g.Unjustified b n) (hg : g.Grows g') : g'.Unjustified b n := by
  have hlt := h.lt
  obtain ⟨o, ho, hn, hs⟩ := h
  obtain ⟨i, hi⟩ := List.mem_iff_getElem?.mp ho
  obtain ⟨o', ho', hnode, hsets⟩ := hg.origins b hlt i o hi
  exact ⟨o', List.mem_of_getElem? ho', hnode.trans hn, hsets.subset hs⟩

private theorem nil_mem_addSources {origins : List Origin} {o : Origin} {s : SourceSet}
    (ho : o ∈ addSources origins k s) (hn : o.node = n) (hs : [] ∈ o.sourceSets) :
    s = [] ∨ ∃ o' ∈ origins, o'.node = n ∧ [] ∈ o'.sourceSets := by
  induction origins with
  | nil =>
    obtain rfl := List.mem_singleton.mp ho
    exact .inl (List.mem_singleton.mp hs).symm
  | cons p origins ih =>
    rw [addSources] at ho
    split_ifs at ho with hp hmem
    · exact .inr ⟨o, ho, hn, hs⟩
    · rcases List.mem_cons.mp ho with rfl | ho
      · rcases List.mem_append.mp hs with hs | hs
        · exact .inr ⟨p, List.mem_cons_self, hn, hs⟩
        · exact .inl (List.mem_singleton.mp hs).symm
      · exact .inr ⟨o, List.mem_cons_of_mem p ho, hn, hs⟩
    · rcases List.mem_cons.mp ho with rfl | ho
      · exact .inr ⟨o, List.mem_cons_self, hn, hs⟩
      · refine (ih ho).imp_right ?_
        rintro ⟨o', ho', h⟩
        exact ⟨o', List.mem_cons_of_mem p ho', h⟩

private theorem eq_nil_of_ofList (h : SourceSet.ofList sources = []) : sources = [] := by
  refine List.eq_nil_iff_forall_not_mem.mpr fun c hc => ?_
  have hmem := SourceSet.mem_ofList.mpr hc
  rw [h] at hmem
  cases hmem

namespace OnlyCopies

theorem refl (g : Graph) (v : VarId) : g.OnlyCopies g v := fun _ _ _ h => h

theorem trans (h : g.OnlyCopies g' v) (h' : g'.OnlyCopies g'' v) (hg : g'.Grows g'') :
    g.OnlyCopies g'' v := by
  intro b n hv hb
  have hb' := h' b n hv hb
  exact h b n ((hg.var b hb'.lt).symm.trans hv) hb'

theorem of_bindings (h : g'.bindings = g.bindings) (v : VarId) : g.OnlyCopies g' v := by
  intro b n _ hb
  unfold Unjustified at hb ⊢
  rwa [binding_congr h] at hb

theorem addOrigin (hv : sources = [] → (g.binding b).var ≠ v) :
    g.OnlyCopies (g.addOrigin b k sources) v := by
  intro a n ha hu
  rw [addOrigin_binding_var] at ha
  obtain ⟨o, ho, hn, hs⟩ := hu
  rw [addOrigin_binding] at ho
  split_ifs at ho with hab
  · rcases nil_mem_addSources ho hn hs with hnil | hold
    · exact absurd ha (hab.1 ▸ hv (eq_nil_of_ofList hnil))
    · exact hold
  · exact ⟨o, ho, hn, hs⟩

theorem addBinding (hw : g.WellFormed) (hv : sources = [] → w ≠ v) (d : DataId) (k : NodeId) :
    g.OnlyCopies (g.addBinding w d sources k).2 v := by
  cases hb : g.bindingTo? w d with
  | some b =>
    rw [addBinding_old sources k hb]
    have hvar := (hw.listed w b (hw.mem_of_bindingTo? hb)).2
    exact addOrigin fun hnil => hvar ▸ hv hnil
  | none =>
    obtain ⟨g', he, -, -, hnew, hold, -⟩ := addBinding_new d sources k hb
    rw [he]
    change g.OnlyCopies g' v
    intro a n ha hu
    rcases eq_or_ne a g.bindings.size with rfl | hne
    · rw [hnew] at ha
      obtain ⟨o, ho, -, hs⟩ := hu
      rw [hnew] at ho
      obtain rfl := List.mem_singleton.mp ho
      exact absurd ha (hv (eq_nil_of_ofList (List.mem_singleton.mp hs).symm))
    · unfold Unjustified at hu ⊢
      rwa [hold a hne] at hu

end OnlyCopies

namespace Grounded

/-- The value stays where it is, as long as nothing but copies are added. -/
theorem grows (h : g.Grounded start v d b) (hg : g.Grows g') (hc : g.OnlyCopies g' v) :
    g'.Grounded start v d b := by
  refine ⟨?_, ?_, h.unjustified.grows hg, fun a n ha hu => ?_⟩
  · obtain ⟨rest, hrest⟩ := List.head?_eq_some_iff.mp h.first
    obtain ⟨more, hmore⟩ := hg.listed v
    rw [← hmore, hrest]
    rfl
  · rw [hg.data b h.unjustified.lt, h.data]
  · have hu' := hc a n ha hu
    exact h.copies a n ((hg.var a hu'.lt).symm.trans ha) hu'

/-- A new variable that is bound at a node. -/
theorem newVariable (hw : g.WellFormed) (name : String) (d : DataId) (start : NodeId) :
    ((g.newVariable name).2.addBinding (g.newVariable name).1 d [] start).2.Grounded start
      (g.newVariable name).1 d g.bindings.size := by
  have hempty : g.allBindings (g.newVariable name).1 = [] := allBindings_eq_nil (Nat.le_refl _)
  have hnone : (g.newVariable name).2.bindingTo? (g.newVariable name).1 d = none := by
    rw [bindingTo?_newVariable]
    exact bindingTo?_eq_none (Nat.le_refl _) d
  obtain ⟨g', he, -, -, hnew, hold, hlist, -⟩ := addBinding_new d [] start hnone
  rw [he]
  change g'.Grounded start _ d _
  have hkept (a : BindingId) (ha : a ≠ g.bindings.size) : g'.binding a = g.binding a := hold a ha
  have hsize : (g.newVariable name).2.bindings.size = g.bindings.size := rfl
  rw [hsize] at hnew hlist
  refine ⟨?_, ?_, ?_, fun a n ha hu => ?_⟩
  · rw [hlist, if_pos ⟨rfl, by simp [Graph.newVariable]⟩, allBindings_newVariable,
      hempty]
    rfl
  · unfold dataOf
    rw [hnew]
  · unfold Unjustified
    rw [hnew]
    exact ⟨_, List.mem_singleton_self _, rfl, List.mem_singleton_self _⟩
  · rcases eq_or_ne a g.bindings.size with rfl | hne
    · obtain ⟨o, ho, hn, -⟩ := hu
      rw [hnew] at ho
      obtain rfl := List.mem_singleton.mp ho
      exact ⟨rfl, hn.symm⟩
    · unfold Unjustified at hu
      rw [hkept a hne] at ha hu
      exact absurd (hw.var a (Unjustified.lt hu)) (ha ▸ Nat.lt_irrefl g.vars.size)

/-- Only the value itself can be seen where the first binding can hold and no copy of anything else
can. -/
theorem visibleData_eq_iff (h : g.Grounded start v d b) (hg : g.Built) :
    g.visibleData v n = [d] ↔
      g.isVisible b n = true ∧ ∀ a ∈ g.allBindings v, a ≠ b → g.isVisible a n = false := by
  have hnodup : ((g.allBindings v).map g.dataOf).Nodup := hg.indexed.data_nodup v
  have hb : b ∈ g.allBindings v := List.mem_of_head? h.first
  have hmem (a : BindingId) : a ∈ g.visible v n ↔ a ∈ g.allBindings v ∧ g.isVisible a n = true := by
    rw [visible_eq_filter, List.mem_filter]
  have hvisible : (g.visible v n).Nodup := by
    rw [visible_eq_filter]
    exact hnodup.of_map.filter _
  unfold visibleData
  constructor
  · intro hdata
    obtain ⟨a, ha, had⟩ := List.map_eq_singleton_iff.mp hdata
    have hlisted := (hmem a).mp (ha ▸ List.mem_singleton_self a)
    obtain rfl : a = b := List.inj_on_of_nodup_map hnodup hlisted.1 hb (had.trans h.data.symm)
    refine ⟨hlisted.2, fun c hc hne => ?_⟩
    by_contra hhold
    have hcv := (hmem c).mpr ⟨hc, by simpa using hhold⟩
    rw [ha] at hcv
    exact hne (List.mem_singleton.mp hcv)
  · rintro ⟨hhold, hother⟩
    have hall : ∀ a ∈ g.visible v n, a = b := by
      intro a ha
      by_contra hne
      have hav := (hmem a).mp ha
      rw [hother a hav.1 hne] at hav
      exact Bool.false_ne_true hav.2
    have hone := List.eq_replicate_of_mem hall
    have hcount : (g.visible v n).length = 1 := by
      refine le_antisymm ?_ (List.length_pos_of_mem ((hmem b).mpr ⟨hb, hhold⟩))
      rw [hone] at hvisible
      exact List.nodup_replicate.mp hvisible
    rw [hone, hcount]
    simp [h.data]

end Grounded

/-- A node never overwrites a binding that is alone with its variable. -/
theorem WellFormed.not_overwrites (hw : g.WellFormed) (hs : g.Sole b) : ¬ g.Overwrites n b := by
  rintro ⟨hassigned, hnone⟩
  obtain ⟨a, _, hv, ho⟩ := hw.assigned n _ hassigned
  have horigins : (g.binding a).origins ≠ [] := by
    intro hno
    simp [Binding.originAt?, hno] at ho
  obtain rfl := hs a horigins hv
  simp [hnone] at ho

/-- A walk that asks for less leaves less. -/
theorem LeadsOut.mono {region : Set NodeId} {q : NodeId} {rest : Set BindingId}
    (h : g.LeadsOut region n goals q rest) (hl : less ⊆ goals) :
    ∃ left ⊆ rest, g.LeadsOut region n less q left := by
  induction h generalizing less with
  | @out n goals choice p hs hp hout =>
    have hseen : ∀ b ∈ less, g.Seen n choice goals b := fun b hb => .goal (hl hb)
    exact ⟨_, carried_mono hseen, .out choice p (hs.mono hseen) hp hout⟩
  | @inside n goals q rest choice p hs hp hin ho _ ih =>
    have hseen : ∀ b ∈ less, g.Seen n choice goals b := fun b hb => .goal (hl hb)
    obtain ⟨left, hleft, hlead⟩ := ih (carried_mono hseen)
    exact ⟨left, hleft, .inside choice p (hs.mono hseen) hp hin
      (fun b hb => ho b (carried_mono hseen hb)) hlead⟩

/-- What is alone with its variable is in nobody's way, if all that is left begins somewhere. -/
private theorem apart_of_sole {choice : BindingId → SourceSet} (hsole : g.Sole b)
    (hreal : ∀ c ∈ g.Carried n choice goals, (g.binding c).origins ≠ []) {c : BindingId}
    (hc : g.Seen n choice goals c) (hv : (g.binding c).var = (g.binding b).var) : c = b := by
  refine hsole c (fun hnil => ?_) hv
  have hno : (g.binding c).originAt? n = none := by simp [Binding.originAt?, hnil]
  exact hreal c ⟨hc, hno⟩ hnil

/-- A binding that is alone with its variable, and is not bound in the region, can be carried
along. -/
private theorem LeadsOut.insert {region : Set NodeId} {q : NodeId} {rest : Set BindingId}
    (h : g.LeadsOut region n goals q rest) (hn : n ∈ region)
    (hfree : ∀ k ∈ region, (g.binding b).originAt? k = none) (hsole : g.Sole b)
    (hover : ∀ k, ¬ g.Overwrites k b) (hrest : ∀ c ∈ rest, (g.binding c).origins ≠ []) :
    g.LeadsOut region n (insert b goals) q (insert b rest) ∧
      ∀ c ∈ goals, (g.binding c).origins ≠ [] := by
  have hgoals {n : NodeId} {choice : BindingId → SourceSet} {goals : Set BindingId}
      (hcarried : ∀ c ∈ g.Carried n choice goals, (g.binding c).origins ≠ []) :
      ∀ c ∈ goals, (g.binding c).origins ≠ [] := by
    intro c hc hnil
    exact hcarried c ⟨.goal hc, by simp [Binding.originAt?, hnil]⟩ hnil
  induction h with
  | out choice p hs hp hout =>
    obtain ⟨hs', hcarried⟩ := hs.insert (hfree _ hn) fun c => apart_of_sole hsole hrest
    have hlead : g.LeadsOut region _ _ p (g.Carried _ choice (Insert.insert b _)) :=
      .out choice p hs' hp hout
    rw [hcarried] at hlead
    exact ⟨hlead, hgoals hrest⟩
  | inside choice p hs hp hin ho _ ih =>
    obtain ⟨hlead, hreal⟩ := ih hin hrest
    obtain ⟨hs', hcarried⟩ := hs.insert (hfree _ hn) fun c => apart_of_sole hsole hreal
    refine ⟨.inside choice p hs' hp hin ?_ ?_, hgoals hreal⟩
    · rw [hcarried]
      rintro c (rfl | hc)
      · exact hover p
      · exact ho c hc
    · rwa [hcarried]

/-- As long as nothing has been copied to the variable, its first binding is its only one. -/
theorem Untouched.sole (h : g.Untouched start v b) (hg : g.Built) : g.Sole b := by
  have hb : b ∈ g.allBindings v := h.1 ▸ List.mem_singleton_self b
  have hvar : (g.binding b).var = v := (hg.wellFormed.listed v b hb).2
  intro a ha hav
  have hlt : a < g.bindings.size := by
    by_contra hlt
    rw [binding, Array.getElem?_eq_none (Nat.le_of_not_lt hlt)] at ha
    exact ha rfl
  have hcount := hg.indexed.listed a hlt v
  rw [if_pos (hav.trans hvar), h.1] at hcount
  exact List.mem_singleton.mp (List.count_pos_iff.mp (hcount ▸ Nat.one_pos))

/-- As long as nothing has been copied to it, a variable holds its value just where a walk leads
back to where it begins. -/
theorem Untouched.isVisible_iff (h : g.Untouched start v b) (hg : g.Built) :
    g.isVisible b n = true ↔ g.Connected start n := by
  have hsole := h.sole hg
  have horigins := h.2
  have hstart : (g.binding b).originAt? start = some ⟨start, [[]]⟩ := by
    simp [Binding.originAt?, horigins]
  have hfree : ∀ k ∈ {k | k ≠ start}, (g.binding b).originAt? k = none := by
    intro k hk
    simpa [Binding.originAt?, horigins] using Ne.symm hk
  have hover (k : NodeId) : ¬ g.Overwrites k b := hg.wellFormed.not_overwrites hsole
  have hinsert (goals : Set BindingId) :
      g.CanHold start (insert b goals) ↔ g.CanHold start goals := by
    rw [canHold_insert_iff hstart hsole]
    simp
  rw [Graph.isVisible_iff]
  constructor
  · intro hhold
    by_cases hn : n = start
    · subst hn
      exact .inl ⟨rfl, hhold.mono (Set.empty_subset _)⟩
    · obtain ⟨q, rest, hlead, ho, hq⟩ := exists_leadsOut hn hfree hhold rfl
      obtain ⟨_, -, -, hout⟩ := hlead.crosses hn
      obtain rfl : q = start := not_not.mp hout
      obtain ⟨left, hleft, hlead⟩ := hlead.mono (Set.empty_subset _)
      exact .inr ⟨hn, left, hlead, fun a ha => ho a (hleft ha), hq.mono hleft⟩
  · rintro (⟨rfl, hhold⟩ | ⟨hn, rest, hlead, ho, hq⟩)
    · rw [← insert_empty_eq b]
      exact (hinsert ∅).mpr hhold
    · have hlead' := (hlead.insert hn hfree hsole hover fun c hc => hq.origins_ne_nil hc).1
      rw [insert_empty_eq] at hlead'
      refine hlead'.canHold ?_ ((hinsert rest).mpr hq)
      rintro a (rfl | ha)
      · exact hover start
      · exact ho a ha

end ValueTrace.Graph
