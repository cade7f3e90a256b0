import Mathlib.Logic.Relation
import ValueTrace.Proofs.Graph.Growth
import ValueTrace.Proofs.Visibility.Queries

/-! A search reads the nodes that lead to where it starts, and the bindings that are called for
there. Two graphs that agree on these give the same answers, so growth elsewhere changes none. -/
namespace ValueTrace.Graph

def Leads (g : Graph) (n m : NodeId) : Prop :=
  Relation.ReflTransGen (fun a b => a ∈ (g.node b).incoming) n m

def Begins (g : Graph) (region : Set NodeId) (b : BindingId) : Prop :=
  ∃ n ∈ region, ((g.binding b).originAt? n).isSome

/-- What a search asks for at the nodes of a region. Walks do not leave the region, and what is asked
for at a node covers its condition, what justifies there what is asked for, and what is carried on
to the nodes before. -/
structure AsksAlong (g : Graph) (region : Set NodeId) (asked : NodeId → Set BindingId) : Prop where
  closed : ∀ n ∈ region, ∀ p ∈ (g.node n).incoming, p ∈ region
  condition_mem : ∀ n ∈ region, ∀ c, (g.node n).condition = some c → c ∈ asked n
  source_mem : ∀ n ∈ region, ∀ b ∈ asked n, ∀ o, (g.binding b).originAt? n = some o →
    ∀ s ∈ o.sourceSets, ∀ c ∈ s, c ∈ asked n
  carried_mem : ∀ n ∈ region, ∀ p ∈ (g.node n).incoming, asked n ⊆ asked p

/-- The binding has an origin at a node of the region where it is asked for. -/
def BeginsAlong (g : Graph) (region : Set NodeId) (asked : NodeId → Set BindingId)
    (b : BindingId) : Prop :=
  ∃ n ∈ region, b ∈ asked n ∧ ((g.binding b).originAt? n).isSome

/-- Two graphs look alike to a search in a region that asks for some bindings at each node. Of a
binding that begins at no node where it is asked for nothing else is compared: no search gets past
it. -/
structure AgreeAlong (g g' : Graph) (region : Set NodeId) (asked : NodeId → Set BindingId) : Prop
    extends AsksAlong g region asked where
  incoming : ∀ n ∈ region, (g'.node n).incoming = (g.node n).incoming
  condition : ∀ n ∈ region, (g'.node n).condition = (g.node n).condition
  origin : ∀ n ∈ region, ∀ b ∈ asked n, (g'.binding b).originAt? n = (g.binding b).originAt? n
  var : ∀ n ∈ region, ∀ b ∈ asked n, g.BeginsAlong region asked b →
    (g'.binding b).var = (g.binding b).var
  assigns : ∀ n ∈ region, ∀ b ∈ asked n, g.BeginsAlong region asked b →
    (g'.node n).assigns (g.binding b).var = (g.node n).assigns (g.binding b).var

/-- Two graphs look alike to a search in a region that asks for some of the bindings. Of a binding
that begins nowhere in the region nothing else is compared: no search there gets past it. -/
structure AgreeOn (g g' : Graph) (region : Set NodeId) (asked : Set BindingId) : Prop where
  closed : ∀ n ∈ region, ∀ p ∈ (g.node n).incoming, p ∈ region
  incoming : ∀ n ∈ region, (g'.node n).incoming = (g.node n).incoming
  condition : ∀ n ∈ region, (g'.node n).condition = (g.node n).condition
  origin : ∀ b ∈ asked, ∀ n ∈ region, (g'.binding b).originAt? n = (g.binding b).originAt? n
  var : ∀ b ∈ asked, g.Begins region b → (g'.binding b).var = (g.binding b).var
  assigns : ∀ b ∈ asked, g.Begins region b → ∀ n ∈ region,
    (g'.node n).assigns (g.binding b).var = (g.node n).assigns (g.binding b).var
  condition_mem : ∀ n ∈ region, ∀ c, (g.node n).condition = some c → c ∈ asked
  source_mem : ∀ b ∈ asked, ∀ n ∈ region, ∀ o, (g.binding b).originAt? n = some o →
    ∀ s ∈ o.sourceSets, ∀ c ∈ s, c ∈ asked

variable {g g' g'' : Graph} {region : Set NodeId} {asked goals : Set BindingId} {n k m : NodeId}
  {b : BindingId} {choice : BindingId → SourceSet} {asks : NodeId → Set BindingId}

namespace AsksAlong

theorem seen_mem (h : g.AsksAlong region asks) (hn : n ∈ region) (hs : g.Stands n choice goals)
    (hg : goals ⊆ asks n) (hb : g.Seen n choice goals b) : b ∈ asks n := by
  induction hb with
  | goal hb => exact hg hb
  | condition hc => exact h.condition_mem n hn _ hc
  | @source a c ha ho hc ih =>
    obtain ⟨o, ho⟩ := Option.isSome_iff_exists.mp ho
    exact h.source_mem n hn a ih o ho (choice a) (hs.chosen a o ha ho) c hc

/-- What is carried on to a node before is asked for there. -/
theorem carried_subset (h : g.AsksAlong region asks) (hn : n ∈ region)
    (hs : g.Stands n choice goals) (hg : goals ⊆ asks n) {p : NodeId}
    (hp : p ∈ (g.node n).incoming) : g.Carried n choice goals ⊆ asks p :=
  fun _ ha => h.carried_mem n hn p hp (h.seen_mem hn hs hg ha.1)

/-- Every goal of a walk begins at one of its positions. -/
theorem begins (h : g.AsksAlong region asks) (hg : g.CanHold n goals) (hn : n ∈ region)
    (hgoals : goals ⊆ asks n) (hb : b ∈ goals) : g.BeginsAlong region asks b := by
  induction hg with
  | @here n goals choice _ hc =>
    refine ⟨n, hn, hgoals hb, Option.isSome_iff_ne_none.mpr fun hno => ?_⟩
    exact hc b ⟨.goal hb, hno⟩
  | @before n goals choice p hs hp _ _ ih =>
    cases ho : (g.binding b).originAt? n with
    | some o => exact ⟨n, hn, hgoals hb, by simp [ho]⟩
    | none => exact ih (h.closed n hn p hp) (h.carried_subset hn hs hgoals hp) ⟨.goal hb, ho⟩

end AsksAlong

namespace AgreeAlong

theorem beginsAlong_iff (h : g.AgreeAlong g' region asks) :
    g'.BeginsAlong region asks b ↔ g.BeginsAlong region asks b := by
  unfold BeginsAlong
  constructor
  · rintro ⟨n, hn, hb, ho⟩
    rw [h.origin n hn b hb] at ho
    exact ⟨n, hn, hb, ho⟩
  · rintro ⟨n, hn, hb, ho⟩
    refine ⟨n, hn, hb, ?_⟩
    rw [h.origin n hn b hb]
    exact ho

theorem symm (h : g.AgreeAlong g' region asks) : g'.AgreeAlong g region asks where
  closed := by
    intro n hn p hp
    rw [h.incoming n hn] at hp
    exact h.closed n hn p hp
  condition_mem := by
    intro n hn c hc
    rw [h.condition n hn] at hc
    exact h.condition_mem n hn c hc
  source_mem := by
    intro n hn b hb o ho
    rw [h.origin n hn b hb] at ho
    exact h.source_mem n hn b hb o ho
  carried_mem := by
    intro n hn p hp
    rw [h.incoming n hn] at hp
    exact h.carried_mem n hn p hp
  incoming n hn := (h.incoming n hn).symm
  condition n hn := (h.condition n hn).symm
  origin n hn b hb := (h.origin n hn b hb).symm
  var n hn b hb hbegins := (h.var n hn b hb (h.beginsAlong_iff.mp hbegins)).symm
  assigns := by
    intro n hn b hb hbegins
    have hg := h.beginsAlong_iff.mp hbegins
    rw [h.var n hn b hb hg]
    exact (h.assigns n hn b hb hg).symm

private theorem seen_of_seen (h : g.AgreeAlong g' region asks) (hn : n ∈ region)
    (hmem : ∀ a, g.Seen n choice goals a → a ∈ asks n) (hb : g.Seen n choice goals b) :
    g'.Seen n choice goals b := by
  induction hb with
  | goal hb => exact .goal hb
  | condition hc => exact .condition ((h.condition n hn).trans hc)
  | @source a c ha ho hc ih =>
    refine .source ih ?_ hc
    rw [h.origin n hn a (hmem a ha)]
    exact ho

private theorem seen_of_seen' (h : g.AgreeAlong g' region asks) (hn : n ∈ region)
    (hmem : ∀ a, g.Seen n choice goals a → a ∈ asks n) (hb : g'.Seen n choice goals b) :
    g.Seen n choice goals b := by
  induction hb with
  | goal hb => exact .goal hb
  | condition hc => exact .condition ((h.condition n hn).symm.trans hc)
  | @source a c _ ho hc ih =>
    refine .source ih ?_ hc
    rw [← h.origin n hn a (hmem a ih)]
    exact ho

/-- One position of a walk is the same in both graphs, as long as all that it sees begins
somewhere. -/
theorem position (h : g.AgreeAlong g' region asks) (hn : n ∈ region)
    (hs : g.Stands n choice goals) (hg : goals ⊆ asks n)
    (hbegins : ∀ a, g.Seen n choice goals a → g.BeginsAlong region asks a) :
    g'.Stands n choice goals ∧ g'.Carried n choice goals = g.Carried n choice goals := by
  have hmem : ∀ a, g.Seen n choice goals a → a ∈ asks n := fun a ha => h.seen_mem hn hs hg ha
  have hseen (a : BindingId) : g'.Seen n choice goals a ↔ g.Seen n choice goals a :=
    ⟨h.seen_of_seen' hn hmem, h.seen_of_seen hn hmem⟩
  constructor
  · constructor
    · intro a o ha ho
      have ha := (hseen a).mp ha
      rw [h.origin n hn a (hmem a ha)] at ho
      exact hs.chosen a o ha ho
    · intro a c ha hc hv
      have ha := (hseen a).mp ha
      have hc := (hseen c).mp hc
      rw [h.var n hn a (hmem a ha) (hbegins a ha), h.var n hn c (hmem c hc) (hbegins c hc)] at hv
      exact hs.apart a c ha hc hv
  · ext a
    constructor
    · rintro ⟨ha, ho⟩
      have ha := (hseen a).mp ha
      rw [h.origin n hn a (hmem a ha)] at ho
      exact ⟨ha, ho⟩
    · rintro ⟨ha, ho⟩
      rw [← h.origin n hn a (hmem a ha)] at ho
      exact ⟨(hseen a).mpr ha, ho⟩

/-- All that a position sees begins somewhere, if what it leaves does. -/
theorem begins_of_seen (h : g.AgreeAlong g' region asks) (hn : n ∈ region)
    (hs : g.Stands n choice goals) (hg : goals ⊆ asks n)
    (hcarried : ∀ a ∈ g.Carried n choice goals, g.BeginsAlong region asks a) {a : BindingId}
    (ha : g.Seen n choice goals a) : g.BeginsAlong region asks a := by
  cases hao : (g.binding a).originAt? n with
  | some o => exact ⟨n, hn, h.seen_mem hn hs hg ha, by simp [hao]⟩
  | none => exact hcarried a ⟨ha, hao⟩

theorem overwrites_iff (h : g.AgreeAlong g' region asks) (hn : n ∈ region) (hb : b ∈ asks n)
    (hbegins : g.BeginsAlong region asks b) : g'.Overwrites n b ↔ g.Overwrites n b := by
  unfold Overwrites
  rw [h.var n hn b hb hbegins, h.assigns n hn b hb hbegins, h.origin n hn b hb]

private theorem canHold_of_canHold (h : g.AgreeAlong g' region asks) (hg : g.CanHold n goals)
    (hn : n ∈ region) (hgoals : goals ⊆ asks n) : g'.CanHold n goals := by
  induction hg with
  | @here n goals choice hs hc =>
    obtain ⟨hs', hcarried⟩ := h.position hn hs hgoals fun a ha =>
      h.begins_of_seen hn hs hgoals (fun c hmem => absurd hmem (hc c)) ha
    apply CanHold.here choice hs'
    rw [hcarried]
    exact hc
  | @before n goals choice p hs hp ho hh ih =>
    have hpr : p ∈ region := h.closed n hn p hp
    have hcarry := h.carried_subset hn hs hgoals hp
    have hleft : ∀ a ∈ g.Carried n choice goals, g.BeginsAlong region asks a :=
      fun a ha => h.begins hh hpr hcarry ha
    obtain ⟨hs', hcarried⟩ := h.position hn hs hgoals fun a ha =>
      h.begins_of_seen hn hs hgoals hleft ha
    apply CanHold.before choice p hs'
    · rw [h.incoming n hn]
      exact hp
    · rw [hcarried]
      intro a ha hover
      exact ho a ha ((h.overwrites_iff hpr (hcarry ha) (hleft a ha)).mp hover)
    · rw [hcarried]
      exact ih hpr hcarry

/-- A search that asks only for what the graphs agree on has one answer in both. -/
theorem canHold_iff (h : g.AgreeAlong g' region asks) (hn : n ∈ region) (hgoals : goals ⊆ asks n) :
    g'.CanHold n goals ↔ g.CanHold n goals :=
  ⟨fun hg => h.symm.canHold_of_canHold hg hn hgoals, fun hg => h.canHold_of_canHold hg hn hgoals⟩

end AgreeAlong

namespace AgreeOn

/-- The same bindings are asked for at every node. -/
theorem along (h : g.AgreeOn g' region asked) : g.AgreeAlong g' region fun _ => asked :=
  have hbegins {b : BindingId} (hb : g.BeginsAlong region (fun _ => asked) b) :
      g.Begins region b := hb.imp fun _ ⟨hn, _, ho⟩ => ⟨hn, ho⟩
  { h with
    source_mem := fun n hn b hb => h.source_mem b hb n hn
    carried_mem := fun _ _ _ _ => subset_rfl
    origin := fun n hn b hb => h.origin b hb n hn
    var := fun _ _ b hb hbg => h.var b hb (hbegins hbg)
    assigns := fun n hn b hb hbg => h.assigns b hb (hbegins hbg) n hn }

theorem begins_iff (h : g.AgreeOn g' region asked) (hb : b ∈ asked) :
    g'.Begins region b ↔ g.Begins region b := by
  unfold Begins
  constructor
  · rintro ⟨n, hn, ho⟩
    rw [h.origin b hb n hn] at ho
    exact ⟨n, hn, ho⟩
  · rintro ⟨n, hn, ho⟩
    refine ⟨n, hn, ?_⟩
    rw [h.origin b hb n hn]
    exact ho

theorem symm (h : g.AgreeOn g' region asked) : g'.AgreeOn g region asked where
  closed := h.along.symm.closed
  incoming n hn := (h.incoming n hn).symm
  condition n hn := (h.condition n hn).symm
  origin b hb n hn := (h.origin b hb n hn).symm
  var b hb hbegins := (h.var b hb ((h.begins_iff hb).mp hbegins)).symm
  assigns := by
    intro b hb hbegins n hn
    have hg := (h.begins_iff hb).mp hbegins
    rw [h.var b hb hg]
    exact (h.assigns b hb hg n hn).symm
  condition_mem := h.along.symm.condition_mem
  source_mem b hb n hn := h.along.symm.source_mem n hn b hb

/-- Every goal of a walk begins at one of its positions. -/
theorem begins (h : g.AgreeOn g' region asked) (hg : g.CanHold n goals) (hn : n ∈ region)
    (hgoals : goals ⊆ asked) (hb : b ∈ goals) : g.Begins region b :=
  (h.along.begins hg hn hgoals hb).imp fun _ ⟨hn, _, ho⟩ => ⟨hn, ho⟩

theorem seen_mem (h : g.AgreeOn g' region asked) (hn : n ∈ region) (hs : g.Stands n choice goals)
    (hg : goals ⊆ asked) (hb : g.Seen n choice goals b) : b ∈ asked :=
  h.along.seen_mem hn hs hg hb

/-- A search that asks only for what the graphs agree on has one answer in both. -/
theorem canHold_iff (h : g.AgreeOn g' region asked) (hn : n ∈ region) (hgoals : goals ⊆ asked) :
    g'.CanHold n goals ↔ g.CanHold n goals := h.along.canHold_iff hn hgoals

theorem isVisible_eq (h : g.AgreeOn g' region asked) (hn : n ∈ region) (hb : b ∈ asked) :
    g'.isVisible b n = g.isVisible b n := by
  rw [Bool.eq_iff_iff, isVisible_iff, isVisible_iff]
  exact h.canHold_iff hn (Set.singleton_subset_iff.mpr hb)

end AgreeOn

/-- Variables have been added, and bindings that begin at one node. Bindings that were there may
begin there as well. -/
structure AddedAt (n : NodeId) (g g' : Graph) : Prop where
  bound : g.Bound g'
  size_le : g.bindings.size ≤ g'.bindings.size
  var : ∀ b < g.bindings.size, (g'.binding b).var = (g.binding b).var
  data : ∀ b < g.bindings.size, (g'.binding b).data = (g.binding b).data
  origin : ∀ b k, k ≠ n → (g'.binding b).originAt? k = (g.binding b).originAt? k
  assigns : ∀ k w, k ≠ n → (g'.node k).assigns w = (g.node k).assigns w
  listed : ∀ w, ∃ l, g'.allBindings w = g.allBindings w ++ l ∧ ∀ b ∈ l, g.bindings.size ≤ b

namespace AddedAt

theorem refl (n : NodeId) (g : Graph) : AddedAt n g g where
  bound := .refl g
  size_le := Nat.le_refl _
  var _ _ := rfl
  data _ _ := rfl
  origin _ _ _ := rfl
  assigns _ _ _ := rfl
  listed _ := ⟨[], by simp⟩

theorem trans (h : AddedAt n g g') (h' : AddedAt n g' g'') : AddedAt n g g'' where
  bound := h.bound.trans h'.bound
  size_le := Nat.le_trans h.size_le h'.size_le
  var b hb := (h'.var b (Nat.lt_of_lt_of_le hb h.size_le)).trans (h.var b hb)
  data b hb := (h'.data b (Nat.lt_of_lt_of_le hb h.size_le)).trans (h.data b hb)
  origin b k hk := (h'.origin b k hk).trans (h.origin b k hk)
  assigns k w hk := (h'.assigns k w hk).trans (h.assigns k w hk)
  listed := by
    intro w
    obtain ⟨l, hl, hnew⟩ := h.listed w
    obtain ⟨l', hl', hnew'⟩ := h'.listed w
    refine ⟨l ++ l', by rw [hl', hl, List.append_assoc], ?_⟩
    intro b hb
    rcases List.mem_append.mp hb with hb | hb
    · exact hnew b hb
    · exact Nat.le_trans h.size_le (hnew' b hb)

end AddedAt

theorem allBindings_eq_nil {v : VarId} (h : g.vars.size ≤ v) : g.allBindings v = [] := by
  unfold allBindings var
  rw [Array.getElem?_eq_none h]
  rfl

theorem allBindings_newVariable (g : Graph) (name : String) (w : VarId) :
    (g.newVariable name).2.allBindings w = g.allBindings w := by
  unfold newVariable allBindings var
  dsimp only
  rw [Array.getElem?_push]
  split_ifs with hw
  · rw [hw, Array.getElem?_eq_none (Nat.le_refl _)]
    rfl
  · rfl

theorem bindingTo?_newVariable (g : Graph) (name : String) (w : VarId) (d : DataId) :
    (g.newVariable name).2.bindingTo? w d = g.bindingTo? w d := by
  unfold newVariable bindingTo? var
  dsimp only
  rw [Array.getElem?_push]
  split_ifs with hw
  · rw [hw, Array.getElem?_eq_none (Nat.le_refl _)]
    rfl
  · rfl

/-- The index of a variable that is not there is empty. -/
theorem bindingTo?_eq_none {v : VarId} (h : g.vars.size ≤ v) (d : DataId) :
    g.bindingTo? v d = none := by
  unfold bindingTo? var
  rw [Array.getElem?_eq_none h]
  exact Std.TreeMap.getElem?_emptyc

theorem mem_of_mem_visible {a : BindingId} {v : VarId} (h : a ∈ g.visible v n) :
    a ∈ g.allBindings v := by
  rw [visible_eq_filter] at h
  exact (List.mem_filter.mp h).1

private theorem newVariable_agreeOn (g : Graph) (name : String) :
    g.AgreeOn (g.newVariable name).2 Set.univ Set.univ :=
  ⟨fun _ _ _ _ => trivial, fun _ _ => rfl, fun _ _ => rfl, fun _ _ _ _ => rfl, fun _ _ _ => rfl,
    fun _ _ _ _ _ => rfl, fun _ _ _ _ => trivial, fun _ _ _ _ _ _ _ _ _ _ => trivial⟩

theorem visible_newVariable (g : Graph) (name : String) (v : VarId) (n : NodeId) :
    (g.newVariable name).2.visible v n = g.visible v n := by
  rw [visible_eq_filter, visible_eq_filter, allBindings_newVariable]
  exact List.filter_congr fun b _ => (newVariable_agreeOn g name).isVisible_eq trivial trivial

theorem canCombine_newVariable (g : Graph) (name : String) (goals : List BindingId) (n : NodeId) :
    (g.newVariable name).2.canCombine goals n = g.canCombine goals n := by
  rw [Bool.eq_iff_iff, canCombine_iff, canCombine_iff]
  exact (newVariable_agreeOn g name).canHold_iff trivial (Set.subset_univ _)

theorem newVariable_addedAt (g : Graph) (name : String) (n : NodeId) :
    AddedAt n g (g.newVariable name).2 where
  bound := .of_nodes rfl
  size_le := Nat.le_refl _
  var _ _ := rfl
  data _ _ := rfl
  origin _ _ _ := rfl
  assigns _ _ _ := rfl
  listed w := ⟨[], by simp [allBindings_newVariable]⟩

theorem originAt?_addSources {b : Binding} {sources : SourceSet} (hk : k ≠ n) :
    ({ b with origins := addSources b.origins n sources } : Binding).originAt? k =
      b.originAt? k := by
  have hfind (origins : List Origin) : (addSources origins n sources).find? (·.node == k) =
      origins.find? (·.node == k) := by
    induction origins with
    | nil => simp [addSources, hk.symm]
    | cons o origins ih =>
      rw [addSources]
      by_cases ho : o.node = n
      · have hno : ¬ o.node = k := fun h => hk (h.symm.trans ho)
        simp [ho, hk.symm]
      · rw [if_neg (by simpa using ho), List.find?_cons, List.find?_cons, ih]
  exact hfind b.origins

theorem originAt?_addSources_self {b : Binding} {sources : SourceSet} :
    (({ b with origins := addSources b.origins n sources } : Binding).originAt? n).isSome := by
  have hfind (origins : List Origin) :
      ((addSources origins n sources).find? (·.node == n)).isSome := by
    induction origins with
    | nil => simp [addSources]
    | cons o origins ih =>
      rw [addSources]
      by_cases ho : o.node = n
      · simp [ho]
      · rw [if_neg (by simpa using ho), List.find?_cons_of_neg (by simpa using ho)]
        exact ih
  exact hfind b.origins

theorem addOrigin_addedAt (b : BindingId) (n : NodeId) (sources : List BindingId) :
    AddedAt n g (g.addOrigin b n sources) where
  bound := addOrigin_bound sources
  size_le := by simp [addOrigin]
  var a _ := addOrigin_binding_var sources a
  data a _ := by
    rw [addOrigin_binding]
    split_ifs <;> rfl
  origin a k hk := by
    rw [addOrigin_binding]
    split_ifs
    · exact originAt?_addSources hk
    · rfl
  assigns k w hk := by
    rw [Bool.eq_iff_iff, addOrigin_assigns]
    exact or_iff_left fun h => hk h.1
  listed _ := ⟨[], by simp [addOrigin, allBindings, Graph.var]⟩

theorem addBinding_addedAt (v : VarId) (d : DataId) (sources : List BindingId) (n : NodeId) :
    AddedAt n g (g.addBinding v d sources n).2 := by
  cases hb : g.bindingTo? v d with
  | some b =>
    rw [addBinding_old sources n hb]
    exact addOrigin_addedAt b n sources
  | none =>
    have hbound := addBinding_bound (g := g) v d sources n
    obtain ⟨g', he, hsize, _, hnew, hold, hlist, ha⟩ := addBinding_new d sources n hb
    rw [he] at hbound ⊢
    have hout : g.binding g.bindings.size = default := by simp [binding]
    have hsize : g.bindings.size ≤ g'.bindings.size := by omega
    refine ⟨hbound, hsize, ?_, ?_, ?_, ?_, ?_⟩
    · intro b hb
      rw [hold b (Nat.ne_of_lt hb)]
    · intro b hb
      rw [hold b (Nat.ne_of_lt hb)]
    · intro b k hk
      rcases eq_or_ne b g.bindings.size with rfl | hne
      · rw [hnew, hout]
        simp only [Binding.originAt?, List.find?_cons, beq_eq_false_iff_ne.mpr hk.symm]
        rfl
      · rw [hold b hne]
    · intro k w hk
      rw [Bool.eq_iff_iff, ha]
      exact or_iff_left fun h => hk h.1
    · intro w
      by_cases hw : w = v ∧ v < g.vars.size
      · exact ⟨[g.bindings.size], by rw [hlist, if_pos hw], by simp⟩
      · exact ⟨[], by rw [hlist, if_neg hw, List.append_nil], by simp⟩

theorem pasteBindings_addedAt (v : VarId) (bs : List BindingId) (n : NodeId) :
    AddedAt n g (g.pasteBindings v bs n) := by
  induction bs generalizing g with
  | nil => exact .refl n g
  | cons b bs ih => exact (addBinding_addedAt v (g.dataOf b) [b] n).trans ih

theorem pasteVariable_addedAt (dst src : VarId) (n : NodeId) :
    AddedAt n g (g.pasteVariable dst src n) := by
  unfold pasteVariable
  split_ifs
  · exact .refl n g
  · exact pasteBindings_addedAt ..

namespace AddedAt

/-- Nothing is read at the node by a search that starts where the node does not lead. -/
theorem agreeOn (h : AddedAt n g g') (hm : ¬ g.Leads n m) :
    g.AgreeOn g' {k | g.Leads k m} Set.univ where
  closed k hk p hp := .head hp hk
  incoming k _ := h.bound.incoming k
  condition k _ := h.bound.condition k
  origin b _ k hk := h.origin b k fun he => hm (he ▸ hk)
  var := by
    rintro b - ⟨k, -, hk⟩
    obtain ⟨o, ho⟩ := Option.isSome_iff_exists.mp hk
    exact h.var b (lt_of_originAt? ho)
  assigns := by
    rintro b - - k hk
    exact h.assigns k _ fun he => hm (he ▸ hk)
  condition_mem _ _ _ _ := trivial
  source_mem _ _ _ _ _ _ _ _ _ _ := trivial

theorem canHold_iff (h : AddedAt n g g') (hm : ¬ g.Leads n m) :
    g'.CanHold m goals ↔ g.CanHold m goals :=
  (h.agreeOn hm).canHold_iff .refl (Set.subset_univ goals)

theorem canCombine_eq (h : AddedAt n g g') (hm : ¬ g.Leads n m) (goals : List BindingId) :
    g'.canCombine goals m = g.canCombine goals m := by
  rw [Bool.eq_iff_iff, canCombine_iff, canCombine_iff]
  exact h.canHold_iff hm

/-- What a variable can hold where the node does not lead stays the same, binding by binding. -/
theorem visible_eq (h : AddedAt n g g') (hm : ¬ g.Leads n m) (v : VarId) :
    g'.visible v m = g.visible v m := by
  have hsame (b : BindingId) : g'.isVisible b m = g.isVisible b m :=
    (h.agreeOn hm).isVisible_eq .refl trivial
  obtain ⟨l, hl, hnew⟩ := h.listed v
  have hhidden : (l.filter fun b => g.isVisible b m) = [] := by
    rw [List.filter_eq_nil_iff]
    intro b hb hv
    obtain ⟨k, -, hk⟩ := (h.agreeOn hm).begins ((isVisible_iff g b m).mp hv) .refl (Set.subset_univ _) rfl
    obtain ⟨o, ho⟩ := Option.isSome_iff_exists.mp hk
    exact absurd (lt_of_originAt? ho) (Nat.not_lt.mpr (hnew b hb))
  rw [visible_eq_filter, visible_eq_filter, hl, List.filter_append]
  simp only [hsame]
  rw [hhidden, List.append_nil]

end AddedAt

end ValueTrace.Graph
