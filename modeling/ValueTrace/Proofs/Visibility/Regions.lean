import ValueTrace.Proofs.Visibility.Queries

/-! A walk leaves a region of the graph through an edge from outside. What is carried there decides
what holds in the region. -/
namespace ValueTrace.Graph

/-- A walk against the edges stays in the region until it steps to a node outside with what is left
to carry. -/
inductive LeadsOut (g : Graph) (region : Set NodeId) :
    NodeId → Set BindingId → NodeId → Set BindingId → Prop
  | out {n goals} (choice : BindingId → SourceSet) (p : NodeId) : g.Stands n choice goals →
      p ∈ (g.node n).incoming → p ∉ region → LeadsOut g region n goals p (g.Carried n choice goals)
  | inside {n goals q rest} (choice : BindingId → SourceSet) (p : NodeId) :
      g.Stands n choice goals → p ∈ (g.node n).incoming → p ∈ region →
      (∀ b ∈ g.Carried n choice goals, ¬ g.Overwrites p b) →
      LeadsOut g region p (g.Carried n choice goals) q rest → LeadsOut g region n goals q rest

/-- The nodes of a region that are reached from a node outside without leaving the region. -/
inductive ReachedIn (g : Graph) (region : Set NodeId) (start : NodeId) : NodeId → Prop
  | enter {n} : start ∈ (g.node n).incoming → n ∈ region → ReachedIn g region start n
  | step {n p} : p ∈ (g.node n).incoming → ReachedIn g region start p → n ∈ region →
      ReachedIn g region start n

variable {g : Graph} {region : Set NodeId} {n split : NodeId} {goals : Set BindingId}
  {b : BindingId} {condition : Option BindingId}

theorem ReachedIn.mem (h : g.ReachedIn region split n) : n ∈ region := by
  cases h <;> assumption

private theorem seen_of_no_sources (hc : (g.node n).condition = none) {a : BindingId}
    (ha : g.Seen n (fun _ => []) {b} a) : a = b := by
  induction ha with
  | goal ha => exact ha
  | condition ha => simp [hc] at ha
  | source _ _ ha => cases ha

theorem LeadsOut.canHold {q : NodeId} {rest : Set BindingId} (h : g.LeadsOut region n goals q rest)
    (ho : ∀ a ∈ rest, ¬ g.Overwrites q a) (hq : g.CanHold q rest) : g.CanHold n goals := by
  induction h with
  | out choice p hs hp _ => exact .before choice p hs hp ho hq
  | inside choice p hs hp _ hfree _ ih => exact .before choice p hs hp hfree (ih ho hq)

/-- A goal without an origin in the region is carried out of it. -/
theorem LeadsOut.mem_rest {q : NodeId} {rest : Set BindingId} (h : g.LeadsOut region n goals q rest)
    (hn : n ∈ region) (hfree : ∀ k ∈ region, (g.binding b).originAt? k = none) (hb : b ∈ goals) :
    b ∈ rest := by
  induction h with
  | out choice _ _ _ _ => exact ⟨.goal hb, hfree _ hn⟩
  | inside choice _ _ _ hin _ _ ih => exact ih hin ⟨.goal hb, hfree _ hn⟩

/-- The walk leaves through an edge into the region. -/
theorem LeadsOut.crosses {q : NodeId} {rest : Set BindingId} (h : g.LeadsOut region n goals q rest)
    (hn : n ∈ region) : ∃ k ∈ region, q ∈ (g.node k).incoming ∧ q ∉ region := by
  induction h with
  | out _ p _ hp hout => exact ⟨_, hn, hp, hout⟩
  | inside _ _ _ _ hin _ _ ih => exact ih hin

/-- As long as a goal has no origin in the region, a walk has to lead out of it. -/
theorem exists_leadsOut (hn : n ∈ region) (hfree : ∀ k ∈ region, (g.binding b).originAt? k = none)
    (hg : g.CanHold n goals) (hb : b ∈ goals) :
    ∃ q rest, g.LeadsOut region n goals q rest ∧ (∀ a ∈ rest, ¬ g.Overwrites q a) ∧
      g.CanHold q rest := by
  induction hg with
  | here choice _ hc => exact absurd ⟨.goal hb, hfree _ hn⟩ (hc b)
  | @before n goals choice p hs hp ho hh ih =>
    by_cases hin : p ∈ region
    · obtain ⟨q, rest, hlead, hrest⟩ := ih hin ⟨.goal hb, hfree n hn⟩
      exact ⟨q, rest, .inside choice p hs hp hin ho hlead, hrest⟩
    · exact ⟨p, _, .out choice p hs hp hin, ho, hh⟩

/-- A binding holds from where it begins without sources. -/
theorem canHold_of_origin {o : Origin} (hc : (g.node n).condition = none)
    (ho : (g.binding b).originAt? n = some o) (hs : [] ∈ o.sourceSets) : g.CanHold n {b} := by
  have hseen {a : BindingId} : g.Seen n (fun _ => []) {b} a → a = b := seen_of_no_sources hc
  refine .here (fun _ => []) ⟨fun a o' ha ho' => ?_, fun a c ha hd _ => ?_⟩ fun a ⟨ha, hno⟩ => ?_
  · rw [hseen ha, ho] at ho'
    exact Option.some.inj ho' ▸ hs
  · exact (hseen ha).trans (hseen hd).symm
  · rw [hseen ha, ho] at hno
    cases hno

/-- A binding that is not bound at a node is carried to the nodes before it. -/
theorem stands_carried (hc : (g.node n).condition = none)
    (hb : (g.binding b).originAt? n = none) :
    g.Stands n (fun _ => []) {b} ∧ g.Carried n (fun _ => []) {b} = {b} := by
  have hseen {a : BindingId} : g.Seen n (fun _ => []) {b} a → a = b := seen_of_no_sources hc
  refine ⟨⟨fun a o ha ho => ?_, fun a c ha hd _ => ?_⟩, ?_⟩
  · rw [hseen ha, hb] at ho
    cases ho
  · exact (hseen ha).trans (hseen hd).symm
  · ext a
    constructor
    · exact fun ha => hseen ha.1
    · rintro rfl
      exact ⟨.goal rfl, hb⟩

theorem canHold_of_incoming {p : NodeId} (hc : (g.node n).condition = none)
    (hb : (g.binding b).originAt? n = none) (hp : p ∈ (g.node n).incoming)
    (ho : ¬ g.Overwrites p b) (hg : g.CanHold p {b}) : g.CanHold n {b} := by
  obtain ⟨hs, hcarried⟩ := stands_carried hc hb
  refine .before (fun _ => []) p hs hp ?_ ?_
  · rw [hcarried]
    rintro _ rfl
    exact ho
  · rwa [hcarried]

theorem leadsOut_of_incoming {p : NodeId} (hc : (g.node n).condition = none)
    (hb : (g.binding b).originAt? n = none) (hp : p ∈ (g.node n).incoming) (hout : p ∉ region) :
    g.LeadsOut region n {b} p {b} := by
  obtain ⟨hs, hcarried⟩ := stands_carried hc hb
  have h : g.LeadsOut region n {b} p (g.Carried n (fun _ => []) {b}) :=
    .out (fun _ => []) p hs hp hout
  rwa [hcarried] at h

def EnteredFrom (g : Graph) (split : NodeId) (region : Set NodeId) : Prop :=
  ∀ k ∈ region, ∀ p ∈ (g.node k).incoming, p ∈ region ∨ p = split

theorem LeadsOut.eq_of_enteredFrom {q : NodeId} {rest : Set BindingId}
    (h : g.LeadsOut region n goals q rest) (hn : n ∈ region) (he : g.EnteredFrom split region) :
    q = split := by
  obtain ⟨k, hk, hq, hout⟩ := h.crosses hn
  exact (he k hk q hq).resolve_left hout

/-- With what the conditions of its path ask for, the binding can hold where the region is entered,
and none but the binding itself is overwritten there. -/
def Compatible (g : Graph) (split : NodeId) (region : Set NodeId) (b : BindingId)
    (n : NodeId) : Prop :=
  ∃ rest, g.LeadsOut region n {b} split rest ∧ g.CanHold split rest ∧
    ∀ a ∈ rest, a ≠ b → ¬ g.Overwrites split a

/-- In a region that does not bind it, a binding is visible just where it is compatible, unless the
node before the region overwrites it. -/
theorem isVisible_iff_compatible (he : g.EnteredFrom split region) (hn : n ∈ region)
    (hfree : ∀ k ∈ region, (g.binding b).originAt? k = none) :
    g.isVisible b n = true ↔ g.Compatible split region b n ∧ ¬ g.Overwrites split b := by
  rw [isVisible_iff]
  constructor
  · intro hg
    obtain ⟨q, rest, hlead, ho, hq⟩ := exists_leadsOut hn hfree hg rfl
    have hb : b ∈ rest := hlead.mem_rest hn hfree rfl
    obtain rfl := hlead.eq_of_enteredFrom hn he
    exact ⟨⟨rest, hlead, hq, fun a ha _ => ho a ha⟩, ho b hb⟩
  · rintro ⟨⟨rest, hlead, hq, ho⟩, hb⟩
    refine hlead.canHold (fun a ha => ?_) hq
    by_cases hab : a = b
    · exact hab ▸ hb
    · exact ho a ha hab

/-- All nodes of the region have one condition, and they bind neither the binding nor the
condition. -/
structure Under (g : Graph) (region : Set NodeId) (condition : Option BindingId)
    (b : BindingId) : Prop where
  conditions : ∀ k ∈ region, (g.node k).condition = condition
  unbound : ∀ k ∈ region, ∀ a ∈ b :: condition.toList, (g.binding a).originAt? k = none
  unassigned : ∀ k ∈ region, ∀ a ∈ b :: condition.toList,
    (g.node k).assigns (g.binding a).var = false

namespace Under

variable {choice : BindingId → SourceSet}

private theorem seen_iff (h : g.Under region condition b) (hn : n ∈ region) (hb : b ∈ goals)
    (hg : ∀ a ∈ goals, a ∈ b :: condition.toList) {a : BindingId} :
    g.Seen n choice goals a ↔ a ∈ b :: condition.toList := by
  constructor
  · intro ha
    induction ha with
    | goal ha => exact hg _ ha
    | condition hc => simp [← h.conditions n hn, hc]
    | source _ ho _ ih => simp [h.unbound n hn _ ih] at ho
  · intro ha
    rcases List.mem_cons.mp ha with rfl | ha
    · exact .goal hb
    · exact .condition ((h.conditions n hn).trans (Option.mem_toList.mp ha))

private theorem carried_eq (h : g.Under region condition b) (hn : n ∈ region)
    (hb : b ∈ goals) (hg : ∀ a ∈ goals, a ∈ b :: condition.toList) :
    g.Carried n choice goals = {a | a ∈ b :: condition.toList} := by
  ext a
  constructor
  · exact fun ha => (h.seen_iff hn hb hg).mp ha.1
  · exact fun ha => ⟨(h.seen_iff hn hb hg).mpr ha, h.unbound n hn a ha⟩

private theorem rest_eq (h : g.Under region condition b) {q : NodeId} {rest : Set BindingId}
    (hlead : g.LeadsOut region n goals q rest) (hn : n ∈ region) (hb : b ∈ goals)
    (hg : ∀ a ∈ goals, a ∈ b :: condition.toList) : rest = {a | a ∈ b :: condition.toList} := by
  induction hlead with
  | out choice p _ _ _ => exact h.carried_eq hn hb hg
  | inside choice p _ _ hin _ _ ih =>
    have hc : g.Carried _ choice _ = {a | a ∈ b :: condition.toList} := h.carried_eq hn hb hg
    exact ih hin (hc ▸ List.mem_cons_self) fun a ha => by rwa [hc] at ha

/-- Inside the region the goals walk back to where it was entered, unchanged. -/
theorem canHold (h : g.Under region condition b) (hr : g.ReachedIn region split n)
    (hb : b ∈ goals) (hg : ∀ a ∈ goals, a ∈ b :: condition.toList)
    (ho : ∀ a ∈ b :: condition.toList, ¬ g.Overwrites split a)
    (hs : g.CanHold split {a | a ∈ b :: condition.toList}) : g.CanHold n goals := by
  have hapart : ∀ a ∈ b :: condition.toList, ∀ c ∈ b :: condition.toList,
      (g.binding a).var = (g.binding c).var → a = c := by
    rcases hs with ⟨_, hs, _⟩ | ⟨_, _, hs, _, _, _⟩ <;>
      exact fun a ha c hc => hs.apart a c (.goal ha) (.goal hc)
  have hstands (k : NodeId) (hk : k ∈ region) (less : Set BindingId) (hbl : b ∈ less)
      (hl : ∀ a ∈ less, a ∈ b :: condition.toList) : g.Stands k (fun _ => []) less := by
    constructor
    · intro a o ha hao
      simp [h.unbound k hk a ((h.seen_iff hk hbl hl).mp ha)] at hao
    · intro a c ha hc
      exact hapart a ((h.seen_iff hk hbl hl).mp ha) c ((h.seen_iff hk hbl hl).mp hc)
  induction hr generalizing goals with
  | enter hp hk =>
    refine .before (fun _ => []) split (hstands _ hk goals hb hg) hp ?_ ?_
    · rw [h.carried_eq hk hb hg]
      exact ho
    · rwa [h.carried_eq hk hb hg]
  | step hp hr hk ih =>
    refine .before (fun _ => []) _ (hstands _ hk goals hb hg) hp ?_ ?_
    · rw [h.carried_eq hk hb hg]
      exact fun a ha ⟨hover, _⟩ => by simp [h.unassigned _ hr.mem a ha] at hover
    · rw [h.carried_eq hk hb hg]
      exact ih List.mem_cons_self fun _ ha => ha

/-- In a region with one entrance a binding is visible just where it can hold together with the
condition before the entrance, at a node that overwrites neither. -/
theorem isVisible_iff (h : g.Under region condition b) (he : g.EnteredFrom split region)
    (hr : g.ReachedIn region split n) :
    g.isVisible b n = true ↔ g.CanHold split {a | a ∈ b :: condition.toList} ∧
      ∀ a ∈ b :: condition.toList, ¬ g.Overwrites split a := by
  have hg : ∀ a ∈ ({b} : Set BindingId), a ∈ b :: condition.toList :=
    fun a ha => List.mem_cons.mpr (.inl ha)
  rw [Graph.isVisible_iff]
  constructor
  · intro hv
    have hfree k hk := h.unbound k hk b List.mem_cons_self
    obtain ⟨q, rest, hlead, ho, hq⟩ := exists_leadsOut hr.mem hfree hv rfl
    obtain rfl := hlead.eq_of_enteredFrom hr.mem he
    rw [h.rest_eq hlead hr.mem rfl hg] at ho hq
    exact ⟨hq, ho⟩
  · exact fun ⟨hs, ho⟩ => h.canHold hr rfl hg ho hs

end Under

end ValueTrace.Graph
