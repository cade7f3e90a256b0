import Mathlib.Data.Set.Insert
import ValueTrace.Proofs.Visibility.PlainSearch

/-! A marker holds where one of the sets that justify it does, and it is carried to there. -/
namespace ValueTrace.Graph

def Sole (g : Graph) (c : BindingId) : Prop :=
  ∀ a, (g.binding a).origins ≠ [] → (g.binding a).var = (g.binding c).var → a = c

variable {g : Graph} {n : NodeId} {choice : BindingId → SourceSet} {goals : Set BindingId}
  {c : BindingId} {o : Origin} {s : SourceSet}

/-- A binding that does not begin at the node is seen with the others and leads to nothing. -/
theorem seen_insert_iff (hc : (g.binding c).originAt? n = none) {a : BindingId} :
    g.Seen n choice (insert c goals) a ↔ a = c ∨ g.Seen n choice goals a := by
  constructor
  · intro ha
    induction ha with
    | goal ha => exact ha.imp id .goal
    | condition ha => exact .inr (.condition ha)
    | source _ ho hs ih =>
      rcases ih with rfl | ih
      · simp [hc] at ho
      · exact .inr (.source ih ho hs)
  · rintro (rfl | ha)
    · exact .goal (.inl rfl)
    · exact ha.mono fun a ha => .goal (.inr ha)

theorem carried_insert (hc : (g.binding c).originAt? n = none) :
    g.Carried n choice (insert c goals) = insert c (g.Carried n choice goals) := by
  ext a
  constructor
  · rintro ⟨ha, ho⟩
    exact ((seen_insert_iff hc).mp ha).imp id fun ha => ⟨ha, ho⟩
  · rintro (rfl | ⟨ha, ho⟩)
    · exact ⟨.goal (.inl rfl), hc⟩
    · exact ⟨(seen_insert_iff hc).mpr (.inr ha), ho⟩

/-- A position can carry another binding along, if it sees no binding of the same variable. -/
theorem Stands.insert (hs : g.Stands n choice goals) (hc : (g.binding c).originAt? n = none)
    (hapart : ∀ a, g.Seen n choice goals a → (g.binding a).var = (g.binding c).var → a = c) :
    g.Stands n choice (insert c goals) ∧
      g.Carried n choice (insert c goals) = insert c (g.Carried n choice goals) := by
  refine ⟨⟨fun a o ha ho => ?_, fun a d ha hd hv => ?_⟩, carried_insert hc⟩
  · rcases (seen_insert_iff hc).mp ha with rfl | ha
    · rw [hc] at ho
      cases ho
    · exact hs.chosen a o ha ho
  · rcases (seen_insert_iff hc).mp ha with rfl | ha' <;>
      rcases (seen_insert_iff hc).mp hd with rfl | hd'
    · rfl
    · exact (hapart d hd' hv.symm).symm
    · exact hapart a ha' hv
    · exact hs.apart a d ha' hd' hv

/-- Where nothing leads to the marker, choosing a set for it changes nothing else. -/
private theorem seen_update_iff (hc : ¬ g.Seen n choice (goals ∪ {a | a ∈ s}) c)
    (ho : (g.binding c).originAt? n = some o) {a : BindingId} :
    g.Seen n (Function.update choice c s) (insert c goals) a ↔
      a = c ∨ g.Seen n choice (goals ∪ {a | a ∈ s}) a := by
  constructor
  · intro ha
    induction ha with
    | goal ha => exact ha.imp id fun ha => .goal (.inl ha)
    | condition ha => exact .inr (.condition ha)
    | @source a d _ hao hd ih =>
      rcases ih with rfl | ha
      · rw [Function.update_self] at hd
        exact .inr (.goal (.inr hd))
      · have hac : a ≠ c := fun hac => hc (hac ▸ ha)
        rw [Function.update_of_ne hac] at hd
        exact .inr (.source ha hao hd)
  · rintro (rfl | ha)
    · exact .goal (.inl rfl)
    · induction ha with
      | goal ha =>
        rcases ha with ha | ha
        · exact .goal (.inr ha)
        · exact .source (.goal (.inl rfl)) (by simp [ho]) (by rwa [Function.update_self])
      | condition ha => exact .condition ha
      | @source a d ha hao hd ih =>
        have hac : a ≠ c := fun hac => hc (hac ▸ ha)
        exact .source ih hao (by rwa [Function.update_of_ne hac])

private theorem holdsBy_update (hc : ¬ g.Seen n choice (goals ∪ {a | a ∈ s}) c)
    (ho : (g.binding c).originAt? n = some o) (hs : s ∈ o.sourceSets)
    (hother : ∀ d, g.Seen n choice (goals ∪ {a | a ∈ s}) d →
      (g.binding d).var = (g.binding c).var → d = c)
    (h : g.HoldsBy n choice (goals ∪ {a | a ∈ s})) :
    g.HoldsBy n (Function.update choice c s) (insert c goals) := by
  have hcarried : g.Carried n (Function.update choice c s) (insert c goals) =
      g.Carried n choice (goals ∪ {a | a ∈ s}) := by
    ext a
    refine and_congr_left fun hno => (seen_update_iff hc ho).trans (or_iff_right ?_)
    rintro rfl
    simp [hno] at ho
  refine ⟨⟨fun a o' ha ho' => ?_, fun a d ha hd hv => ?_⟩, by rw [hcarried]; exact h.2⟩
  · rcases (seen_update_iff hc ho).mp ha with rfl | ha
    · rw [Function.update_self]
      rw [ho] at ho'
      cases ho'
      exact hs
    · have hac : a ≠ c := fun hac => hc (hac ▸ ha)
      rw [Function.update_of_ne hac]
      exact h.1.chosen a o' ha ho'
  · rcases (seen_update_iff hc ho).mp ha with rfl | ha' <;>
      rcases (seen_update_iff hc ho).mp hd with rfl | hd'
    · rfl
    · exact (hother d hd' hv.symm).symm
    · exact hother a ha' hv
    · exact h.1.apart a d ha' hd' hv

/-- A binding that is replaced at a node stands for one of the sets that justify it there, if what
these lead to has no other binding of its variable. -/
theorem canHold_insert_iff_of_seen (ho : (g.binding c).originAt? n = some o)
    (hother : ∀ s ∈ o.sourceSets, ∀ choice d, g.HoldsBy n choice (goals ∪ {a | a ∈ s}) →
      g.Seen n choice (goals ∪ {a | a ∈ s}) d → (g.binding d).var = (g.binding c).var → d = c) :
    g.CanHold n (insert c goals) ↔ ∃ s ∈ o.sourceSets, g.CanHold n (goals ∪ {a | a ∈ s}) := by
  constructor
  · intro h
    obtain ⟨choice, hg⟩ := canHold_iff_holdsBy.mp h
    have hseen : g.Seen n choice (insert c goals) c := .goal (.inl rfl)
    refine ⟨choice c, hg.1.chosen c o hseen ho, canHold_iff_holdsBy.mpr ⟨choice, hg.mono ?_⟩⟩
    rintro a (ha | ha)
    · exact .goal (.inr ha)
    · exact .source hseen (by simp [ho]) ha
  · rintro ⟨s, hs, h⟩
    obtain ⟨choice, hg⟩ := canHold_iff_holdsBy.mp h
    by_cases hc : g.Seen n choice (goals ∪ {a | a ∈ s}) c
    · refine canHold_iff_holdsBy.mpr ⟨choice, hg.mono ?_⟩
      rintro a (rfl | ha)
      · exact hc
      · exact .goal (.inl ha)
    · exact canHold_iff_holdsBy.mpr
        ⟨_, holdsBy_update hc ho hs (fun d hd => hother s hs choice d hg hd) hg⟩

/-- A marker that is replaced at a node stands for one of the sets that justify it there. -/
theorem canHold_insert_iff (ho : (g.binding c).originAt? n = some o) (hsole : g.Sole c) :
    g.CanHold n (insert c goals) ↔ ∃ s ∈ o.sourceSets, g.CanHold n (goals ∪ {a | a ∈ s}) := by
  refine canHold_insert_iff_of_seen ho fun s _ choice d hg hd hv => ?_
  have hhold : g.HoldsBy n choice {d} := hg.mono fun a ha => ha ▸ hd
  exact hsole d ((canHold_iff_holdsBy.mpr ⟨choice, hhold⟩).origins_ne_nil rfl) hv

end ValueTrace.Graph
