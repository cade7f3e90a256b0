import Mathlib.Data.Finset.Powerset
import Mathlib.Data.Finset.Prod
import ValueTrace.Proofs.Visibility.MemoizedSearch

/-! The bound on the depth of the search is never felt, on any graph and for any goals: the states
of a path differ in the node or in which bindings of the graph are goals. -/
namespace ValueTrace.Graph

def signature (g : Graph) (st : NodeId × SourceSet) : Nat × Finset Nat :=
  (st.1, (st.2.map fun b : Nat => min b g.bindings.size).toFinset)

def signatures (g : Graph) : Finset (Nat × Finset Nat) :=
  Finset.range g.nodes.size ×ˢ (Finset.range (g.bindings.size + 1)).powerset

variable {g : Graph} {n : NodeId} {goals : SourceSet}

@[simp] theorem mem_arrive {b : BindingId} :
    b ∈ g.arrive n goals ↔ b ∈ goals ∨ (g.node n).condition = some b := by
  rw [arrive]
  cases h : (g.node n).condition with
  | none => simp
  | some c =>
    rw [SourceSet.mem_insert, Option.some.injEq]
    tauto

theorem arrive_sorted (h : goals.SortedLT) : (g.arrive n goals).SortedLT := by
  rw [arrive]
  split
  · exact SourceSet.insert_sorted h
  · exact h

theorem condition_mem_arrive (c : BindingId) (h : (g.node n).condition = some c) :
    c ∈ g.arrive n goals := mem_arrive.mpr (.inr h)

private theorem signatures_card : g.signatures.card < g.searchBound := by
  rw [signatures, searchBound, Finset.card_product, Finset.card_powerset, Finset.card_range,
    Finset.card_range, Nat.pow_eq, Nat.lt_succ_iff]
  exact Nat.mul_le_mul_right _ (Nat.le_succ _)

private theorem lt_of_mem_incoming {p : NodeId} (h : p ∈ (g.node n).incoming) :
    n < g.nodes.size := by
  by_contra hn
  have hd : g.node n = default := by simp [node, Array.getElem?_eq_none (Nat.le_of_not_lt hn)]
  rw [hd] at h
  cases h

private theorem signature_mem (h : n < g.nodes.size) : g.signature (n, goals) ∈ g.signatures := by
  simp only [signature, signatures, Finset.mem_product, Finset.mem_range, Finset.mem_powerset]
  refine ⟨h, fun b hb => ?_⟩
  obtain ⟨a, _, rfl⟩ := List.mem_map.mp (List.mem_toFinset.mp hb)
  simp

private theorem originAt?_of_size_le {b : BindingId} (h : g.bindings.size ≤ b) :
    (g.binding b).originAt? n = none := by
  cases ho : (g.binding b).originAt? n with
  | none => rfl
  | some o => exact absurd (lt_of_originAt? ho) (Nat.not_lt.mpr h)

private theorem var_of_size_le {b : BindingId} (h : g.bindings.size ≤ b) :
    (g.binding b).var = (default : Binding).var := by
  simp [binding, Array.getElem?_eq_none h]

/-- States with one signature are equal if one of them has all goals of the other that are no
bindings, and has only one of these. -/
private theorem eq_of_signature {st : NodeId × SourceSet}
    (h : g.signature st = g.signature (n, goals)) (hst : st.2.SortedLT) (hs : goals.SortedLT)
    (hsub : ∀ b ∈ st.2, g.bindings.size ≤ b → b ∈ goals)
    (hone : ∀ a ∈ goals, ∀ b ∈ goals, g.bindings.size ≤ a → g.bindings.size ≤ b → a = b) :
    st = (n, goals) := by
  obtain ⟨n', goals'⟩ := st
  obtain ⟨hn, hg⟩ := Prod.mk.injEq _ _ _ _ ▸ h
  have hmem (b : Nat) : (∃ a : Nat, a ∈ goals' ∧ min a g.bindings.size = b) ↔
      ∃ a : Nat, a ∈ goals ∧ min a g.bindings.size = b := by
    simpa using Finset.ext_iff.mp hg b
  refine Prod.ext hn (hst.eq_of_mem_iff hs fun b => ?_)
  by_cases hb : g.bindings.size ≤ b
  · refine ⟨fun hm => hsub b hm hb, fun hm => ?_⟩
    obtain ⟨a, ha, he⟩ := (hmem g.bindings.size).mpr ⟨b, hm, Nat.min_eq_right hb⟩
    have hle : g.bindings.size ≤ a := by omega
    exact hone a (hsub a ha hle) b hm hle hb ▸ ha
  · constructor
    · intro hm
      obtain ⟨a, ha, he⟩ := (hmem b).mp ⟨b, hm, by omega⟩
      have : a = b := by omega
      exact this ▸ ha
    · intro hm
      obtain ⟨a, ha, he⟩ := (hmem b).mpr ⟨b, hm, by omega⟩
      have : a = b := by omega
      exact this ▸ ha

/-- A fresh state costs one signature, and there are no more of these than the bound allows. -/
private theorem within_of_card {fuel : Nat} {path : Set (NodeId × SourceSet)}
    (used : Finset (Nat × Finset Nat)) (hused : ∀ a ∈ used, ∃ st ∈ path, g.signature st = a)
    (hsub : used ⊆ g.signatures) (hcard : g.signatures.card < fuel + used.card)
    (hpath : ∀ st ∈ path, st.2.SortedLT ∧ ∀ b ∈ st.2, g.bindings.size ≤ b → b ∈ goals)
    (hs : goals.SortedLT) (hc : ∀ c, (g.node n).condition = some c → c ∈ goals) :
    g.Within fuel path (some (n, goals)) := by
  induction fuel generalizing path used n goals with
  | zero =>
    have := Finset.card_le_card hsub
    omega
  | succ fuel ih =>
    refine or_iff_not_imp_left.mpr fun hg => or_iff_not_imp_left.mpr fun hp m hm => ?_
    obtain ⟨c, hw, hm⟩ := List.mem_flatMap.mp hm
    split_ifs at hm with he
    · rw [List.mem_singleton.mp hm]
      cases fuel <;> trivial
    obtain ⟨p, hp', rfl⟩ := List.mem_map.mp hm
    obtain ⟨hcs, choice, hstands, hcarried⟩ := sorted_of_mem_waysFrom hc hw
    have houter (b : BindingId) (hb : b ∈ goals) (hle : g.bindings.size ≤ b) : b ∈ c := by
      have : b ∈ g.Carried n choice {b | b ∈ goals} := ⟨.goal hb, originAt?_of_size_le hle⟩
      rwa [← hcarried] at this
    have hfresh : g.signature (n, goals) ∉ used := fun hu => by
      obtain ⟨st, hst, hsig⟩ := hused _ hu
      refine hp (eq_of_signature hsig (hpath st hst).1 hs (hpath st hst).2 ?_ ▸ hst)
      exact fun a ha b hb hla hlb => hstands.apart a b (.goal ha) (.goal hb)
        ((var_of_size_le hla).trans (var_of_size_le hlb).symm)
    have hmem : g.signature (n, goals) ∈ g.signatures :=
      signature_mem (lt_of_mem_incoming (List.mem_filter.mp hp').1)
    refine ih (insert (g.signature (n, goals)) used) ?_ ?_ ?_ ?_ (arrive_sorted hcs)
      condition_mem_arrive
    · intro a ha
      rcases Finset.mem_insert.mp ha with rfl | ha
      · exact ⟨_, Set.mem_insert _ _, rfl⟩
      · obtain ⟨st, hst, hsig⟩ := hused a ha
        exact ⟨st, Set.mem_insert_of_mem _ hst, hsig⟩
    · exact Finset.insert_subset hmem hsub
    · rw [Finset.card_insert_of_notMem hfresh]
      omega
    · intro st hst
      rcases Set.mem_insert_iff.mp hst with rfl | hst
      · exact ⟨hs, fun b hb hle => mem_arrive.mpr (.inl (houter b hb hle))⟩
      · exact ⟨(hpath st hst).1, fun b hb hle =>
          mem_arrive.mpr (.inl (houter b ((hpath st hst).2 b hb hle) hle))⟩

/-- The bound suffices from every node and for every set of goals. -/
theorem within_searchBound (g : Graph) (n : NodeId) (goals : List BindingId) :
    g.Within g.searchBound ∅ (some (n, g.arrive n (.ofList goals))) :=
  within_of_card ∅ (by simp) (by simp) (by simpa using signatures_card) (by simp)
    (arrive_sorted (SourceSet.ofList_sorted goals)) condition_mem_arrive

end ValueTrace.Graph
