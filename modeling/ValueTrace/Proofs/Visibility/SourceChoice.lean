import Mathlib.Data.List.Sort
import Mathlib.Data.List.Nodup
import ValueTrace.Proofs.Visibility.PlainSearch

/-! The ways to replace goals at one node, apart from what is done with them afterwards. They are
the choices of the plain search: no way is missed, and none is made up. -/
namespace ValueTrace

namespace SourceSet

@[simp] theorem mem_insert {a b : BindingId} {s : SourceSet} : a ∈ insert b s ↔ a = b ∨ a ∈ s := by
  induction s with
  | nil => simp [insert]
  | cons c s ih =>
    rw [insert]
    split_ifs with hlt heq
    · simp
    · simp [heq]
    · simp only [List.mem_cons, ih]
      tauto

theorem insert_sorted {b : BindingId} {s : SourceSet} (h : s.SortedLT) : (insert b s).SortedLT := by
  rw [List.sortedLT_iff_pairwise] at h ⊢
  induction s with
  | nil => simp [insert]
  | cons c s ih =>
    obtain ⟨hc, hs⟩ := List.pairwise_cons.mp h
    rw [insert]
    split_ifs with hlt heq
    · refine List.pairwise_cons.mpr ⟨fun a ha => ?_, h⟩
      rcases List.mem_cons.mp ha with rfl | ha
      · exact hlt
      · exact hlt.trans (hc a ha)
    · exact h
    · refine List.pairwise_cons.mpr ⟨fun a ha => ?_, ih hs⟩
      rcases mem_insert.mp ha with rfl | ha
      · exact Nat.lt_of_le_of_ne (Nat.le_of_not_lt hlt) (Ne.symm heq)
      · exact hc a ha

theorem sorted_nil : ([] : SourceSet).SortedLT := List.sortedLT_iff_pairwise.mpr .nil

private theorem foldl_insert (l : List BindingId) {s : SourceSet} (h : s.SortedLT) :
    (l.foldl (fun s b => insert b s) s).SortedLT ∧
      ∀ a, a ∈ l.foldl (fun s b => insert b s) s ↔ a ∈ l ∨ a ∈ s := by
  induction l generalizing s with
  | nil => simpa using h
  | cons b l ih =>
    obtain ⟨hs, hm⟩ := ih (insert_sorted (b := b) h)
    refine ⟨hs, fun a => ?_⟩
    rw [List.foldl_cons, hm a, mem_insert, List.mem_cons]
    tauto

theorem ofList_sorted (l : List BindingId) : (ofList l).SortedLT :=
  (foldl_insert l sorted_nil).1

@[simp] theorem mem_ofList {a : BindingId} {l : List BindingId} : a ∈ ofList l ↔ a ∈ l := by
  simpa [ofList] using (foldl_insert l sorted_nil).2 a

end SourceSet

namespace Graph

/-- Everything that can be carried from a node, one entry for each way to replace the goals. -/
def ways (g : Graph) (n : NodeId) : Nat → List BindingId → List BindingId → SourceSet →
    List SourceSet
  | 0, _, _, _ => []
  | fuel + 1, pending, settled, carried =>
    match g.carry n settled pending carried with
    | (carried, some (b, o, pending)) =>
      o.sourceSets.flatMap fun s => g.ways n fuel (s.reverse ++ pending) (b :: settled) carried
    | (carried, none) => if g.conflicting (settled ++ carried) then [] else [carried]

theorem anyM_append {α : Type} (f : α → StateM Search Bool) (as bs : List α) :
    (as ++ bs).anyM f = (do if ← as.anyM f then pure true else bs.anyM f) := by
  induction as with
  | nil => simp
  | cons a as ih =>
    simp only [List.cons_append, List.anyM_cons, ih, bind_assoc]
    refine bind_congr fun found => ?_
    cases found <;> simp

theorem anyM_singleton {α : Type} (f : α → StateM Search Bool) (a : α) :
    [a].anyM f = f a := by
  rw [List.anyM_cons, List.anyM_nil]
  conv_rhs => rw [← bind_pure (f a)]
  refine bind_congr fun found => ?_
  cases found <;> rfl

theorem anyM_flatMap {α β : Type} (f : β → StateM Search Bool) (k : α → List β)
    (as : List α) : (as.flatMap k).anyM f = as.anyM fun a => (k a).anyM f := by
  induction as with
  | nil => simp
  | cons a as ih =>
    rw [List.flatMap_cons, anyM_append, ih, List.anyM_cons]

/-- Settling tries the ways in turn. -/
theorem settle_eq (g : Graph) (n : NodeId) (go : SourceSet → StateM Search Bool) (fuel : Nat)
    (pending settled : List BindingId) (carried : SourceSet) :
    g.settle n go fuel pending settled carried = (g.ways n fuel pending settled carried).anyM
      fun c => if c.isEmpty then pure true else go c := by
  induction fuel generalizing pending settled carried with
  | zero => simp [settle, ways]
  | succ fuel ih =>
    rw [settle, ways]
    rcases g.carry n settled pending carried with ⟨carried, _ | ⟨b, o, pending⟩⟩
    · by_cases hv : g.conflicting (settled ++ carried)
      · simp [hv]
      · simp only [hv, Bool.false_eq_true, if_false, anyM_singleton]
    · simp only [anyM_flatMap, ih]

/-- A stage of replacing goals: some are settled by a choice, some are carried, and everything that
they call for is settled, carried or pending. -/
structure Stage (g : Graph) (n : NodeId) (goals : List BindingId)
    (choice : BindingId → SourceSet) (pending settled : List BindingId)
    (carried : SourceSet) : Prop where
  sorted : carried.SortedLT
  distinct : settled.Nodup
  chosen : ∀ b ∈ settled, ∃ o, (g.binding b).originAt? n = some o ∧ choice b ∈ o.sourceSets
  free : ∀ b ∈ carried, (g.binding b).originAt? n = none
  goals_met : ∀ b ∈ goals, b ∈ settled ∨ b ∈ carried ∨ b ∈ pending
  sources_met : ∀ a ∈ settled, ∀ b ∈ choice a, b ∈ settled ∨ b ∈ carried ∨ b ∈ pending
  seen : ∀ other : BindingId → SourceSet, (∀ b ∈ settled, other b = choice b) →
    ∀ b, b ∈ settled ∨ b ∈ carried ∨ b ∈ pending → g.Seen n other {b | b ∈ goals} b

variable {g : Graph} {n : NodeId} {goals pending settled rest : List BindingId}
  {carried : SourceSet} {choice : BindingId → SourceSet} {b : BindingId}

private theorem stage_start (g : Graph) (n : NodeId) (goals : List BindingId)
    (choice : BindingId → SourceSet) : g.Stage n goals choice goals.reverse [] [] where
  sorted := SourceSet.sorted_nil
  distinct := .nil
  chosen := by simp
  free := by simp
  goals_met b hb := by simp [hb]
  sources_met := by simp
  seen other _ b hb := .goal (by simpa using hb)

private theorem stage_skip (h : g.Stage n goals choice (b :: pending) settled carried)
    (hb : b ∈ settled ∨ b ∈ carried) : g.Stage n goals choice pending settled carried where
  sorted := h.sorted
  distinct := h.distinct
  chosen := h.chosen
  free := h.free
  goals_met a ha := by
    have := h.goals_met a ha
    grind
  sources_met a ha c hc := by
    have := h.sources_met a ha c hc
    grind
  seen other he a ha := h.seen other he a (by grind)

private theorem stage_carry (h : g.Stage n goals choice (b :: pending) settled carried)
    (ho : (g.binding b).originAt? n = none) :
    g.Stage n goals choice pending settled (SourceSet.insert b carried) where
  sorted := SourceSet.insert_sorted h.sorted
  distinct := h.distinct
  chosen := h.chosen
  free a ha := by
    rcases SourceSet.mem_insert.mp ha with rfl | ha
    · exact ho
    · exact h.free a ha
  goals_met a ha := by
    have := h.goals_met a ha
    grind [SourceSet.mem_insert]
  sources_met a ha c hc := by
    have := h.sources_met a ha c hc
    grind [SourceSet.mem_insert]
  seen other he a ha := h.seen other he a (by grind [SourceSet.mem_insert])

private theorem stage_settle (h : g.Stage n goals choice (b :: pending) settled carried)
    (hb : b ∉ settled) {o : Origin} (ho : (g.binding b).originAt? n = some o) {s : SourceSet}
    (hs : s ∈ o.sourceSets) :
    g.Stage n goals (Function.update choice b s) (s.reverse ++ pending) (b :: settled)
      carried := by
  have hne {a : BindingId} (ha : a ∈ settled) : Function.update choice b s a = choice a :=
    Function.update_of_ne (fun he : a = b => hb (he ▸ ha)) _ _
  refine ⟨h.sorted, List.nodup_cons.mpr ⟨hb, h.distinct⟩, ?_, h.free, ?_, ?_, ?_⟩
  · intro a ha
    rcases List.mem_cons.mp ha with rfl | ha
    · exact ⟨o, ho, by simpa using hs⟩
    · rw [hne ha]
      exact h.chosen a ha
  · intro a ha
    have := h.goals_met a ha
    grind
  · intro a ha c hc
    rcases List.mem_cons.mp ha with rfl | ha
    · rw [Function.update_self] at hc
      simp [hc]
    · rw [hne ha] at hc
      have := h.sources_met a ha c hc
      grind
  · intro other he a ha
    have hold := h.seen other fun c hc => (he c (List.mem_cons_of_mem b hc)).trans (hne hc)
    have hself : other b = s := (he b List.mem_cons_self).trans (Function.update_self b s choice)
    have hsource : a ∈ s → g.Seen n other {b | b ∈ goals} a := fun has =>
      .source (hold b (by simp)) (by simp [ho]) (hself ▸ has)
    have := hold a
    grind

/-- Carrying ends with nothing pending, or with a goal that has an origin at the node. -/
private theorem carry_stage (h : g.Stage n goals choice pending settled carried) :
    match g.carry n settled pending carried with
    | (c, none) => g.Stage n goals choice [] settled c
    | (c, some (b, o, rest)) => g.Stage n goals choice (b :: rest) settled c ∧ b ∉ settled ∧
        (g.binding b).originAt? n = some o := by
  induction pending generalizing carried with
  | nil => simpa [carry] using h
  | cons b pending ih =>
    rw [carry]
    by_cases hb : b ∈ settled ∨ b ∈ carried
    · rw [if_pos (by simpa using hb)]
      exact ih (stage_skip h hb)
    · rw [if_neg (by simpa using hb)]
      cases ho : (g.binding b).originAt? n with
      | none => exact ih (stage_carry h ho)
      | some o => exact ⟨h, fun hs => hb (.inl hs), ho⟩

private theorem stage_seen (h : g.Stage n goals choice [] settled carried)
    (hc : ∀ c, (g.node n).condition = some c → c ∈ goals) (b : BindingId) :
    g.Seen n choice {b | b ∈ goals} b ↔ b ∈ settled ∨ b ∈ carried := by
  constructor
  · intro hb
    induction hb with
    | goal hb => simpa using h.goals_met _ hb
    | condition hb => simpa using h.goals_met _ (hc _ hb)
    | @source a b _ ho hs ih =>
      have ha : a ∈ settled := ih.resolve_right fun ha => by simp [h.free a ha] at ho
      simpa using h.sources_met a ha b hs
  · intro hb
    exact h.seen choice (fun _ _ => rfl) b (by tauto)

private theorem stage_carried (h : g.Stage n goals choice [] settled carried)
    (hc : ∀ c, (g.node n).condition = some c → c ∈ goals) :
    {b | b ∈ carried} = g.Carried n choice {b | b ∈ goals} := by
  ext b
  change b ∈ carried ↔ g.Seen n choice _ b ∧ _
  rw [stage_seen h hc]
  constructor
  · exact fun hb => ⟨.inr hb, h.free b hb⟩
  · rintro ⟨hb | hb, hn⟩
    · obtain ⟨o, ho, _⟩ := h.chosen b hb
      simp [ho] at hn
    · exact hb

private theorem stage_nodup (h : g.Stage n goals choice pending settled carried) :
    (settled ++ carried).Nodup := by
  refine List.Nodup.append h.distinct h.sorted.nodup fun b hs hc => ?_
  obtain ⟨o, ho, _⟩ := h.chosen b hs
  simp [h.free b hc] at ho

private theorem stage_conflict (h : g.Stage n goals choice [] settled carried)
    (hc : ∀ c, (g.node n).condition = some c → c ∈ goals) :
    g.conflicting (settled ++ carried) = false ↔ g.Stands n choice {b | b ∈ goals} := by
  rw [conflicting, Bool.not_eq_false', decide_eq_true_iff,
    List.nodup_map_iff_inj_on (stage_nodup h)]
  simp only [List.mem_append, ← stage_seen h hc]
  constructor
  · intro hv
    refine ⟨fun b o hb ho => ?_, fun a b ha hb => hv a ha b hb⟩
    rcases (stage_seen h hc b).mp hb with hb | hb
    · obtain ⟨o', ho', hs⟩ := h.chosen b hb
      cases ho.symm.trans ho'
      exact hs
    · simp [h.free b hb] at ho
  · exact fun hs a ha b hb => hs.apart a b ha hb

private theorem choice_of_way {fuel : Nat} {c : SourceSet}
    (h : g.Stage n goals choice pending settled carried)
    (hc : ∀ c, (g.node n).condition = some c → c ∈ goals)
    (hw : c ∈ g.ways n fuel pending settled carried) :
    ∃ choice', g.Stands n choice' {b | b ∈ goals} ∧ c.SortedLT ∧
      {b | b ∈ c} = g.Carried n choice' {b | b ∈ goals} := by
  induction fuel generalizing pending settled carried choice with
  | zero => simp [ways] at hw
  | succ fuel ih =>
    have hstage := carry_stage h
    rw [ways] at hw
    split at hw
    · rename_i carried' b o rest he
      rw [he] at hstage
      obtain ⟨hs, hb, ho⟩ := hstage
      obtain ⟨s, hsource, hw⟩ := List.mem_flatMap.mp hw
      exact ih (stage_settle hs hb ho hsource) hw
    · rename_i carried' he
      rw [he] at hstage
      split_ifs at hw with hv
      · simp at hw
      · rw [List.mem_singleton] at hw
        subst hw
        exact ⟨choice, (stage_conflict hstage hc).mp (by simpa using hv), hstage.sorted,
          stage_carried hstage hc⟩

theorem lt_of_originAt? {o : Origin} (h : (g.binding b).originAt? n = some o) :
    b < g.bindings.size := by
  by_contra hb
  have hd : g.binding b = default := by simp [binding, Array.getElem?_eq_none (Nat.le_of_not_lt hb)]
  rw [hd] at h
  cases h

private theorem stage_length (h : g.Stage n goals choice pending settled carried) :
    settled.length ≤ g.bindings.size := by
  have hsub : settled ⊆ List.range g.bindings.size := fun b hb => by
    obtain ⟨o, ho, _⟩ := h.chosen b hb
    exact List.mem_range.mpr (lt_of_originAt? ho)
  simpa using (List.subperm_of_subset h.distinct hsub).length_le

private theorem way_of_choice {fuel : Nat} (h : g.Stage n goals choice pending settled carried)
    (hc : ∀ c, (g.node n).condition = some c → c ∈ goals)
    (hs : g.Stands n choice {b | b ∈ goals}) (hf : g.bindings.size < fuel + settled.length) :
    ∃ c ∈ g.ways n fuel pending settled carried,
      {b | b ∈ c} = g.Carried n choice {b | b ∈ goals} := by
  induction fuel generalizing pending settled carried with
  | zero =>
    have := stage_length h
    omega
  | succ fuel ih =>
    have hstage := carry_stage h
    rw [ways]
    split
    · rename_i carried' b o rest he
      rw [he] at hstage
      obtain ⟨hn, hb, ho⟩ := hstage
      have hsource : choice b ∈ o.sourceSets :=
        hs.chosen b o (hn.seen choice (fun _ _ => rfl) b (by simp)) ho
      have hnext := stage_settle hn hb ho hsource
      rw [Function.update_eq_self] at hnext
      obtain ⟨c, hw, he⟩ := ih hnext (by rw [List.length_cons]; omega)
      exact ⟨c, List.mem_flatMap.mpr ⟨choice b, hsource, hw⟩, he⟩
    · rename_i carried' he
      rw [he] at hstage
      rw [(stage_conflict hstage hc).mpr hs]
      exact ⟨carried', by simp, stage_carried hstage hc⟩

def waysFrom (g : Graph) (n : NodeId) (goals : SourceSet) : List SourceSet :=
  g.ways n (g.bindings.size + 1) goals.reverse [] []

theorem sorted_of_mem_waysFrom {c : SourceSet}
    (hc : ∀ c, (g.node n).condition = some c → c ∈ goals) (hw : c ∈ g.waysFrom n goals) :
    c.SortedLT ∧ ∃ choice, g.Stands n choice {b | b ∈ goals} ∧
      {b | b ∈ c} = g.Carried n choice {b | b ∈ goals} := by
  obtain ⟨choice, hs, ho, he⟩ := choice_of_way (stage_start g n goals fun _ => []) hc hw
  exact ⟨ho, choice, hs, he⟩

theorem exists_mem_waysFrom (hc : ∀ c, (g.node n).condition = some c → c ∈ goals)
    (hs : g.Stands n choice {b | b ∈ goals}) :
    ∃ c ∈ g.waysFrom n goals, {b | b ∈ c} = g.Carried n choice {b | b ∈ goals} := by
  have hf : g.bindings.size < g.bindings.size + 1 + ([] : List BindingId).length := by simp
  exact way_of_choice (stage_start g n goals choice) hc hs hf

end Graph

end ValueTrace
