import ValueTrace.Proofs.Visibility.SearchDepth

/-! Queries are answered as the plain search answers them, whatever was asked before on the same
memory. -/
namespace ValueTrace.Graph

variable {g : Graph} {n : NodeId} {s : Search}

private theorem not_blocked {p : NodeId} {c : SourceSet} :
    g.blocked p c = false ↔ ∀ b ∈ c, ¬ g.Overwrites p b := by
  simp [blocked, Overwrites]

private theorem canHold_of_reaches {k : Nat} {goals : SourceSet}
    (hc : ∀ c, (g.node n).condition = some c → c ∈ goals)
    (h : g.Reaches ∅ k (some (n, goals))) : g.CanHold n {b | b ∈ goals} := by
  induction k generalizing n goals with
  | zero =>
    cases h
    have hnone (b : BindingId) : ¬ g.Seen n (fun _ => []) {b | b ∈ ([] : SourceSet)} b := by
      intro hb
      induction hb with
      | goal hb => simp at hb
      | condition hb => simpa using hc _ hb
      | source _ _ hb => simp at hb
    exact .here (fun _ => []) ⟨fun b _ hb => absurd hb (hnone b), fun a _ ha => absurd ha (hnone a)⟩
      fun b hb => hnone b hb.1
  | succ k ih =>
    cases h with
    | step _ hm hr =>
      obtain ⟨c, hw, hm⟩ := List.mem_flatMap.mp hm
      obtain ⟨_, choice, hs, he⟩ := sorted_of_mem_waysFrom hc hw
      split_ifs at hm with hn
      · rw [List.isEmpty_iff.mp hn] at he
        exact .here choice hs fun b hb => by simp [← he] at hb
      · obtain ⟨p, hp, rfl⟩ := List.mem_map.mp hm
        obtain ⟨hp, hb⟩ := List.mem_filter.mp hp
        have hover := not_blocked.mp (by simpa using hb)
        have hrest : g.CanHold p {b | b ∈ c} := (ih condition_mem_arrive hr).mono
          fun b hb => mem_arrive.mpr (.inl hb)
        rw [he] at hrest
        exact .before choice p hs hp (fun b hb => hover b (by simpa [← he] using hb)) hrest

/-- Goals with the condition of the node see what the goals without it see. -/
private theorem seen_arrival {goals : SourceSet} {set : Set BindingId}
    (hg : ∀ b, b ∈ goals ↔ b ∈ set ∨ (g.node n).condition = some b)
    (choice : BindingId → SourceSet) :
    (∀ b ∈ {b | b ∈ goals}, g.Seen n choice set b) ∧ ∀ b ∈ set, g.Seen n choice {b | b ∈ goals} b :=
  ⟨fun b hb => ((hg b).mp hb).elim .goal .condition, fun b hb => .goal ((hg b).mpr (.inl hb))⟩

private theorem accepts_of_canHold {goals : SourceSet} {set : Set BindingId}
    (hg : ∀ b, b ∈ goals ↔ b ∈ set ∨ (g.node n).condition = some b) (h : g.CanHold n set) :
    g.Accepts (some (n, goals)) := by
  induction h generalizing goals with
  | @here n set choice hs hn =>
    by_cases hne : goals = []
    · exact hne ▸ ⟨0, .empty⟩
    have hc c (hc : (g.node n).condition = some c) : c ∈ goals := (hg c).mpr (.inr hc)
    obtain ⟨hless, _⟩ := seen_arrival hg choice
    obtain ⟨c, hw, he⟩ := exists_mem_waysFrom hc (hs.mono hless)
    have hnil : c = [] := List.eq_nil_iff_forall_not_mem.mpr fun b hb =>
      hn b (carried_mono hless (by rw [← he]; exact hb))
    exact (accepts_iff hne).mpr ⟨none, List.mem_flatMap.mpr ⟨c, hw, by simp [hnil]⟩, 0, .done⟩
  | @before n set choice p hs hp ho _ ih =>
    by_cases hne : goals = []
    · exact hne ▸ ⟨0, .empty⟩
    have hc c (hc : (g.node n).condition = some c) : c ∈ goals := (hg c).mpr (.inr hc)
    obtain ⟨hless, hmore⟩ := seen_arrival hg choice
    obtain ⟨c, hw, he⟩ := exists_mem_waysFrom hc (hs.mono hless)
    have hcarried : g.Carried n choice {b | b ∈ goals} = g.Carried n choice set :=
      (carried_mono hless).antisymm (carried_mono hmore)
    have hmem b : b ∈ c ↔ b ∈ g.Carried n choice set := by rw [← hcarried, ← he]; rfl
    refine (accepts_iff hne).mpr ?_
    by_cases hnil : c = []
    · exact ⟨none, List.mem_flatMap.mpr ⟨c, hw, by simp [hnil]⟩, 0, .done⟩
    have hfree : g.blocked p c = false := not_blocked.mpr fun b hb => ho b ((hmem b).mp hb)
    exact ⟨some (p, g.arrive p c),
      List.mem_flatMap.mpr ⟨c, hw, by simpa [hnil] using ⟨hp, hfree⟩⟩,
      ih fun b => by rw [mem_arrive, hmem]⟩

/-- The moves of the search lead to an end just where the plain search does. -/
theorem accepts_iff_canHold (goals : SourceSet) :
    g.Accepts (some (n, g.arrive n goals)) ↔ g.CanHold n {b | b ∈ goals} :=
  ⟨fun ⟨_, h⟩ => (canHold_of_reaches condition_mem_arrive h).mono
    fun _ hb => mem_arrive.mpr (.inl hb), accepts_of_canHold fun _ => mem_arrive⟩

private theorem query_answers (hs : g.Sound ∅ s) (n : NodeId) (goals : List BindingId) :
    g.Answers ∅ [some (n, g.arrive n (.ofList goals))] s (g.query n goals s) :=
  visit_answers (g.within_searchBound n goals) hs

/-- A query on a sound memory leaves a sound memory and is answered as by the plain search. -/
theorem query_sound (hs : g.Sound ∅ s) (n : NodeId) (goals : List BindingId) :
    g.Sound ∅ (g.query n goals s).2 ∧
      ((g.query n goals s).1 = true ↔ g.CanHold n {b | b ∈ goals}) := by
  have h := query_answers hs n goals
  have hset : {b | b ∈ SourceSet.ofList goals} = {b | b ∈ goals} := by
    ext b
    exact SourceSet.mem_ofList
  rw [← hset, ← accepts_iff_canHold]
  refine ⟨h.sound, fun ha => ?_, fun ⟨k, hk⟩ => h.found _ (List.mem_singleton_self _) k hk⟩
  obtain ⟨m, hm, ha⟩ := h.yes ha
  exact List.mem_singleton.mp hm ▸ ha

/-- Whether bindings can hold together is what the plain search says. -/
theorem canCombine_iff (g : Graph) (goals : List BindingId) (n : NodeId) :
    g.canCombine goals n = true ↔ g.CanHold n {b | b ∈ goals} :=
  (query_sound (sound_empty g) n goals).2

theorem isVisible_iff (g : Graph) (b : BindingId) (n : NodeId) :
    g.isVisible b n = true ↔ g.CanHold n {b} := by
  have hset : {c | c ∈ [b]} = ({b} : Set BindingId) := by
    ext c
    exact List.mem_singleton
  rw [isVisible, canCombine_iff, hset]

private theorem query_eq_isVisible (hs : g.Sound ∅ s) (b : BindingId) (n : NodeId) :
    (g.query n [b] s).1 = g.isVisible b n :=
  Bool.eq_iff_iff.mpr
    ((query_sound hs n [b]).2.trans (query_sound (sound_empty g) n [b]).2.symm)

private theorem filterAuxM_query (hs : g.Sound ∅ s) (n : NodeId) (bs acc : List BindingId) :
    (List.filterAuxM (fun b => g.query n [b]) bs acc s).1 =
      (bs.filter fun b => g.isVisible b n).reverse ++ acc := by
  induction bs generalizing s acc with
  | nil => rfl
  | cons b bs ih =>
    have hb := query_eq_isVisible hs b n
    have hs' := (query_sound hs n [b]).1
    change (List.filterAuxM (fun b => g.query n [b]) bs
      (cond (g.query n [b] s).1 (b :: acc) acc) (g.query n [b] s).2).1 = _
    rw [ih hs', hb]
    cases hv : g.isVisible b n <;> simp [hv]

/-- Sharing one memory among the bindings of a variable changes none of the answers. -/
theorem visible_eq_filter (g : Graph) (v : VarId) (n : NodeId) :
    g.visible v n = (g.allBindings v).filter fun b => g.isVisible b n := by
  change (List.filterAuxM (fun b => g.query n [b]) (g.allBindings v) [] {}).1.reverse = _
  simp [filterAuxM_query (sound_empty g)]

private theorem query_add (hs : g.Sound ∅ s) (n : NodeId) (goals : List BindingId)
    (extra : Nat) :
    g.search (g.searchBound + extra) n (g.arrive n (.ofList goals)) s = g.query n goals s :=
  visit_add extra (g.within_searchBound n goals) hs

private theorem mapM_query (hs : g.Sound ∅ s) (qs : List (NodeId × List BindingId)) :
    List.Forall₂ (fun q answer => answer = true ↔ g.CanHold q.1 {b | b ∈ q.2}) qs
      (qs.mapM (fun q => g.query q.1 q.2) s).1 := by
  induction qs generalizing s with
  | nil => exact .nil
  | cons q qs ih =>
    obtain ⟨hs', hq⟩ := query_sound hs q.1 q.2
    rw [List.mapM_cons]
    exact .cons hq (ih hs')

private theorem mapM_query_add (hs : g.Sound ∅ s) (extra : Nat)
    (qs : List (NodeId × List BindingId)) :
    qs.mapM (fun q => g.search (g.searchBound + extra) q.1 (g.arrive q.1 (.ofList q.2))) s =
      qs.mapM (fun q => g.query q.1 q.2) s := by
  induction qs generalizing s with
  | nil => rfl
  | cons q qs ih =>
    have hq := query_add hs q.1 q.2 extra
    have hqs := ih (query_sound hs q.1 q.2).1
    rw [List.mapM_cons, List.mapM_cons]
    change StateT.bind _ _ s = StateT.bind _ _ s
    simp only [StateT.bind, hq]
    change StateT.bind _ _ _ = StateT.bind _ _ _
    simp only [StateT.bind, hqs]

/-- Every sequence of queries on one memory is answered as by the plain search. No bound on the
depth beyond the one that is used is ever felt, so the search ends by itself. -/
theorem queries_answered (g : Graph) (qs : List (NodeId × List BindingId)) (extra : Nat) :
    List.Forall₂ (fun q answer => answer = true ↔ g.CanHold q.1 {b | b ∈ q.2}) qs
        ((qs.mapM fun q => g.query q.1 q.2).run {}).1 ∧
      (qs.mapM fun q =>
          g.search (g.searchBound + extra) q.1 (g.arrive q.1 (.ofList q.2))).run {} =
        (qs.mapM fun q => g.query q.1 q.2).run {} ∧
      (∀ goals n, g.canCombine goals n = true ↔ g.CanHold n {b | b ∈ goals}) ∧
      ∀ v n, g.visible v n = (g.allBindings v).filter fun b => g.isVisible b n :=
  ⟨mapM_query (sound_empty g) qs, mapM_query_add (sound_empty g) extra qs, g.canCombine_iff,
    g.visible_eq_filter⟩

end ValueTrace.Graph
