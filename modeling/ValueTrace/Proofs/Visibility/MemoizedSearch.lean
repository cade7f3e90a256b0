import Mathlib.Data.Set.Insert
import ValueTrace.Proofs.Visibility.SourceChoice

/-! The search with memory gives the answers of the plain search. Answers that are kept are right
wherever they are used again, also the negative ones: a failure is kept only if no state below it
was cut because it lay on the path. -/
namespace ValueTrace.Graph

/-- Where the search goes next: a node with the goals on arrival, or nowhere when nothing is
carried. -/
abbrev Move := Option (NodeId × SourceSet)

def moves (g : Graph) (n : NodeId) (goals : SourceSet) : List Move :=
  (g.waysFrom n goals).flatMap fun c =>
    if c.isEmpty then [none]
    else ((g.node n).incoming.filter fun p => !g.blocked p c).map fun p => some (p, g.arrive p c)

def visit (g : Graph) (fuel : Nat) : Move → StateM Search Bool
  | none => pure true
  | some (n, goals) => g.search fuel n goals

def enter (key : List Nat) (s : Search) : Search :=
  { answers := s.answers.insert key .underway, metCycle := false }

/-- The answer and the memory on leaving a state, given those of the states below it. -/
def leave (key : List Nat) (outer : Bool) (r : Bool × Search) : Bool × Search :=
  (r.1, {
    answers :=
      if r.1 || !r.2.metCycle then r.2.answers.insert key (.known r.1) else r.2.answers.erase key
    metCycle := r.2.metCycle || outer })

/-- A walk of so many moves to where nothing is carried, through no state of a path. -/
inductive Reaches (g : Graph) (path : Set (NodeId × SourceSet)) : Nat → Move → Prop
  | done : Reaches g path 0 none
  | empty {n} : Reaches g path 0 (some (n, []))
  | step {k n goals m} : (n, goals) ∉ path → m ∈ g.moves n goals → Reaches g path k m →
      Reaches g path (k + 1) (some (n, goals))

def Accepts (g : Graph) (m : Move) : Prop := ∃ k, g.Reaches ∅ k m

/-- The memory marks just the states of the path, and the answers that it knows are right. -/
structure Sound (g : Graph) (path : Set (NodeId × SourceSet)) (s : Search) : Prop where
  underway : ∀ n goals, s.answers[n :: goals]? = some .underway ↔ (n, goals) ∈ path
  known : ∀ n goals a, s.answers[n :: goals]? = some (.known a) →
    (a = true ↔ g.Accepts (some (n, goals)))

/-- What a search through moves leaves, when the states of the path are underway. A failure is final
if no cycle was met, and the search misses no walk that avoids the path. -/
structure Answers (g : Graph) (path : Set (NodeId × SourceSet)) (ms : List Move) (s : Search)
    (r : Bool × Search) : Prop where
  sound : g.Sound path r.2
  flag : s.metCycle = true → r.2.metCycle = true
  yes : r.1 = true → ∃ m ∈ ms, g.Accepts m
  no : r.1 = false → r.2.metCycle = false → ∀ m ∈ ms, ¬ g.Accepts m
  found : ∀ m ∈ ms, ∀ k, g.Reaches path k m → r.1 = true

/-- The bound on the depth suffices: no path of so many states goes on through fresh ones. -/
def Within (g : Graph) : Nat → Set (NodeId × SourceSet) → Move → Prop
  | _, _, none => True
  | 0, _, some _ => False
  | fuel + 1, path, some (n, goals) => goals = [] ∨ (n, goals) ∈ path ∨
      ∀ m ∈ g.moves n goals, g.Within fuel (insert (n, goals) path) m

variable {g : Graph} {n : NodeId} {goals : SourceSet} {fuel : Nat} {s : Search}

private theorem anyM_map_filter (f : Move → StateM Search Bool) (lead : NodeId → Move)
    (skip : NodeId → Bool) (ps : List NodeId) :
    ((ps.filter fun p => !skip p).map lead).anyM f =
      ps.anyM fun p => if skip p then pure false else f (lead p) := by
  induction ps with
  | nil => simp
  | cons p ps ih =>
    rw [List.anyM_cons, ← ih]
    cases hp : skip p
    · rw [List.filter_cons_of_pos (by simp [hp]), List.map_cons, List.anyM_cons]
      rfl
    · rw [List.filter_cons_of_neg (by simp [hp])]
      rfl

/-- Settling with the search behind it goes through the moves in turn. -/
private theorem settle_moves (g : Graph) (fuel : Nat) (n : NodeId) (goals : SourceSet) :
    g.settle n (fun carried => (g.node n).incoming.anyM fun p =>
        if g.blocked p carried then pure false else g.search fuel p (g.arrive p carried))
      (g.bindings.size + 1) goals.reverse [] [] = (g.moves n goals).anyM (g.visit fuel) := by
  rw [settle_eq, moves, anyM_flatMap]
  refine congrArg (fun f => List.anyM f (g.waysFrom n goals)) (funext fun c => ?_)
  split_ifs with hc
  · rw [anyM_singleton]
    rfl
  · rw [anyM_map_filter]
    rfl

/-- What a state with goals does: it uses the answer that is known, is cut if it lies on the path,
or goes through its moves. -/
private theorem visit_eq (hg : goals ≠ []) : g.visit (fuel + 1) (some (n, goals)) s =
    match s.answers[n :: goals]? with
    | some (.known answer) => (answer, s)
    | some .underway => (false, { s with metCycle := true })
    | none => leave (n :: goals) s.metCycle
        ((g.moves n goals).anyM (g.visit fuel) (enter (n :: goals) s)) := by
  rw [← settle_moves, visit, search, if_neg (by simpa using hg)]
  rcases h : s.answers[n :: goals]? with _ | _ | answer
  all_goals
    change (match s.answers[n :: goals]? with
      | some (.known answer) => _ | some .underway => _ | none => _ : StateM Search Bool) s = _
    rw [h]
    rfl

private theorem anyM_cons_run (f : Move → StateM Search Bool) (m : Move) (ms : List Move) :
    (m :: ms).anyM f s = match f m s with
      | (true, s) => (true, s)
      | (false, s) => ms.anyM f s := by
  have h : (m :: ms).anyM f s =
      StateT.bind (f m) (fun found => if found then pure true else ms.anyM f) s := by
    rw [List.anyM_cons]
    rfl
  rw [h, StateT.bind]
  rcases f m s with ⟨_ | _, s⟩ <;> rfl

variable {path : Set (NodeId × SourceSet)} {k : Nat} {m : Move}

private theorem reaches_accepts (h : g.Reaches path k m) : g.Accepts m := by
  refine ⟨k, ?_⟩
  induction h with
  | done => exact .done
  | empty => exact .empty
  | step _ hm _ ih => exact .step (Set.notMem_empty _) hm ih

/-- A walk avoids one more state, or it passes it. -/
private theorem reaches_insert (st : NodeId × SourceSet) (h : g.Reaches path k m) :
    g.Reaches (insert st path) k m ∨ ∃ j ≤ k, g.Reaches path j (some st) := by
  induction h with
  | done => exact .inl .done
  | empty => exact .inl .empty
  | @step k n goals m hp hm hr ih =>
    by_cases he : (n, goals) = st
    · exact .inr ⟨k + 1, le_rfl, he ▸ .step hp hm hr⟩
    · rcases ih with ih | ⟨j, hj, ih⟩
      · exact .inl (.step (by simp [he, hp]) hm ih)
      · exact .inr ⟨j, by omega, ih⟩

/-- A shortest walk does not come back to where it began. -/
private theorem reaches_leaves (hg : goals ≠ []) (h : g.Reaches path k (some (n, goals))) :
    ∃ m ∈ g.moves n goals, ∃ j, g.Reaches (insert (n, goals) path) j m := by
  induction k using Nat.strong_induction_on with
  | _ k ih =>
    cases h with
    | empty => exact absurd rfl hg
    | @step k _ _ m hp hm hr =>
      rcases reaches_insert (n, goals) hr with hr | ⟨j, hj, hr⟩
      · exact ⟨m, hm, k, hr⟩
      · exact ih j (by omega) hr

theorem accepts_iff (hg : goals ≠ []) :
    g.Accepts (some (n, goals)) ↔ ∃ m ∈ g.moves n goals, g.Accepts m := by
  constructor
  · rintro ⟨k, h⟩
    cases h with
    | empty => exact absurd rfl hg
    | step _ hm hr => exact ⟨_, hm, _, hr⟩
  · rintro ⟨m, hm, k, hr⟩
    exact ⟨k + 1, .step (Set.notMem_empty _) hm hr⟩

theorem sound_empty (g : Graph) : g.Sound ∅ {} where
  underway n goals := by simp
  known n goals a h := by simp at h

/-- One move after the other: the first that succeeds decides. -/
private theorem anyM_answers {f : Move → StateM Search Bool} {ms : List Move}
    (hf : ∀ m ∈ ms, ∀ s, g.Sound path s → g.Answers path [m] s (f m s)) (hs : g.Sound path s) :
    g.Answers path ms s (ms.anyM f s) := by
  induction ms generalizing s with
  | nil =>
    have hnil : ([].anyM f s).1 = false := rfl
    exact ⟨hs, id, fun h => absurd (hnil.symm.trans h) Bool.false_ne_true, by simp, by simp⟩
  | cons m ms ih =>
    have hm := hf m (by simp) s hs
    rw [anyM_cons_run]
    rcases h : f m s with ⟨_ | _, s'⟩ <;> rw [h] at hm
    · have hms := ih (fun m' hm' => hf m' (by simp [hm'])) hm.sound
      refine ⟨hms.sound, hms.flag ∘ hm.flag, fun hr => ?_, fun hr hc m' hm' => ?_,
        fun m' hm' k hk => ?_⟩
      · obtain ⟨m', hm', ha⟩ := hms.yes hr
        exact ⟨m', by simp [hm'], ha⟩
      · rcases List.mem_cons.mp hm' with rfl | hm'
        · refine hm.no rfl ?_ m' (by simp)
          by_contra hne
          simp [hms.flag (by simpa using hne)] at hc
        · exact hms.no hr hc m' hm'
      · rcases List.mem_cons.mp hm' with rfl | hm'
        · simpa using hm.found m' (by simp) k hk
        · exact hms.found m' hm' k hk
    · refine ⟨hm.sound, hm.flag, fun _ => ?_, by simp, fun _ _ _ _ => rfl⟩
      obtain ⟨m', hm', ha⟩ := hm.yes rfl
      exact ⟨m', by simp_all, ha⟩

private theorem getElem?_insert_key (t : Std.TreeMap (List Nat) Verdict) (k l : List Nat)
    (v : Verdict) : (t.insert k v)[l]? = if k = l then some v else t[l]? := by
  simp [Std.TreeMap.getElem?_insert]

private theorem getElem?_erase_key (t : Std.TreeMap (List Nat) Verdict) (k l : List Nat) :
    (t.erase k)[l]? = if k = l then none else t[l]? := by
  simp [Std.TreeMap.getElem?_erase]

private theorem enter_sound (hs : g.Sound path s) :
    g.Sound (insert (n, goals) path) (enter (n :: goals) s) where
  underway n' goals' := by
    have := hs.underway n' goals'
    simp only [enter, getElem?_insert_key, Set.mem_insert_iff, Prod.mk.injEq]
    grind
  known n' goals' a h := by
    simp only [enter, getElem?_insert_key] at h
    split_ifs at h with he
    · cases h
    · exact hs.known n' goals' a h

/-- A state that is left is known or forgotten, and the path is what it was before. -/
private theorem leave_sound {r : Bool × Search} (outer : Bool) (hp : (n, goals) ∉ path)
    (hr : g.Sound (insert (n, goals) path) r.2) (hyes : r.1 = true → g.Accepts (some (n, goals)))
    (hno : r.1 = false → r.2.metCycle = false → ¬ g.Accepts (some (n, goals))) :
    g.Sound path (leave (n :: goals) outer r).2 where
  underway n' goals' := by
    have := hr.underway n' goals'
    simp only [Set.mem_insert_iff, Prod.mk.injEq] at this
    simp only [leave]
    split_ifs
    · rw [getElem?_insert_key]
      grind
    · rw [getElem?_erase_key]
      grind
  known n' goals' a h := by
    simp only [leave] at h
    split_ifs at h with hk
    · rw [getElem?_insert_key] at h
      split_ifs at h with he
      · cases he
        cases h
        refine ⟨hyes, fun ha => ?_⟩
        by_contra hne
        exact hno (by simpa using hne) (by simpa [hne] using hk) ha
      · exact hr.known n' goals' a h
    · rw [getElem?_erase_key] at h
      split_ifs at h with he
      exact hr.known n' goals' a h

private theorem leave_answers {r : Bool × Search} (hg : goals ≠ []) (hp : (n, goals) ∉ path)
    (hr : g.Answers (insert (n, goals) path) (g.moves n goals) (enter (n :: goals) s) r) :
    g.Answers path [some (n, goals)] s (leave (n :: goals) s.metCycle r) := by
  have hyes : r.1 = true → g.Accepts (some (n, goals)) := fun h => (accepts_iff hg).mpr (hr.yes h)
  have hno : r.1 = false → r.2.metCycle = false → ¬ g.Accepts (some (n, goals)) := fun h hc ha => by
    obtain ⟨m, hm, ha⟩ := (accepts_iff hg).mp ha
    exact hr.no h hc m hm ha
  refine ⟨leave_sound _ hp hr.sound hyes hno, fun hc => by simp [leave, hc],
    fun h => ⟨_, List.mem_singleton_self _, hyes h⟩, fun h hc m hm ha => ?_, fun m hm k hk => ?_⟩
  · rw [List.mem_singleton.mp hm] at ha
    simp only [leave, Bool.or_eq_false_iff] at hc
    exact hno h hc.1 ha
  · rw [List.mem_singleton.mp hm] at hk
    obtain ⟨m, hm, j, hj⟩ := reaches_leaves hg hk
    exact hr.found m hm j hj

private theorem cut_answers (hg : goals ≠ []) (hs : g.Sound path s) (hp : (n, goals) ∈ path) :
    g.Answers path [some (n, goals)] s (false, { s with metCycle := true }) := by
  refine ⟨⟨hs.underway, hs.known⟩, fun _ => rfl, by simp, by simp, fun m hm k hr => ?_⟩
  rw [List.mem_singleton.mp hm] at hr
  cases hr with
  | empty => exact absurd rfl hg
  | step hn => exact absurd hp hn

private theorem known_answers {a : Bool} (hs : g.Sound path s)
    (ha : a = true ↔ g.Accepts (some (n, goals))) :
    g.Answers path [some (n, goals)] s (a, s) := by
  refine ⟨hs, id, fun h => ⟨_, List.mem_singleton_self _, ha.mp h⟩, fun h _ m hm hm' => ?_,
    fun m hm k hr => ?_⟩
  · rw [List.mem_singleton.mp hm] at hm'
    simp [ha.mpr hm'] at h
  · rw [List.mem_singleton.mp hm] at hr
    exact ha.mpr (reaches_accepts hr)

private theorem done_answers (hs : g.Sound path s) (hm : g.Accepts m) :
    g.Answers path [m] s (true, s) :=
  ⟨hs, id, fun _ => ⟨m, List.mem_singleton_self _, hm⟩, by simp, fun _ _ _ _ => rfl⟩

/-- Every visit within the bound keeps the memory sound and answers as the plain search does. -/
theorem visit_answers (hw : g.Within fuel path m) (hs : g.Sound path s) :
    g.Answers path [m] s (g.visit fuel m s) := by
  induction fuel generalizing path m s with
  | zero =>
    cases m with
    | none => exact done_answers hs ⟨0, .done⟩
    | some st => exact hw.elim
  | succ fuel ih =>
    rcases m with _ | ⟨n, goals⟩
    · exact done_answers hs ⟨0, .done⟩
    by_cases hg : goals = []
    · subst hg
      exact done_answers hs ⟨0, .empty⟩
    rw [visit_eq hg]
    rcases hk : s.answers[n :: goals]? with _ | _ | a
    · have hp : (n, goals) ∉ path := fun hp => by simp [(hs.underway n goals).mpr hp] at hk
      have hw' := (hw.resolve_left hg).resolve_left hp
      exact leave_answers hg hp
        (anyM_answers (fun m hm _ hs => ih (hw' m hm) hs) (enter_sound hs))
    · exact cut_answers hg hs ((hs.underway n goals).mp hk)
    · exact known_answers hs (hs.known n goals a hk)

private theorem anyM_congr_sound {f f' : Move → StateM Search Bool} {ms : List Move}
    (h : ∀ m ∈ ms, ∀ s, g.Sound path s → f' m s = f m s ∧ g.Sound path (f m s).2)
    (hs : g.Sound path s) : ms.anyM f' s = ms.anyM f s := by
  induction ms generalizing s with
  | nil => rfl
  | cons m ms ih =>
    obtain ⟨he, hs'⟩ := h m (by simp) s hs
    rw [anyM_cons_run, anyM_cons_run, he]
    rcases hr : f m s with ⟨_ | _, s'⟩
    · rw [hr] at hs'
      exact ih (fun m' hm' => h m' (by simp [hm'])) hs'
    · rfl

/-- A bound that suffices is never felt: a greater one changes neither answer nor memory. -/
theorem visit_add (extra : Nat) (hw : g.Within fuel path m) (hs : g.Sound path s) :
    g.visit (fuel + extra) m s = g.visit fuel m s := by
  induction fuel generalizing path m s with
  | zero =>
    cases m with
    | none => rfl
    | some st => exact hw.elim
  | succ fuel ih =>
    rcases m with _ | ⟨n, goals⟩
    · rfl
    rw [Nat.add_right_comm]
    by_cases hg : goals = []
    · subst hg
      rfl
    rw [visit_eq hg, visit_eq hg]
    rcases hk : s.answers[n :: goals]? with _ | _ | a
    · have hp : (n, goals) ∉ path := fun hp => by simp [(hs.underway n goals).mpr hp] at hk
      have hw' := (hw.resolve_left hg).resolve_left hp
      have henter : g.Sound (insert (n, goals) path) (enter (n :: goals) s) := enter_sound hs
      have he := anyM_congr_sound
        (fun m hm s hs => ⟨ih (hw' m hm) hs, (visit_answers (hw' m hm) hs).sound⟩) henter
      simp only [he]
    · rfl
    · rfl

end ValueTrace.Graph
