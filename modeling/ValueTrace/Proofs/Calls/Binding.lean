import ValueTrace.Call.Arguments
import ValueTrace.Proofs.Machine.Steps

/-!
# Which argument a parameter gets

A call without stars either says for each parameter what it is bound to, or breaks one of five rules.
Nothing of this depends on the machine: only what is left over is put into new objects.
-/

namespace ValueTrace

/-- Bind the names that are not bound to what stands in for them. -/
def fillMissing (failure : String → CallFailure) :
    List (String × Option VarId) → Members → Except CallFailure Members
  | [], bound => .ok bound
  | (name, fallback) :: rest, bound =>
    if bound.contains name then fillMissing failure rest bound
    else
      match fallback with
      | some v => fillMissing failure rest (bound.insert name v)
      | none => .error (failure name)

namespace Parameters

def named (p : Parameters) : List String := p.positional ++ p.kwonly

def names (p : Parameters) : List String := p.named ++ (p.varargs.toList ++ p.varkw.toList)

/-- No two parameters have the same name, and there are no more defaults than positional
parameters. -/
structure Proper (p : Parameters) : Prop where
  distinct : p.names.Nodup
  defaults_le : p.defaults.length ≤ p.positional.length

def surplusNamed (p : Parameters) (args : CallArgs) : List (String × VarId) :=
  args.named.filter fun entry => entry.1 ∉ p.named

def surplusPositional (p : Parameters) (args : CallArgs) : List VarId :=
  args.positional.drop p.positional.length

/-- The rules of a call without stars. -/
structure Accepts (p : Parameters) (args : CallArgs) : Prop where
  /-- There are no more positional arguments than parameters, or surplus ones are collected. -/
  count : args.positional.length ≤ p.positional.length ∨ p.varargs.isSome
  /-- No keyword names a parameter that is filled by position. -/
  unfilled : ∀ entry ∈ args.named, entry.1 ∉ p.positional.take args.positional.length
  /-- No keyword names a parameter that an earlier keyword names. -/
  once : args.named.Pairwise fun earlier later => later.1 ∈ p.named → earlier.1 ≠ later.1
  /-- Keywords name parameters, or surplus ones are collected. -/
  known : (∀ entry ∈ args.named, entry.1 ∈ p.named) ∨ p.varkw.isSome
  /-- Positional parameters are filled by position or keyword, or are among the last ones, to which
  the defaults belong. -/
  filled : ∀ (i : Nat) (name : String), p.positional[i]? = some name →
    i < args.positional.length ∨ name ∈ args.named.map (·.1) ∨
      p.positional.length ≤ i + p.defaults.length
  /-- Parameters that are given by keyword only are, or they have defaults. -/
  filledKwonly : ∀ name ∈ p.kwonly, name ∈ args.named.map (·.1) ∨ name ∈ p.kwDefaults

/-- What parameters are bound to that may be given by name. -/
structure Binds (p : Parameters) (args : CallArgs) (bound : Members) : Prop where
  /-- A positional parameter gets its positional argument, else its keyword, else its default. The
  i-th parameter from the end has the i-th default from the end. -/
  positional : ∀ (i : Nat) (name : String), p.positional[i]? = some name → bound[name]? =
    (args.positional[i]? <|> args.named.lookup name <|>
      p.defaults.reverse[p.positional.length - 1 - i]?)
  /-- A parameter that is given by keyword only gets its keyword, else its default. -/
  kwonly : ∀ name ∈ p.kwonly, bound[name]? = (args.named.lookup name <|> p.kwDefaults[name]?)

def positionalDefaults (p : Parameters) : List (String × Option VarId) :=
  p.positional.zipIdx.map fun (name, i) => (name, p.defaultAt? i)

def kwonlyDefaults (p : Parameters) : List (String × Option VarId) :=
  p.kwonly.map fun name => (name, p.kwDefaults[name]?)

def missing (p : Parameters) (args : CallArgs) (name : String) : CallFailure :=
  if args.named.isEmpty then p.wrongCount args else .missingParameter p.function name

/-- What a call without stars binds to the parameters that may be given by name, with the keywords
that are left over. -/
def bindNames (p : Parameters) (args : CallArgs) :
    Except CallFailure (Members × List (String × VarId)) := do
  if !(p.surplusPositional args).isEmpty && p.varargs.isNone then throw (p.wrongCount args)
  else
    let (bound, keywords) ← p.bindNamed args.named (p.bindPositional args.positional)
    if !keywords.isEmpty && p.varkw.isNone then
      throw (.unknownKeywords p.function (keywords.map (·.1)))
    else
      let bound ← fillMissing (p.missing args) p.positionalDefaults bound
      let bound ← fillMissing (.missingParameter p.function) p.kwonlyDefaults bound
      return (bound, keywords)

end Parameters

variable {p : Parameters} {args : CallArgs} {bound bound' : Members} {name : String}
  {keywords : List (String × VarId)}

theorem lookup_of_mem {β : Type} {l : List (String × β)} {x : β} (h : (l.map (·.1)).Nodup)
    (hmem : (name, x) ∈ l) : l.lookup name = some x := by
  induction l with
  | nil => cases hmem
  | cons entry l ih =>
    obtain ⟨key, y⟩ := entry
    obtain ⟨hkey, hrest⟩ := List.nodup_cons.mp h
    rw [List.lookup_cons]
    rcases List.mem_cons.mp hmem with heq | htail
    · cases heq
      simp
    · have hne : name ≠ key := by
        rintro rfl
        exact hkey (List.mem_map.mpr ⟨_, htail, rfl⟩)
      rw [beq_false_of_ne hne]
      exact ih hrest htail

theorem lookup_of_not_mem {β : Type} {l : List (String × β)} (h : name ∉ l.map (·.1)) :
    l.lookup name = none :=
  List.lookup_eq_none_iff.mpr fun entry hentry => by
    simpa using fun heq => h (List.mem_map.mpr ⟨entry, hentry, heq.symm⟩)

theorem isSome_lookup {β : Type} {l : List (String × β)} :
    (l.lookup name).isSome ↔ name ∈ l.map (·.1) := by
  rw [← not_iff_not, Option.not_isSome_iff_eq_none]
  refine ⟨fun hnone hmem => ?_, lookup_of_not_mem⟩
  obtain ⟨entry, hentry, rfl⟩ := List.mem_map.mp hmem
  simpa using List.lookup_eq_none_iff.mp hnone entry hentry

theorem foldl_insert_getElem? {l : List (String × VarId)} (h : (l.map (·.1)).Nodup) :
    (l.foldl (fun bound (name, v) => bound.insert name v) bound)[name]? =
      (l.lookup name <|> bound[name]?) := by
  induction l generalizing bound with
  | nil => simp
  | cons entry l ih =>
    obtain ⟨key, v⟩ := entry
    obtain ⟨hkey, hrest⟩ := List.nodup_cons.mp h
    rw [List.foldl_cons, ih hrest, Std.TreeMap.getElem?_insert, List.lookup_cons]
    by_cases heq : name = key
    · subst heq
      simp [lookup_of_not_mem hkey]
    · simp [beq_false_of_ne heq, Std.LawfulEqCmp.compare_eq_iff_eq, Ne.symm heq]

section

variable {failure : String → CallFailure} {l : List (String × Option VarId)}

/-- Missing names are filled in for if there is something that stands in for each. -/
theorem exists_fillMissing (h : (l.map (·.1)).Nodup) :
    (∃ bound', fillMissing failure l bound = .ok bound') ↔
      ∀ entry ∈ l, entry.1 ∈ bound ∨ entry.2.isSome := by
  induction l generalizing bound with
  | nil => simp [fillMissing]
  | cons entry l ih =>
    obtain ⟨key, fallback⟩ := entry
    obtain ⟨hkey, hrest⟩ := List.nodup_cons.mp h
    unfold fillMissing
    by_cases hbound : key ∈ bound
    · rw [if_pos (Std.TreeMap.mem_iff_contains.mp hbound), ih hrest]
      simp [hbound]
    · rw [if_neg (Std.TreeMap.mem_iff_contains.not.mp hbound)]
      cases fallback with
      | none => simp [hbound]
      | some v =>
        dsimp only
        rw [ih hrest, List.forall_mem_cons]
        simp only [Option.isSome_some, or_true, true_and]
        refine forall₂_congr fun entry he => or_congr_left ?_
        rw [Std.TreeMap.mem_insert, Std.LawfulEqCmp.compare_eq_iff_eq]
        exact or_iff_right fun heq => hkey (List.mem_map.mpr ⟨entry, he, heq.symm⟩)

/-- What is bound is kept, and only what is missing is filled in for. -/
theorem fillMissing_getElem? (h : (l.map (·.1)).Nodup) (hfill : fillMissing failure l bound =
    .ok bound') (name : String) : bound'[name]? = (bound[name]? <|> (l.lookup name).join) := by
  induction l generalizing bound with
  | nil =>
    cases hfill
    simp
  | cons entry l ih =>
    obtain ⟨key, fallback⟩ := entry
    obtain ⟨hkey, hrest⟩ := List.nodup_cons.mp h
    unfold fillMissing at hfill
    rw [List.lookup_cons]
    by_cases hbound : key ∈ bound
    · rw [if_pos (Std.TreeMap.mem_iff_contains.mp hbound)] at hfill
      rw [ih hrest hfill]
      by_cases heq : name = key
      · subst heq
        obtain ⟨v, hv⟩ :=
          Option.isSome_iff_exists.mp (Std.TreeMap.mem_iff_isSome_getElem?.mp hbound)
        simp [hv]
      · rw [beq_false_of_ne heq]
    · rw [if_neg (Std.TreeMap.mem_iff_contains.not.mp hbound)] at hfill
      cases fallback with
      | none => cases hfill
      | some v =>
        rw [ih hrest hfill, Std.TreeMap.getElem?_insert]
        by_cases heq : name = key
        · subst heq
          simp [Std.TreeMap.getElem?_eq_none hbound]
        · simp [beq_false_of_ne heq, Std.LawfulEqCmp.compare_eq_iff_eq, Ne.symm heq]

theorem mem_fillMissing (h : (l.map (·.1)).Nodup) (hfill : fillMissing failure l bound =
    .ok bound') : name ∈ bound' ↔ name ∈ bound ∨ name ∈ l.map (·.1) := by
  rw [Std.TreeMap.mem_iff_isSome_getElem?, Std.TreeMap.mem_iff_isSome_getElem?,
    fillMissing_getElem? h hfill]
  cases hb : bound[name]? with
  | some v => simp
  | none =>
    change (l.lookup name).join.isSome ↔ _
    constructor
    · intro hs
      obtain ⟨v, hv⟩ := Option.isSome_iff_exists.mp hs
      exact .inr (isSome_lookup.mp (by rw [Option.join_eq_some_iff.mp hv]; rfl))
    · rintro (hs | hmem)
      · cases hs
      · obtain ⟨entry, hentry, rfl⟩ := List.mem_map.mp hmem
        rw [lookup_of_mem h hentry]
        refine ((exists_fillMissing h).mp ⟨bound', hfill⟩ entry hentry).resolve_left fun hmem => ?_
        rw [Std.TreeMap.mem_iff_isSome_getElem?, hb] at hmem
        cases hmem

end

namespace Parameters

section

variable {l : List (String × VarId)}

private theorem contains_named :
    (p.positional.contains name || p.kwonly.contains name) = true ↔ name ∈ p.named := by
  simp [named]

/-- Keywords that name parameters have to be the first to bind them. -/
theorem exists_bindNamed : (∃ r, p.bindNamed l bound = .ok r) ↔
    (∀ entry ∈ l, entry.1 ∈ p.named → entry.1 ∉ bound) ∧
      l.Pairwise fun earlier later => later.1 ∈ p.named → earlier.1 ≠ later.1 := by
  induction l generalizing bound with
  | nil => simp [bindNamed]
  | cons entry l ih =>
    obtain ⟨key, v⟩ := entry
    unfold bindNamed
    rw [List.forall_mem_cons, List.pairwise_cons]
    by_cases hkey : key ∈ p.named
    · rw [if_pos (contains_named.mpr hkey)]
      by_cases hbound : key ∈ bound
      · rw [if_pos (Std.TreeMap.mem_iff_contains.mp hbound)]
        simp [hkey, hbound]
      · rw [if_neg (Std.TreeMap.mem_iff_contains.not.mp hbound), ih]
        simp only [Std.TreeMap.mem_insert, Std.LawfulEqCmp.compare_eq_iff_eq]
        grind
    · rw [if_neg (contains_named.not.mpr hkey)]
      have hne (entry : String × VarId) (h : entry.1 ∈ p.named) : key ≠ entry.1 := by
        rintro rfl
        exact hkey h
      constructor
      · rintro ⟨r, hr⟩
        obtain ⟨r', hr', -⟩ := Except.bind_eq_ok.mp hr
        obtain ⟨hbound, honce⟩ := ih.mp ⟨r', hr'⟩
        exact ⟨⟨fun h => absurd h hkey, hbound⟩, fun entry _ => hne entry, honce⟩
      · rintro ⟨⟨-, hbound⟩, -, honce⟩
        obtain ⟨r, hr⟩ := ih.mpr ⟨hbound, honce⟩
        exact ⟨_, Except.bind_eq_ok.mpr ⟨r, hr, rfl⟩⟩

/-- The keywords that name no parameter are left over, the others are bound. -/
theorem bindNamed_getElem? (h : p.bindNamed l bound = .ok (bound', keywords)) :
    keywords = l.filter (fun entry => entry.1 ∉ p.named) ∧ ∀ name : String, bound'[name]? =
      (bound[name]? <|> if name ∈ p.named then l.lookup name else none) := by
  induction l generalizing bound keywords with
  | nil =>
    cases h
    simp
  | cons entry l ih =>
    obtain ⟨key, v⟩ := entry
    unfold bindNamed at h
    by_cases hkey : key ∈ p.named
    · rw [if_pos (contains_named.mpr hkey)] at h
      by_cases hbound : key ∈ bound
      · rw [if_pos (Std.TreeMap.mem_iff_contains.mp hbound)] at h
        cases h
      · rw [if_neg (Std.TreeMap.mem_iff_contains.not.mp hbound)] at h
        obtain ⟨rfl, hlookup⟩ := ih h
        refine ⟨by simp [hkey], fun name => ?_⟩
        rw [hlookup, Std.TreeMap.getElem?_insert, List.lookup_cons]
        by_cases heq : name = key
        · subst heq
          simp [Std.TreeMap.getElem?_eq_none hbound, hkey]
        · simp [beq_false_of_ne heq, Std.LawfulEqCmp.compare_eq_iff_eq, Ne.symm heq]
    · rw [if_neg (contains_named.not.mpr hkey)] at h
      obtain ⟨⟨bound₁, rest⟩, hrest, hpure⟩ := Except.bind_eq_ok.mp h
      cases hpure
      obtain ⟨rfl, hlookup⟩ := ih hrest
      refine ⟨by simp [hkey], fun name => ?_⟩
      rw [hlookup, List.lookup_cons]
      by_cases heq : name = key
      · subst heq
        simp [hkey]
      · rw [beq_false_of_ne heq]

end

theorem map_fst_zip (names : List String) (vs : List VarId) :
    (names.zip vs).map (·.1) = names.take vs.length := by
  induction names generalizing vs with
  | nil => simp
  | cons name names ih =>
    cases vs with
    | nil => rfl
    | cons v vs => simp [ih]

/-- Positional arguments are bound in order. -/
theorem bindPositional_getElem? (h : p.positional.Nodup) (vs : List VarId) (name : String) :
    (p.bindPositional vs)[name]? = (p.positional.zip vs).lookup name := by
  unfold bindPositional
  rw [foldl_insert_getElem?]
  · simp
  · rw [map_fst_zip]
    exact h.sublist (List.take_sublist _ _)

theorem mem_bindPositional (h : p.positional.Nodup) (vs : List VarId) :
    name ∈ p.bindPositional vs ↔ name ∈ p.positional.take vs.length := by
  rw [Std.TreeMap.mem_iff_isSome_getElem?, bindPositional_getElem? h, isSome_lookup, map_fst_zip]

theorem bindPositional_at (h : p.positional.Nodup) {i : Nat} (hi : p.positional[i]? = some name)
    (vs : List VarId) : (p.bindPositional vs)[name]? = vs[i]? := by
  rw [bindPositional_getElem? h]
  cases hv : vs[i]? with
  | none =>
    refine lookup_of_not_mem fun hmem => ?_
    rw [map_fst_zip] at hmem
    obtain ⟨j, hj⟩ := List.mem_iff_getElem?.mp hmem
    rw [List.getElem?_take] at hj
    split at hj
    · next hlt =>
      obtain rfl : i = j :=
        (List.getElem?_inj (List.getElem?_eq_some_iff.mp hi).1 h).mp (hi.trans hj.symm)
      exact absurd (List.getElem?_eq_none_iff.mp hv) (Nat.not_le.mpr hlt)
    · cases hj
  | some v =>
    refine lookup_of_mem ?_ (List.mem_iff_getElem?.mpr ⟨i, ?_⟩)
    · rw [map_fst_zip]
      exact h.sublist (List.take_sublist _ _)
    · exact List.getElem?_zip_eq_some.mpr ⟨hi, hv⟩

/-- Counted from the end, the i-th parameter has the i-th default. -/
theorem defaultAt?_eq (h : p.defaults.length ≤ p.positional.length) {i : Nat}
    (hi : i < p.positional.length) :
    p.defaultAt? i = p.defaults.reverse[p.positional.length - 1 - i]? := by
  unfold defaultAt? required
  split
  · next hle =>
    rw [List.getElem?_reverse (by omega)]
    congr 1
    omega
  · next hlt => rw [List.getElem?_eq_none (by simp; omega)]

theorem isSome_defaultAt? (h : p.defaults.length ≤ p.positional.length) {i : Nat}
    (hi : i < p.positional.length) :
    (p.defaultAt? i).isSome ↔ p.positional.length ≤ i + p.defaults.length := by
  rw [defaultAt?_eq h hi, isSome_getElem?, List.length_reverse]
  omega

/-- A check that fails ends a computation. -/
theorem ite_throw_ok {α : Type} {c : Prop} [Decidable c] {failure : CallFailure}
    {k : Except CallFailure α} {a : α} :
    (if c then throw failure else k) = .ok a ↔ ¬ c ∧ k = .ok a := by
  by_cases hc : c
  · rw [if_pos hc]
    exact iff_of_false (fun h => by cases h) fun h => h.1 hc
  · simp [hc]

theorem bindNames_ok : p.bindNames args = .ok (bound, keywords) ↔
    (p.surplusPositional args = [] ∨ p.varargs.isSome) ∧ ∃ bound₁,
      p.bindNamed args.named (p.bindPositional args.positional) = .ok (bound₁, keywords) ∧
      (keywords = [] ∨ p.varkw.isSome) ∧ ∃ bound₂,
        fillMissing (p.missing args) p.positionalDefaults bound₁ = .ok bound₂ ∧
        fillMissing (.missingParameter p.function) p.kwonlyDefaults bound₂ = .ok bound := by
  have hcollected {α : Type} {l : List α} {o : Option String} :
      ¬ (!l.isEmpty && o.isNone) = true ↔ l = [] ∨ o.isSome := by
    cases l <;> cases o <;> simp
  unfold bindNames
  rw [ite_throw_ok, hcollected, Except.bind_eq_ok]
  refine and_congr_right fun _ => ?_
  constructor
  · rintro ⟨⟨bound₁, keywords₁⟩, hnamed, h⟩
    dsimp only at h
    rw [ite_throw_ok, hcollected, Except.bind_eq_ok] at h
    obtain ⟨hkeywords, bound₂, hpositional, h⟩ := h
    obtain ⟨bound₃, hkwonly, h⟩ := Except.bind_eq_ok.mp h
    cases h
    exact ⟨bound₁, hnamed, hkeywords, bound₂, hpositional, hkwonly⟩
  · rintro ⟨bound₁, hnamed, hkeywords, bound₂, hpositional, hkwonly⟩
    refine ⟨_, hnamed, ?_⟩
    dsimp only
    rw [ite_throw_ok, hcollected, Except.bind_eq_ok]
    exact ⟨hkeywords, bound₂, hpositional, Except.bind_eq_ok.mpr ⟨bound, hkwonly, rfl⟩⟩

theorem names_positionalDefaults (p : Parameters) :
    p.positionalDefaults.map (·.1) = p.positional := by
  unfold positionalDefaults
  rw [List.map_map]
  exact List.zipIdx_map_fst 0 p.positional

theorem names_kwonlyDefaults (p : Parameters) : p.kwonlyDefaults.map (·.1) = p.kwonly := by
  simp [kwonlyDefaults, Function.comp_def]

theorem Proper.nodup_named (hp : p.Proper) : p.named.Nodup := (List.nodup_append.mp hp.distinct).1

theorem Proper.nodup_positional (hp : p.Proper) : p.positional.Nodup :=
  (List.nodup_append.mp hp.nodup_named).1

theorem Proper.nodup_kwonly (hp : p.Proper) : p.kwonly.Nodup :=
  (List.nodup_append.mp hp.nodup_named).2.1

/-- After positional arguments and keywords a parameter is bound if it has got either. -/
theorem mem_bindNamed (hp : p.Proper)
    (h : p.bindNamed args.named (p.bindPositional args.positional) = .ok (bound, keywords)) :
    name ∈ bound ↔ name ∈ p.positional.take args.positional.length ∨
      name ∈ p.named ∧ name ∈ args.named.map (·.1) := by
  rw [Std.TreeMap.mem_iff_isSome_getElem?, (bindNamed_getElem? h).2,
    ← mem_bindPositional hp.nodup_positional, Std.TreeMap.mem_iff_isSome_getElem?, ← isSome_lookup]
  by_cases hname : name ∈ p.named <;> simp [hname]

theorem mem_take_iff (h : p.positional.Nodup) {i k : Nat} (hi : p.positional[i]? = some name) :
    name ∈ p.positional.take k ↔ i < k := by
  obtain ⟨hlt, -⟩ := List.getElem?_eq_some_iff.mp hi
  rw [List.mem_iff_getElem?]
  constructor
  · rintro ⟨j, hj⟩
    rw [List.getElem?_take] at hj
    split at hj
    · next hjk => exact (List.getElem?_inj hlt h).mp (hi.trans hj.symm) ▸ hjk
    · cases hj
  · exact fun hik => ⟨i, by rwa [List.getElem?_take, if_pos hik]⟩

theorem Proper.not_mem_kwonly (hp : p.Proper) (h : name ∈ p.positional) : name ∉ p.kwonly :=
  fun h' => (List.nodup_append.mp hp.nodup_named).2.2 name h name h' rfl

/-- The keywords that are left over are those that name no parameter. -/
theorem keywords_eq_nil_iff : p.surplusNamed args = [] ↔ ∀ entry ∈ args.named, entry.1 ∈ p.named := by
  simp [surplusNamed]

/-- Positional parameters are bound, or they have a default. -/
theorem positionalDefaults_filled (hp : p.Proper)
    (h : p.bindNamed args.named (p.bindPositional args.positional) = .ok (bound, keywords)) :
    (∀ entry ∈ p.positionalDefaults, entry.1 ∈ bound ∨ entry.2.isSome) ↔
      ∀ (i : Nat) (name : String), p.positional[i]? = some name →
        i < args.positional.length ∨ name ∈ args.named.map (·.1) ∨
          p.positional.length ≤ i + p.defaults.length := by
  have hentry {i : Nat} {name : String} (hi : p.positional[i]? = some name) :
      name ∈ bound ∨ (p.defaultAt? i).isSome ↔
        i < args.positional.length ∨ name ∈ args.named.map (·.1) ∨
          p.positional.length ≤ i + p.defaults.length := by
    have hnamed : name ∈ p.named := List.mem_append_left _ (List.mem_of_getElem? hi)
    rw [mem_bindNamed hp h, mem_take_iff hp.nodup_positional hi, and_iff_right hnamed,
      isSome_defaultAt? hp.defaults_le (List.getElem?_eq_some_iff.mp hi).1, or_assoc]
  unfold positionalDefaults
  constructor
  · exact fun hall i name hi => (hentry hi).mp
      (hall _ (List.mem_map.mpr ⟨(name, i), List.mem_zipIdx_iff_getElem?.mpr hi, rfl⟩))
  · rintro hall _ hmem
    obtain ⟨⟨name, i⟩, hi, rfl⟩ := List.mem_map.mp hmem
    have hi := List.mem_zipIdx_iff_getElem?.mp hi
    exact (hentry hi).mpr (hall i name hi)

/-- Parameters that are given by keyword only are bound, or they have a default. -/
theorem kwonlyDefaults_filled (hp : p.Proper)
    (h : p.bindNamed args.named (p.bindPositional args.positional) = .ok (bound, keywords))
    (hfill : fillMissing (p.missing args) p.positionalDefaults bound = .ok bound') :
    (∀ entry ∈ p.kwonlyDefaults, entry.1 ∈ bound' ∨ entry.2.isSome) ↔
      ∀ name ∈ p.kwonly, name ∈ args.named.map (·.1) ∨ name ∈ p.kwDefaults := by
  unfold kwonlyDefaults
  rw [List.forall_mem_map]
  refine forall₂_congr fun name hname => ?_
  have hpositional : name ∉ p.positional := fun h' => hp.not_mem_kwonly h' hname
  have hnamed : name ∈ p.named := List.mem_append_right _ hname
  rw [mem_fillMissing (by rw [names_positionalDefaults]; exact hp.nodup_positional) hfill,
    names_positionalDefaults, or_iff_left hpositional, mem_bindNamed hp h,
    or_iff_right fun h' => hpositional (List.mem_of_mem_take h'),
    and_iff_right hnamed, Std.TreeMap.mem_iff_isSome_getElem?]

/-- A call without stars binds the names if it keeps to the rules. -/
theorem exists_bindNames (hp : p.Proper) :
    (∃ r, p.bindNames args = .ok r) ↔ p.Accepts args := by
  have hpositional : (p.positionalDefaults.map (·.1)).Nodup := by
    rw [names_positionalDefaults]
    exact hp.nodup_positional
  have hkwonly : (p.kwonlyDefaults.map (·.1)).Nodup := by
    rw [names_kwonlyDefaults]
    exact hp.nodup_kwonly
  have hsurplus : p.surplusPositional args = [] ↔
      args.positional.length ≤ p.positional.length := List.drop_eq_nil_iff
  have hnamed : (∀ entry ∈ args.named, entry.1 ∈ p.named →
      entry.1 ∉ p.bindPositional args.positional) ↔
        ∀ entry ∈ args.named, entry.1 ∉ p.positional.take args.positional.length := by
    refine forall₂_congr fun entry _ => ?_
    rw [mem_bindPositional hp.nodup_positional]
    exact ⟨fun h hmem => h (List.mem_append_left _ (List.mem_of_mem_take hmem)) hmem,
      fun h _ => h⟩
  constructor
  · rintro ⟨⟨bound, keywords⟩, h⟩
    obtain ⟨hcount, bound₁, hbound₁, hknown, bound₂, hbound₂, hbound⟩ := bindNames_ok.mp h
    obtain ⟨hunfilled, honce⟩ := exists_bindNamed.mp ⟨_, hbound₁⟩
    obtain ⟨rfl, -⟩ := bindNamed_getElem? hbound₁
    exact {
      count := hcount.imp_left hsurplus.mp
      unfilled := hnamed.mp hunfilled
      once := honce
      known := hknown.imp_left keywords_eq_nil_iff.mp
      filled := (positionalDefaults_filled hp hbound₁).mp
        ((exists_fillMissing hpositional).mp ⟨_, hbound₂⟩)
      filledKwonly := (kwonlyDefaults_filled hp hbound₁ hbound₂).mp
        ((exists_fillMissing hkwonly).mp ⟨_, hbound⟩) }
  · intro h
    obtain ⟨⟨bound₁, keywords⟩, hbound₁⟩ := exists_bindNamed.mpr ⟨hnamed.mpr h.unfilled, h.once⟩
    obtain ⟨bound₂, hbound₂⟩ := (exists_fillMissing hpositional).mpr
      ((positionalDefaults_filled hp hbound₁).mpr h.filled)
    obtain ⟨bound, hbound⟩ := (exists_fillMissing hkwonly).mpr
      ((kwonlyDefaults_filled hp hbound₁ hbound₂).mpr h.filledKwonly)
    obtain ⟨rfl, -⟩ := bindNamed_getElem? hbound₁
    exact ⟨_, bindNames_ok.mpr ⟨h.count.imp_left hsurplus.mpr, bound₁, hbound₁,
      h.known.imp_left keywords_eq_nil_iff.mpr, bound₂, hbound₂, hbound⟩⟩

/-- What a call without stars binds to the parameters that may be given by name. -/
theorem bindNames_binds (hp : p.Proper) (h : p.bindNames args = .ok (bound, keywords)) :
    keywords = p.surplusNamed args ∧ p.Binds args bound ∧
      ∀ name, name ∈ bound ↔ name ∈ p.named := by
  obtain ⟨-, bound₁, hbound₁, -, bound₂, hbound₂, hbound⟩ := bindNames_ok.mp h
  obtain ⟨rfl, hlookup₁⟩ := bindNamed_getElem? hbound₁
  have hpositional : (p.positionalDefaults.map (·.1)).Nodup := by
    rw [names_positionalDefaults]
    exact hp.nodup_positional
  have hkwonly : (p.kwonlyDefaults.map (·.1)).Nodup := by
    rw [names_kwonlyDefaults]
    exact hp.nodup_kwonly
  have hlookup (name : String) : bound[name]? = ((bound₁[name]? <|>
      (p.positionalDefaults.lookup name).join) <|> (p.kwonlyDefaults.lookup name).join) := by
    rw [fillMissing_getElem? hkwonly hbound, fillMissing_getElem? hpositional hbound₂]
  refine ⟨rfl, ⟨fun i name hi => ?_, fun name hname => ?_⟩, fun name => ?_⟩
  · have hmem : name ∈ p.positional := List.mem_of_getElem? hi
    have hnamed : name ∈ p.named := List.mem_append_left _ hmem
    have hentry : (name, p.defaultAt? i) ∈ p.positionalDefaults :=
      List.mem_map.mpr ⟨(name, i), List.mem_zipIdx_iff_getElem?.mpr hi, rfl⟩
    have hnone : p.kwonlyDefaults.lookup name = none := lookup_of_not_mem (by
      rw [names_kwonlyDefaults]
      exact hp.not_mem_kwonly hmem)
    rw [hlookup, hlookup₁, bindPositional_at hp.nodup_positional hi,
      if_pos hnamed, lookup_of_mem hpositional hentry, hnone,
      ← defaultAt?_eq hp.defaults_le (List.getElem?_eq_some_iff.mp hi).1]
    simp [Option.or_assoc]
  · have hmem : name ∉ p.positional := fun h' => hp.not_mem_kwonly h' hname
    have hnamed : name ∈ p.named := List.mem_append_right _ hname
    have hentry : (name, p.kwDefaults[name]?) ∈ p.kwonlyDefaults :=
      List.mem_map.mpr ⟨name, hname, rfl⟩
    have hnone : p.positionalDefaults.lookup name = none := lookup_of_not_mem (by
      rwa [names_positionalDefaults])
    have hfirst : (p.bindPositional args.positional)[name]? = none :=
      Std.TreeMap.getElem?_eq_none fun h' => hmem (List.mem_of_mem_take ((mem_bindPositional hp.nodup_positional _).mp h'))
    rw [hlookup, hlookup₁, hfirst, if_pos hnamed, hnone,
      lookup_of_mem hkwonly hentry]
    simp
  · rw [mem_fillMissing hkwonly hbound, mem_fillMissing hpositional hbound₂,
      mem_bindNamed hp hbound₁, names_positionalDefaults, names_kwonlyDefaults, named,
      List.mem_append]
    grind [List.mem_of_mem_take]

end Parameters

end ValueTrace
