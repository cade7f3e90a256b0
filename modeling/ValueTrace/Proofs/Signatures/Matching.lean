import ValueTrace.Signature.Matching

/-!
# What matching remembers

Matching an argument against a type may remember the argument and the type parameters of the object
that it is, and nothing else. What has been remembered is not forgotten. An argument of which
nothing is known fits every type, so it is remembered only if a type variable is what it is matched
against first.
-/

namespace ValueTrace

def Subst.Le (σ τ : Subst) : Prop := ∀ V, σ.getD V [] ⊆ τ.getD V []

namespace TypeExpr

mutual

/-- How a type takes an argument of which nothing is known, if it takes it at all: as a type
variable, or as nothing in particular. -/
def takesOpaque : TypeExpr → Option (Option String)
  | .any | .name _ | .generic .. => some none
  | .var V => some (some V)
  | .union options => firstTakesOpaque options

def firstTakesOpaque : List TypeExpr → Option (Option String)
  | [] => none
  | t :: ts => t.takesOpaque.or (firstTakesOpaque ts)

end

end TypeExpr

/-- A parameter takes an argument, by its position or by its name. -/
def Signature.Takes (sig : Signature) (positional : List BindingId)
    (named : List (String × BindingId)) (p : Param) (b : BindingId) : Prop :=
  (∃ i : Nat, positional[i]? = some b ∧ sig.params[i]? = some p) ∨
    ∃ name i, (name, b) ∈ named ∧
      sig.params.zipIdx.find? (fun entry => entry.1.name == name) = some (p, i)

/-- What may be remembered of an argument. -/
inductive Matcher.Remembers (m : Matcher) (b : BindingId) : TypeSource → Prop
  | binding : m.Remembers b (.binding b)
  | param {o : Object} {name : String} {v : VarId} :
    m.store.object? (m.graph.dataOf b) = some o → o.typeParams[name]? = some v →
    m.Remembers b (.param v)

namespace Subst

variable {σ τ ρ : Subst} {V : String} {source : TypeSource}

theorem getD_add (σ : Subst) (name : String) (source : TypeSource) (V : String) :
    (σ.add name source).getD V [] =
      if V = name then σ.getD V [] ++ [source] else σ.getD V [] := by
  unfold add
  rw [Std.TreeMap.getD_insert]
  by_cases h : V = name
  · subst h
    simp
  · rw [if_neg h, if_neg]
    rw [Std.LawfulEqCmp.compare_eq_iff_eq]
    exact Ne.symm h

namespace Le

theorem refl (σ : Subst) : σ.Le σ := fun _ => List.Subset.refl _

theorem trans (h : σ.Le τ) (h' : τ.Le ρ) : σ.Le ρ := fun V => List.Subset.trans (h V) (h' V)

theorem add (σ : Subst) (name : String) (source : TypeSource) : σ.Le (σ.add name source) := by
  intro V
  rw [getD_add]
  split
  · exact List.subset_append_left _ _
  · exact List.Subset.refl _

end Le

end Subst

namespace Matcher

variable {m : Matcher} {σ τ : Subst} {b : BindingId} {t : TypeExpr} {p : Param}
  {I : Subst → Prop} {sig : Signature} {positional : List BindingId}
  {named : List (String × BindingId)}

theorem matchParam_preserves {v : VarId} (hadd : ∀ σ name, I σ → I (σ.add name (.param v)))
    (hσ : I σ) (h : m.matchParam v t σ = some τ) : I τ := by
  unfold matchParam at h
  split at h
  · cases h
    exact hadd _ _ hσ
  · cases h
    exact hσ
  · split at h
    · cases h
      exact hσ
    · cases h

theorem matchParams_preserves {o : Object} {ps : List (String × TypeExpr)}
    (hadd : ∀ (name : String) (v : VarId), o.typeParams[name]? = some v →
      ∀ σ name, I σ → I (σ.add name (.param v)))
    (hσ : I σ) (h : m.matchParams o ps σ = some τ) : I τ := by
  induction ps generalizing σ with
  | nil =>
    cases h
    exact hσ
  | cons p ps ih =>
    obtain ⟨name, t⟩ := p
    unfold matchParams at h
    split at h
    · next v hv =>
      obtain ⟨ρ, hρ, h⟩ := Option.bind_eq_some_iff.mp h
      exact ih (matchParam_preserves (hadd name v hv) hσ hρ) h
    · exact ih hσ h

mutual

/-- What holds of whatever is remembered of an argument holds after matching it. -/
theorem matchType_preserves {σ τ : Subst} {t : TypeExpr}
    (hadd : ∀ source, m.Remembers b source → ∀ σ name, I σ → I (σ.add name source)) (hσ : I σ)
    (h : m.matchType b t σ = some τ) : I τ := by
  unfold matchType at h
  cases t with
  | any =>
    cases h
    exact hσ
  | var name =>
    cases h
    exact hadd _ .binding _ _ hσ
  | name name =>
    dsimp only at h
    split at h
    · cases h
      exact hσ
    · cases h
  | generic name params =>
    dsimp only at h
    split at h
    · split at h
      · next o ho =>
        exact matchParams_preserves (fun x v hv => hadd _ (.param ho hv)) hσ h
      · cases h
        exact hσ
    · cases h
  | union options => exact matchFirst_preserves hadd hσ h

theorem matchFirst_preserves {σ τ : Subst} {ts : List TypeExpr}
    (hadd : ∀ source, m.Remembers b source → ∀ σ name, I σ → I (σ.add name source)) (hσ : I σ)
    (h : m.matchFirst b ts σ = some τ) : I τ := by
  cases ts with
  | nil =>
    unfold matchFirst at h
    cases h
  | cons t ts =>
    unfold matchFirst at h
    split at h
    · next hmatch =>
      cases h
      exact matchType_preserves hadd hσ hmatch
    · exact matchFirst_preserves hadd hσ h

end

theorem matchArg_preserves
    (hadd : ∀ source, m.Remembers b source → ∀ σ name, I σ → I (σ.add name source)) (hσ : I σ)
    (h : m.matchArg p b σ = some τ) : I τ := by
  unfold matchArg at h
  cases ht : p.type with
  | none =>
    rw [ht] at h
    cases h
    exact hσ
  | some t =>
    rw [ht] at h
    exact matchType_preserves hadd hσ h

theorem matchPositional_preserves {ps : List Param} {bs : List BindingId}
    (hadd : ∀ b ∈ bs, ∀ source, m.Remembers b source → ∀ σ name, I σ → I (σ.add name source))
    (hσ : I σ) (h : m.matchPositional sig ps bs σ = some τ) : I τ := by
  induction bs generalizing ps σ with
  | nil =>
    unfold matchPositional at h
    cases h
    exact hσ
  | cons b bs ih =>
    obtain ⟨hb, hbs⟩ := List.forall_mem_cons.mp hadd
    cases ps with
    | nil =>
      unfold matchPositional at h
      split at h
      · cases h
        exact hσ
      · cases h
    | cons p ps =>
      unfold matchPositional at h
      obtain ⟨ρ, hρ, h⟩ := Option.bind_eq_some_iff.mp h
      exact ih hbs (matchArg_preserves hb hσ hρ) h

theorem matchNamed_preserves {entries : List (String × BindingId)} {taken taken' : List Nat}
    (hadd : ∀ entry ∈ entries, ∀ source, m.Remembers entry.2 source →
      ∀ σ name, I σ → I (σ.add name source))
    (hσ : I σ) (h : m.matchNamed sig entries taken σ = some (taken', τ)) : I τ := by
  induction entries generalizing taken σ with
  | nil =>
    unfold matchNamed at h
    cases h
    exact hσ
  | cons entry entries ih =>
    obtain ⟨name, b⟩ := entry
    obtain ⟨hb, hrest⟩ := List.forall_mem_cons.mp hadd
    unfold matchNamed at h
    split at h
    · split at h
      · cases h
      · obtain ⟨ρ, hρ, h⟩ := Option.bind_eq_some_iff.mp h
        exact ih hrest (matchArg_preserves hb hσ hρ) h
    · split at h
      · exact ih hrest hσ h
      · cases h

theorem matchSignature_eq_some : m.matchSignature sig positional named = some τ ↔
    ∃ ρ taken, m.matchPositional sig sig.params positional ∅ = some ρ ∧
      m.matchNamed sig named (List.range (min positional.length sig.params.length)) ρ =
        some (taken, τ) ∧
      sig.params.zipIdx.all (fun (p, i) => taken.contains i || p.hasDefault) = true := by
  unfold matchSignature
  rw [Option.bind_eq_bind, Option.bind_eq_some_iff]
  refine exists_congr fun ρ => ?_
  rw [Option.bind_eq_bind, Option.bind_eq_some_iff, Prod.exists]
  refine ⟨?_, ?_⟩
  · rintro ⟨hpositional, taken, τ', hnamed, h⟩
    dsimp only at h
    split at h
    · next hall =>
      cases h
      exact ⟨taken, hpositional, hnamed, hall⟩
    · cases h
  · rintro ⟨taken, hpositional, hnamed, hall⟩
    exact ⟨hpositional, taken, τ, hnamed, if_pos hall⟩

/-- What holds of whatever is remembered of arguments holds after matching them. -/
theorem matchSignature_preserves
    (hadd : ∀ b ∈ positional ++ named.map (·.2), ∀ source, m.Remembers b source →
      ∀ σ name, I σ → I (σ.add name source))
    (hempty : I ∅) (h : m.matchSignature sig positional named = some τ) : I τ := by
  obtain ⟨ρ, taken, hpositional, hnamed, -⟩ := matchSignature_eq_some.mp h
  refine matchNamed_preserves (fun entry hentry => hadd entry.2 ?_)
    (matchPositional_preserves (fun b hb => hadd b (List.mem_append_left _ hb)) hempty hpositional)
    hnamed
  exact List.mem_append_right _ (List.mem_map_of_mem hentry)

theorem matchPositional_takes {ps : List Param} {bs : List BindingId}
    (h : m.matchPositional sig ps bs σ = some τ) {i : Nat} (hb : bs[i]? = some b)
    (hp : ps[i]? = some p) : ∃ ρ ρ', m.matchArg p b ρ = some ρ' ∧ ρ'.Le τ := by
  induction bs generalizing ps σ i with
  | nil => simp at hb
  | cons b' bs ih =>
    cases ps with
    | nil => simp at hp
    | cons p' ps =>
      unfold matchPositional at h
      obtain ⟨ρ, hρ, hrest⟩ := Option.bind_eq_some_iff.mp h
      cases i with
      | zero =>
        cases hb
        cases hp
        exact ⟨σ, ρ, hρ, matchPositional_preserves (I := ρ.Le)
          (fun _ _ _ _ τ name hle => hle.trans (.add _ _ _)) (.refl ρ) hrest⟩
      | succ i => exact ih hrest hb hp

theorem matchNamed_takes {entries : List (String × BindingId)} {taken taken' : List Nat}
    (h : m.matchNamed sig entries taken σ = some (taken', τ)) {name : String} {i : Nat}
    (hb : (name, b) ∈ entries)
    (hp : sig.params.zipIdx.find? (fun entry => entry.1.name == name) = some (p, i)) :
    ∃ ρ ρ', m.matchArg p b ρ = some ρ' ∧ ρ'.Le τ := by
  induction entries generalizing taken σ with
  | nil => cases hb
  | cons entry entries ih =>
    obtain ⟨name', b'⟩ := entry
    unfold matchNamed at h
    split at h
    · next p' i' hp' =>
      split at h
      · cases h
      · obtain ⟨ρ, hρ, hrest⟩ := Option.bind_eq_some_iff.mp h
        rcases List.mem_cons.mp hb with heq | hb
        · cases heq
          obtain ⟨rfl, rfl⟩ := Prod.mk.inj (Option.some.inj (hp'.symm.trans hp))
          exact ⟨σ, ρ, hρ, matchNamed_preserves (I := ρ.Le)
            (fun _ _ _ _ τ name hle => hle.trans (.add _ _ _)) (.refl ρ) hrest⟩
        · exact ih hrest hb
    · next hnone =>
      split at h
      · rcases List.mem_cons.mp hb with heq | hb
        · cases heq
          exact absurd (hnone.symm.trans hp) (by simp)
        · exact ih h hb
      · cases h

/-- An argument that a parameter takes has been matched, and what was remembered of it still is. -/
theorem matchSignature_takes (h : m.matchSignature sig positional named = some τ)
    (hb : sig.Takes positional named p b) : ∃ ρ ρ', m.matchArg p b ρ = some ρ' ∧ ρ'.Le τ := by
  obtain ⟨ρ, taken, hpositional, hnamed, -⟩ := matchSignature_eq_some.mp h
  rcases hb with ⟨i, hb, hp⟩ | ⟨name, i, hb, hp⟩
  · obtain ⟨σ, σ', hmatch, hle⟩ := matchPositional_takes hpositional hb hp
    exact ⟨σ, σ', hmatch, hle.trans (matchNamed_preserves (I := ρ.Le)
      (fun _ _ _ _ τ name hle => hle.trans (.add _ _ _)) (.refl ρ) hnamed)⟩
  · exact matchNamed_takes hnamed hb hp

theorem fitsClass_of_isOpaque {s : Store} {d : DataId} (h : (s.get d).isOpaque = true)
    (name : String) : s.fitsClass d name = true := by
  unfold Store.fitsClass
  cases hv : s.get d <;> simp_all [Value.isOpaque]

mutual

/-- A type takes an argument of which nothing is known in one way. -/
theorem matchType_of_isOpaque (h : (m.store.get (m.graph.dataOf b)).isOpaque = true) (t : TypeExpr)
    (σ : Subst) : m.matchType b t σ =
    t.takesOpaque.map fun taken => taken.elim σ fun V => σ.add V (.binding b) := by
  unfold matchType TypeExpr.takesOpaque
  cases t with
  | any => rfl
  | var V => rfl
  | name name =>
    dsimp only
    rw [if_pos (fitsClass_of_isOpaque h name)]
    rfl
  | generic name params =>
    have hobject : m.store.object? (m.graph.dataOf b) = none := by
      unfold Store.object?
      cases hv : m.store.get (m.graph.dataOf b) <;> simp_all [Value.isOpaque, Value.object?]
    dsimp only
    rw [if_pos (fitsClass_of_isOpaque h name), hobject]
    rfl
  | union options => exact matchFirst_of_isOpaque h options σ

theorem matchFirst_of_isOpaque (h : (m.store.get (m.graph.dataOf b)).isOpaque = true)
    (ts : List TypeExpr) (σ : Subst) : m.matchFirst b ts σ =
      (TypeExpr.firstTakesOpaque ts).map fun taken => taken.elim σ fun V => σ.add V (.binding b) := by
  cases ts with
  | nil =>
    unfold matchFirst TypeExpr.firstTakesOpaque
    rfl
  | cons t ts =>
    unfold matchFirst TypeExpr.firstTakesOpaque
    rw [matchType_of_isOpaque h t σ]
    cases t.takesOpaque with
    | none => exact matchFirst_of_isOpaque h ts σ
    | some taken => rfl

end

end Matcher

end ValueTrace
