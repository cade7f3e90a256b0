import Mathlib.Tactic.Common

/-! What a step that succeeds has done, taken apart into the steps that it is made of. -/
namespace ValueTrace

variable {ε σ α β : Type} {s s' : σ} {a c : α} {b : β}

theorem bind_ok {x : EStateM ε σ α} {f : α → EStateM ε σ β} :
    (x >>= f) s = .ok b s' ↔ ∃ a s₁, x s = .ok a s₁ ∧ f a s₁ = .ok b s' := by
  change EStateM.bind x f s = _ ↔ _
  unfold EStateM.bind
  cases h : x s with
  | ok a s₁ =>
    constructor
    · exact fun hf => ⟨a, s₁, rfl, hf⟩
    · rintro ⟨_, _, hx, hf⟩
      cases hx
      exact hf
  | error e s₁ => simp

theorem bind_eq_of_ok {x : EStateM ε σ α} {f : α → EStateM ε σ β} {s₁ : σ} (h : x s = .ok a s₁) :
    (x >>= f) s = f a s₁ := by
  change EStateM.bind x f s = _
  unfold EStateM.bind
  rw [h]

theorem bind_eq_of_error {x : EStateM ε σ α} {f : α → EStateM ε σ β} {e : ε} {s₁ : σ}
    (h : x s = .error e s₁) : (x >>= f) s = .error e s₁ := by
  change EStateM.bind x f s = _
  unfold EStateM.bind
  rw [h]

theorem bind_eq_of_eq {x y : EStateM ε σ α} {f : α → EStateM ε σ β} (h : x s = y s) :
    (x >>= f) s = (y >>= f) s := by
  change EStateM.bind x f s = EStateM.bind y f s
  unfold EStateM.bind
  rw [h]

theorem run'_eq_some {x : EStateM ε σ α} : x.run' s = some a ↔ ∃ s', x s = .ok a s' := by
  unfold EStateM.run' EStateM.run
  cases x s with
  | ok b s' => simp
  | error e s' => simp

theorem pure_ok : (pure a : EStateM ε σ α) s = .ok c s' ↔ a = c ∧ s = s' := by
  change EStateM.Result.ok a s = .ok c s' ↔ _
  simp

theorem throw_ok {e : ε} : (throw e : EStateM ε σ α) s = .ok a s' ↔ False := by
  change EStateM.Result.error e s = .ok a s' ↔ _
  simp

theorem get_ok {t : σ} : (get : EStateM ε σ σ) s = .ok t s' ↔ s = t ∧ s = s' := by
  change EStateM.Result.ok s s = .ok t s' ↔ _
  simp

theorem set_ok {t : σ} : (set t : EStateM ε σ Unit) s = .ok () s' ↔ t = s' := by
  change EStateM.Result.ok () t = .ok () s' ↔ _
  simp

theorem modify_ok {f : σ → σ} : (modify f : EStateM ε σ Unit) s = .ok () s' ↔ f s = s' := by
  change EStateM.Result.ok () (f s) = .ok () s' ↔ _
  simp

theorem modifyGet_ok {f : σ → α × σ} :
    (modifyGet f : EStateM ε σ α) s = .ok a s' ↔ f s = (a, s') := by
  change EStateM.Result.ok (f s).1 (f s).2 = .ok a s' ↔ _
  simp [Prod.ext_iff]

theorem ofExcept_ok {x : Except ε α} :
    (MonadExcept.ofExcept x : EStateM ε σ α) s = .ok a s' ↔ x = .ok a ∧ s = s' := by
  cases x with
  | ok c =>
    change EStateM.Result.ok c s = .ok a s' ↔ _
    simp
  | error e =>
    change EStateM.Result.error e s = .ok a s' ↔ _
    simp

theorem Except.bind_eq_ok {x : Except ε α} {f : α → Except ε β} :
    (x >>= f) = .ok b ↔ ∃ a, x = .ok a ∧ f a = .ok b := by
  cases x <;> simp [bind, Except.bind]

end ValueTrace
