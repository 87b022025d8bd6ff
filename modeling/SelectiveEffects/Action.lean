import SelectiveEffects.Fault

/-! Computations that change a world and may fail; the world keeps its changes when they do. -/

namespace SelectiveEffects

abbrev Action (σ : Type) := EStateM Fault σ

namespace Action

variable {σ α β : Type}

def ofExcept : Except Fault α → Action σ α
  | .ok a => pure a
  | .error e => throw e

/-- Turns an ordinary failure into a value. Escaping faults pass. -/
def attempt (a : Action σ α) : Action σ (Except Fault α) := fun s =>
  match a s with
  | .ok v s' => .ok (.ok v) s'
  | .error e s' => if e.escapes then .error e s' else .ok (.error e) s'

/-- Turns every failure into a value. -/
def outcome (a : Action σ α) : Action σ (Except Fault α) := fun s =>
  match a s with
  | .ok v s' => .ok (.ok v) s'
  | .error e s' => .ok (.error e) s'

/-- Catches ordinary faults of a result that needed no world. -/
def attemptResult : Except Fault α → Action σ (Except Fault α)
  | .ok a => pure (.ok a)
  | .error e => if e.escapes then throw e else pure (.error e)

@[simp] theorem ofExcept_ok (a : α) : (ofExcept (.ok a) : Action σ α) = pure a := rfl

@[simp] theorem ofExcept_error (e : Fault) : (ofExcept (.error e) : Action σ α) = throw e := rfl

theorem pure_apply (a : α) (s : σ) : (pure a : Action σ α) s = .ok a s := rfl

theorem throw_apply (e : Fault) (s : σ) : (throw e : Action σ α) s = .error e s := rfl

theorem bind_apply (a : Action σ α) (f : α → Action σ β) (s : σ) :
    (a >>= f) s =
      match a s with
      | .ok v s' => f v s'
      | .error e s' => .error e s' := by
  simp only [bind, EStateM.bind]
  cases a s <;> rfl

theorem bind_eq_ok_iff {a : Action σ α} {f : α → Action σ β} {w w' : σ} {y : β} :
    (a >>= f) w = .ok y w' ↔ ∃ x w₁, a w = .ok x w₁ ∧ f x w₁ = .ok y w' := by
  rw [bind_apply]
  cases a w with
  | ok x w₁ =>
    constructor
    · intro h
      exact ⟨x, w₁, rfl, h⟩
    · rintro ⟨x₁, w₂, h₁, h⟩
      cases h₁
      exact h
  | error e w₁ => simp

theorem ofExcept_eq_ok_iff {r : Except Fault α} {w w' : σ} {x : α} :
    ofExcept r w = .ok x w' ↔ r = .ok x ∧ w = w' := by
  cases r with
  | ok a => simp [pure_apply]
  | error e => simp [throw_apply]

theorem ofExcept_bind (r : Except Fault α) (f : α → Except Fault β) :
    (ofExcept (r >>= f) : Action σ β) = ofExcept r >>= fun a => ofExcept (f a) := by
  cases r <;> rfl

/-- Whatever the world is, the action succeeds with this value. -/
def Settles (a : Action σ α) (x : α) : Prop :=
  ∀ w, ∃ w', a w = .ok x w'

theorem settles_pure (x : α) : (pure x : Action σ α).Settles x :=
  fun w => ⟨w, rfl⟩

theorem Settles.bind {a : Action σ α} {f : α → Action σ β} {x : α} {y : β} (ha : a.Settles x)
    (hf : (f x).Settles y) : (a >>= f).Settles y := by
  intro w
  obtain ⟨w₁, hx⟩ := ha w
  obtain ⟨w₂, hy⟩ := hf w₁
  exact ⟨w₂, by rw [bind_apply, hx]; exact hy⟩

theorem Settles.map {a : Action σ α} {x : α} (ha : a.Settles x) (f : α → β) :
    (f <$> a).Settles (f x) := by
  rw [map_eq_pure_bind]
  exact ha.bind (settles_pure (f x))

theorem Settles.unique {a : Action σ α} {x y : α} {w w' : σ} (ha : a.Settles x)
    (h : a w = .ok y w') : y = x := by
  obtain ⟨w₁, hx⟩ := ha w
  cases h.symm.trans hx
  rfl

end Action

end SelectiveEffects
