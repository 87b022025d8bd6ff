import SelectiveEffects.Context.Free

/-! Direct evaluation: what running a tree comes to, by recursion on the tree. -/

namespace SelectiveEffects

/-- An evaluation has no value when it reaches a deferred node beyond its bound. -/
abbrev Evaluation (σ : Type) := OptionT (Action σ)

namespace Evaluation

variable {σ α β : Type}

def ofExcept (r : Except Fault α) : Evaluation σ α :=
  OptionT.lift (Action.ofExcept r)

@[simp] theorem ofExcept_ok (a : α) : (ofExcept (.ok a) : Evaluation σ α) = pure a := rfl

theorem ofExcept_bind (r : Except Fault α) (f : α → Except Fault β) :
    (ofExcept (r >>= f) : Evaluation σ β) = ofExcept r >>= fun a => ofExcept (f a) := by
  cases r <;> rfl

@[simp] theorem pure_apply (a : α) (s : σ) : (pure a : Evaluation σ α) s = .ok (some a) s := rfl

@[simp] theorem failure_apply (s : σ) : (failure : Evaluation σ α) s = .ok none s := rfl

@[simp] theorem ofExcept_error_apply (e : Fault) (s : σ) :
    (ofExcept (.error e) : Evaluation σ α) s = .error e s := rfl

theorem lift_apply (a : Action σ α) (s : σ) :
    (OptionT.lift a : Evaluation σ α) s =
      match a s with
      | .ok v s => .ok (some v) s
      | .error e s => .error e s := by
  simp only [OptionT.lift, OptionT.mk, bind, EStateM.bind]
  cases a s <;> rfl

theorem bind_apply (x : Evaluation σ α) (f : α → Evaluation σ β) (s : σ) :
    (x >>= f) s =
      match x s with
      | .ok (some a) s => f a s
      | .ok none s => .ok none s
      | .error e s => .error e s := by
  simp only [bind, OptionT.bind, OptionT.mk, EStateM.bind]
  cases x s with
  | ok a s => cases a <;> rfl
  | error e s => rfl

theorem bind_eq_ok_iff {x : Evaluation σ α} {f : α → Evaluation σ β} {b : β} {s s' : σ} :
    (x >>= f) s = .ok (some b) s' ↔
      ∃ a s₁, x s = .ok (some a) s₁ ∧ f a s₁ = .ok (some b) s' := by
  rw [bind_apply]
  constructor
  · intro h
    match x s, h with
    | .ok (some a) s₁, h => exact ⟨a, s₁, rfl, h⟩
  · rintro ⟨a, s₁, hx, h⟩
    rw [hx]
    exact h

theorem ofExcept_eq_ok_iff {r : Except Fault α} {a : α} {s s' : σ} :
    (ofExcept r : Evaluation σ α) s = .ok (some a) s' ↔ r = .ok a ∧ s = s' := by
  cases r <;> simp

theorem map_eq_ok_iff {x : Evaluation σ α} {f : α → Except Fault β} {b : β} {s s' : σ} :
    (x >>= fun a => ofExcept (f a)) s = .ok (some b) s' ↔
      ∃ a, x s = .ok (some a) s' ∧ f a = .ok b := by
  simp only [bind_eq_ok_iff, ofExcept_eq_ok_iff]
  constructor
  · rintro ⟨a, _, hx, hf, rfl⟩
    exact ⟨a, hx, hf⟩
  · rintro ⟨a, hx, hf⟩
    exact ⟨a, s', hx, hf, rfl⟩

/-- Two continuations that agree where an evaluation leads may replace each other there. -/
theorem bind_congr_at {x : Evaluation σ α} {f g : α → Evaluation σ β} {s : σ}
    (h : ∀ a s', x s = .ok (some a) s' → f a s' = g a s') : (x >>= f) s = (x >>= g) s := by
  rw [bind_apply, bind_apply]
  cases hx : x s with
  | ok a s' =>
    cases a with
    | none => rfl
    | some a => exact h a s' hx
  | error e s' => rfl

theorem bind_congr_of_ok {x : Evaluation σ α} {f g : α → Evaluation σ β}
    (h : ∀ s a s', x s = .ok (some a) s' → f a = g a) : x >>= f = x >>= g := by
  funext s
  exact bind_congr_at fun a s' hx => congrFun (h s a s' hx) s'

end Evaluation

namespace Tree

variable {P G σ : Type} [Primitives P]

/-- What a node does with the value of its disjunction: `handler` gives the function for a left
payload. -/
def choose (handler : Evaluation σ (Val P)) (k : Post P) : Val P → Evaluation σ (Val P)
  | .left a => do
    let f ← handler
    Evaluation.ofExcept (f.call a >>= k.apply)
  | .right b => Evaluation.ofExcept (k.apply b)
  | v => Evaluation.ofExcept (.error (.untaggedDisjunction v.typeName))

/-- Evaluates a tree whose deferred nodes are valued by `deferral`. -/
def evaluateWith (perform : Effect P → Action σ (Val P))
    (deferral : Source P G → Evaluation σ (Val P)) : Tree P G → Evaluation σ (Val P)
  | pure v => Pure.pure v
  | lifted e k => do
    let v ← OptionT.lift (perform e)
    Evaluation.ofExcept (k.apply v)
  | selection d h k _ => do
    let v ← evaluateWith perform deferral d
    choose (evaluateWith perform deferral h) k v
  | deferred g k => do
    let v ← deferral (.host g)
    Evaluation.ofExcept (k.apply v)
  | loop action k => do
    let v ← deferral (.loop action)
    Evaluation.ofExcept (k.apply v)
  | foreign typeName => Evaluation.ofExcept (.error (.notInterpretable typeName))
  | unknown typeName => Evaluation.ofExcept (.error (.notInterpretable typeName))

/-- Evaluates a tree, expanding deferred nodes at most so many times inside one another. No value
means that one further inside was reached. -/
def evaluate (expand : Source P G → Action σ (Tree P G)) (perform : Effect P → Action σ (Val P)) :
    Nat → Tree P G → Evaluation σ (Val P)
  | 0, t => evaluateWith perform (fun _ => failure) t
  | n + 1, t =>
    evaluateWith perform (fun source => do
      let inner ← OptionT.lift (expand source)
      evaluate expand perform n inner) t

/-- The value of what a deferred node generates, expanded once. -/
def expansion (expand : Source P G → Action σ (Tree P G))
    (perform : Effect P → Action σ (Val P)) : Nat → Source P G → Evaluation σ (Val P)
  | 0, _ => failure
  | n + 1, source => do
    let inner ← OptionT.lift (expand source)
    evaluate expand perform n inner

theorem evaluate_eq (expand : Source P G → Action σ (Tree P G))
    (perform : Effect P → Action σ (Val P)) (n : Nat) :
    evaluate expand perform n = evaluateWith perform (expansion expand perform n) := by
  cases n <;> rfl

theorem choose_untagged {v : Val P} (hl : ∀ a, v ≠ .left a) (hr : ∀ b, v ≠ .right b)
    (handler : Evaluation σ (Val P)) (k : Post P) :
    choose handler k v = Evaluation.ofExcept (.error (.untaggedDisjunction v.typeName)) := by
  cases v with
  | left a => exact absurd rfl (hl a)
  | right b => exact absurd rfl (hr b)
  | _ => rfl

end Tree

end SelectiveEffects
