import SelectiveEffects.Action

/-! Actions that come to related outcomes from related worlds. -/

namespace SelectiveEffects

/-- The same fault, or two values that are related. -/
inductive Alike {α β : Type} (Q : α → β → Prop) : Except Fault α → Except Fault β → Prop
  | ok {x : α} {y : β} : Q x y → Alike Q (.ok x) (.ok y)
  | error (e : Fault) : Alike Q (.error e) (.error e)

namespace Alike

variable {α β γ δ : Type} {Q : α → β → Prop} {S : γ → δ → Prop}

theorem bind {a : Except Fault α} {b : Except Fault β} {f : α → Except Fault γ}
    {g : β → Except Fault δ} (h : Alike Q a b) (hf : ∀ x y, Q x y → Alike S (f x) (g y)) :
    Alike S (a >>= f) (b >>= g) := by
  cases h with
  | ok hxy => exact hf _ _ hxy
  | error e => exact .error e

theorem imp {Q' : α → β → Prop} {a : Except Fault α} {b : Except Fault β} (h : Alike Q a b)
    (hQ : ∀ x y, Q x y → Q' x y) : Alike Q' a b := by
  cases h with
  | ok hxy => exact .ok (hQ _ _ hxy)
  | error e => exact .error e

theorem bind_self {a : Except Fault α} {f : α → Except Fault γ} {g : α → Except Fault δ}
    (hf : ∀ x, a = .ok x → Alike S (f x) (g x)) : Alike S (a >>= f) (a >>= g) := by
  cases a with
  | ok x => exact hf x rfl
  | error e => exact .error e

end Alike

namespace Action

variable {σ τ α β γ δ : Type} {Q : α → β → Prop} {S : γ → δ → Prop}

/-- The same fault, or two values that are related, in worlds that are. -/
inductive Outcomes (W : σ → τ → Prop) (Q : α → β → Prop) :
    EStateM.Result Fault σ α → EStateM.Result Fault τ β → Prop
  | ok {x : α} {y : β} {w : σ} {v : τ} : Q x y → W w v → Outcomes W Q (.ok x w) (.ok y v)
  | error (e : Fault) {w : σ} {v : τ} : W w v → Outcomes W Q (.error e w) (.error e v)

/-- From related worlds the two actions come to outcomes of one kind. -/
def RelatesIn (W : σ → τ → Prop) (Q : α → β → Prop) (a : Action σ α) (b : Action τ β) : Prop :=
  ∀ w v, W w v → Outcomes W Q (a w) (b v)

/-- From the same world, and to the same. -/
abbrev Relates (Q : α → β → Prop) (a : Action σ α) (b : Action σ β) : Prop :=
  RelatesIn (· = ·) Q a b

/-- From worlds that need have nothing in common. -/
abbrev Concurs (Q : α → β → Prop) (a : Action σ α) (b : Action σ β) : Prop :=
  RelatesIn (fun _ _ => True) Q a b

variable {W : σ → τ → Prop}

theorem relatesIn_pure {x : α} {y : β} (h : Q x y) :
    RelatesIn W Q (pure x : Action σ α) (pure y : Action τ β) :=
  fun _ _ => .ok h

theorem relatesIn_throw (e : Fault) :
    RelatesIn W Q (throw e : Action σ α) (throw e : Action τ β) :=
  fun _ _ => .error e

theorem relatesIn_ofExcept {a : Except Fault α} {b : Except Fault β} (h : Alike Q a b) :
    RelatesIn W Q (ofExcept a : Action σ α) (ofExcept b : Action τ β) := by
  cases h with
  | ok hxy => exact relatesIn_pure hxy
  | error e => exact relatesIn_throw e

theorem RelatesIn.bind {a : Action σ α} {b : Action τ β} {f : α → Action σ γ}
    {g : β → Action τ δ} (h : RelatesIn W Q a b) (hf : ∀ x y, Q x y → RelatesIn W S (f x) (g y)) :
    RelatesIn W S (a >>= f) (b >>= g) := by
  intro w v hwv
  have hw := h w v hwv
  rw [bind_apply, bind_apply]
  generalize a w = r at hw
  generalize b v = r' at hw
  cases hw with
  | ok hxy hW => exact hf _ _ hxy _ _ hW
  | error e hW => exact .error e hW

theorem RelatesIn.imp {Q' : α → β → Prop} {a : Action σ α} {b : Action τ β}
    (h : RelatesIn W Q a b) (hQ : ∀ x y, Q x y → Q' x y) : RelatesIn W Q' a b := by
  intro w v hwv
  have hw := h w v hwv
  generalize a w = r at hw ⊢
  generalize b v = r' at hw ⊢
  cases hw with
  | ok hxy hW => exact .ok (hQ _ _ hxy) hW
  | error e hW => exact .error e hW

theorem RelatesIn.attempt {a : Action σ α} {b : Action τ β} (h : RelatesIn W Q a b) :
    RelatesIn W (Alike Q) (attempt a) (attempt b) := by
  intro w v hwv
  have hw := h w v hwv
  unfold Action.attempt
  generalize a w = r at hw ⊢
  generalize b v = r' at hw ⊢
  cases hw with
  | ok hxy hW => exact .ok (.ok hxy) hW
  | error e hW =>
    by_cases he : e.escapes = true
    · simp only [if_pos he]
      exact .error e hW
    · simp only [if_neg he]
      exact .ok (.error e) hW

theorem RelatesIn.outcome {a : Action σ α} {b : Action τ β} (h : RelatesIn W Q a b) :
    RelatesIn W (Alike Q) (outcome a) (outcome b) := by
  intro w v hwv
  have hw := h w v hwv
  unfold Action.outcome
  generalize a w = r at hw ⊢
  generalize b v = r' at hw ⊢
  cases hw with
  | ok hxy hW => exact .ok (.ok hxy) hW
  | error e hW => exact .ok (.error e) hW

theorem relates_refl {Q : α → α → Prop} (hQ : ∀ x, Q x x) (a : Action σ α) : Relates Q a a := by
  rintro w _ rfl
  cases a w with
  | ok x w' => exact .ok (hQ x) rfl
  | error e w' => exact .error e rfl

theorem relates_of_eq {a b : Action σ α} (h : a = b) : Relates (· = ·) a b :=
  h ▸ relates_refl (fun _ => rfl) a

/-- Actions that come to the same are the same. -/
theorem Relates.eq {a b : Action σ α} (h : Relates (· = ·) a b) : a = b := by
  funext w
  have hw := h w w rfl
  generalize a w = r at hw ⊢
  generalize b w = r' at hw ⊢
  cases hw with
  | ok hxy hW => rw [hxy, hW]
  | error e hW => rw [hW]

/-- What two actions come to is related in every way in which the actions are. -/
theorem relatesIn_forall {ι : Type} [Inhabited ι] {Q : ι → α → β → Prop} {a : Action σ α}
    {b : Action τ β} (h : ∀ i, RelatesIn W (Q i) a b) :
    RelatesIn W (fun x y => ∀ i, Q i x y) a b := by
  intro w v hwv
  have hw (i : ι) := h i w v hwv
  generalize a w = r at hw
  generalize b v = r' at hw
  cases hw default with
  | ok _ hW =>
    refine .ok (fun i => ?_) hW
    cases hw i with
    | ok hxy => exact hxy
  | error e hW => exact .error e hW

theorem concurs_ofExcept (r : Except Fault α) :
    Concurs (· = ·) (ofExcept r : Action σ α) (ofExcept r) := by
  cases r with
  | ok x => exact relatesIn_pure rfl
  | error e => exact relatesIn_throw e

theorem Settles.concurs {a : Action σ α} {x : α} (h : a.Settles x) : Concurs (· = ·) a a := by
  intro w v hwv
  obtain ⟨w', hw⟩ := h w
  obtain ⟨v', hv⟩ := h v
  rw [hw, hv]
  exact .ok rfl hwv

end Action

end SelectiveEffects
