import Mathlib.Order.Filter.AtTopBot.Basic
import SelectiveEffects.Proofs.Context.Task
import SelectiveEffects.Proofs.Tree.Equations

/-! What calling a task comes to, by rules that need no budget. A call comes to it as soon as its
budget is large enough. -/

namespace SelectiveEffects

/-- The values and faults that there may be from a world, with the worlds that they leave. -/
abbrev Outcomes (P σ : Type) := σ → Except Fault (Val P) → σ → Prop

namespace Outcomes

variable {P σ : Type}

/-- Nothing is done. -/
def ofExcept (r : Except Fault (Val P)) : Outcomes P σ :=
  fun w r' w' => r' = r ∧ w' = w

/-- Goes on with the value, if there is one, from the world that was left. A fault stays. -/
def andThen (R : Outcomes P σ) (f : Val P → Outcomes P σ) : Outcomes P σ := fun w r w' =>
  (∃ v w₁, R w (.ok v) w₁ ∧ f v w₁ r w') ∨ ∃ e, R w (.error e) w' ∧ r = .error e

variable {R : Outcomes P σ} {f g : Val P → Outcomes P σ}

theorem ofExcept_ok_andThen (v : Val P) : (ofExcept (.ok v)).andThen f = f v := by
  funext w r w'
  simp [andThen, ofExcept]

theorem ofExcept_error_andThen (e : Fault) :
    (ofExcept (.error e)).andThen f = ofExcept (.error e) := by
  funext w r w'
  simp [andThen, ofExcept, and_comm]

theorem ofExcept_bind (r : Except Fault (Val P)) (f : Val P → Except Fault (Val P)) :
    (ofExcept (r >>= f) : Outcomes P σ) = (ofExcept r).andThen fun v => ofExcept (f v) := by
  cases r with
  | ok v => rw [ofExcept_ok_andThen]; rfl
  | error e => rw [ofExcept_error_andThen]; rfl

theorem andThen_assoc : (R.andThen f).andThen g = R.andThen fun v => (f v).andThen g := by
  funext w r w'
  apply propext
  constructor
  · rintro (⟨u, w₂, ⟨v, w₁, hv, hu⟩ | ⟨e, -, hu⟩, hr⟩ | ⟨e, ⟨v, w₁, hv, he⟩ | ⟨e', he, he'⟩, rfl⟩)
    · exact .inl ⟨v, w₁, hv, .inl ⟨u, w₂, hu, hr⟩⟩
    · cases hu
    · exact .inl ⟨v, w₁, hv, .inr ⟨e, he, rfl⟩⟩
    · cases he'
      exact .inr ⟨e, he, rfl⟩
  · rintro (⟨v, w₁, hv, ⟨u, w₂, hu, hr⟩ | ⟨e, he, rfl⟩⟩ | ⟨e, he, rfl⟩)
    · exact .inl ⟨u, w₂, .inl ⟨v, w₁, hv, hu⟩, hr⟩
    · exact .inr ⟨e, .inl ⟨v, w₁, hv, he⟩, rfl⟩
    · exact .inr ⟨e, .inr ⟨e, he, rfl⟩, rfl⟩

theorem andThen_congr_of_ok (h : ∀ w v w', R w (.ok v) w' → f v = g v) :
    R.andThen f = R.andThen g := by
  funext w r w'
  refine propext (or_congr_left (exists_congr fun v => exists_congr fun w₁ => ?_))
  exact and_congr_right fun hv => by rw [h w v w₁ hv]

end Outcomes

namespace Task

variable {P σ D : Type}

/-- What calling a task comes to. A deferred computation is generated, its task is called, and the
call goes on with the value of that one. -/
inductive Comes (gen : D → Action σ (Task P σ D)) : Task P σ D → Outcomes P σ
  | done (r : Except Fault (Val P)) (w : σ) : Comes gen (.done r) w r w
  | performs {action : Action σ (Val P)} {next : Val P → Task P σ D} {v : Val P} {w w₁ w' : σ}
      {r : Except Fault (Val P)} :
      action w = .ok v w₁ → Comes gen (next v) w₁ r w' → Comes gen (.perform action next) w r w'
  | fails {action : Action σ (Val P)} {next : Val P → Task P σ D} {e : Fault} {w w' : σ} :
      action w = .error e w' → Comes gen (.perform action next) w (.error e) w'
  | ungenerated {d : D} {next : Val P → Task P σ D} {e : Fault} {w w' : σ} :
      gen d w = .error e w' → Comes gen (.expand d next) w (.error e) w'
  | expands {d : D} {next : Val P → Task P σ D} {inner : Task P σ D} {v : Val P} {w w₁ w₂ w' : σ}
      {r : Except Fault (Val P)} :
      gen d w = .ok inner w₁ → Comes gen inner w₁ (.ok v) w₂ → Comes gen (next v) w₂ r w' →
      Comes gen (.expand d next) w r w'
  | expandsFaulty {d : D} {next : Val P → Task P σ D} {inner : Task P σ D} {e : Fault}
      {w w₁ w' : σ} :
      gen d w = .ok inner w₁ → Comes gen inner w₁ (.error e) w' →
      Comes gen (.expand d next) w (.error e) w'

variable {gen : D → Action σ (Task P σ D)}

section Calls

/-- A budgeted call that has come to its end. -/
def finished (w' : σ) : Except Fault (Val P) → EStateM.Result Fault σ (Option (Val P))
  | .ok v => .ok (some v) w'
  | .error e => .error e w'

theorem eventually_expansion {d : D} {w : σ} {result : EStateM.Result Fault σ (Option (Val P))}
    (h : ∀ᶠ n in Filter.atTop,
      (gen d >>= fun inner => inner.call gen n : Action σ (Option (Val P))) w = result) :
    ∀ᶠ n in Filter.atTop, expansion gen n d w = result := by
  obtain ⟨N, hN⟩ := Filter.eventually_atTop.mp h
  filter_upwards [Filter.eventually_gt_atTop N] with n hn
  obtain ⟨m, rfl⟩ := Nat.exists_eq_succ_of_ne_zero (Nat.ne_zero_of_lt hn)
  exact hN m (Nat.lt_succ_iff.mp hn)

theorem eventually_expansion_of_ok {d : D} {inner : Task P σ D} {w w₁ : σ}
    {result : EStateM.Result Fault σ (Option (Val P))} (hgen : gen d w = .ok inner w₁)
    (h : ∀ᶠ n in Filter.atTop, inner.evaluateWith (expansion gen n) w₁ = result) :
    ∀ᶠ n in Filter.atTop, expansion gen n d w = result := by
  refine eventually_expansion ?_
  filter_upwards [h] with n hn
  rw [Action.bind_apply, hgen]
  exact (congrFun (call_eq gen n inner) w₁).trans hn

theorem eventually_expansion_of_error {d : D} {e : Fault} {w w' : σ}
    (hgen : gen d w = .error e w') :
    ∀ᶠ n in Filter.atTop, expansion gen n d w = .error e w' :=
  eventually_expansion <| Filter.Eventually.of_forall fun n => by rw [Action.bind_apply, hgen]

/-- Every call with a large enough budget ends so. Where the rules call a task inside another one, the
larger of the two budgets is large enough for both. -/
theorem Comes.call {t : Task P σ D} {w w' : σ} {r : Except Fault (Val P)}
    (h : Comes gen t w r w') : ∀ᶠ n in Filter.atTop, t.call gen n w = finished w' r := by
  simp only [call_eq]
  induction h with
  | done r w =>
    refine Filter.Eventually.of_forall fun n => ?_
    rw [evaluateWith_done]
    cases r <;> rfl
  | performs haction _ ih =>
    filter_upwards [ih] with n hn
    rw [evaluateWith_perform, Evaluation.bind_apply, Evaluation.lift_apply, haction]
    exact hn
  | fails haction =>
    refine Filter.Eventually.of_forall fun n => ?_
    rw [evaluateWith_perform, Evaluation.bind_apply, Evaluation.lift_apply, haction]
    rfl
  | ungenerated hgen =>
    filter_upwards [eventually_expansion_of_error hgen] with n hn
    rw [evaluateWith_expand, Evaluation.bind_apply, hn]
    rfl
  | expands hgen _ _ ihinner ihnext =>
    filter_upwards [eventually_expansion_of_ok hgen ihinner, ihnext] with n hn hn'
    rw [evaluateWith_expand, Evaluation.bind_apply, hn]
    exact hn'
  | expandsFaulty hgen _ ihinner =>
    filter_upwards [eventually_expansion_of_ok hgen ihinner] with n hn
    rw [evaluateWith_expand, Evaluation.bind_apply, hn]
    rfl

/-- The deferred computations that a call comes to give what the rules let them give. -/
theorem comes_of_evaluateWith {force : D → Evaluation σ (Val P)}
    (hforce : ∀ d w r w', force d w = finished w' r →
      (∃ e, gen d w = .error e w' ∧ r = .error e) ∨
        ∃ inner w₁, gen d w = .ok inner w₁ ∧ Comes gen inner w₁ r w')
    {t : Task P σ D} {w w' : σ} {r : Except Fault (Val P)}
    (h : t.evaluateWith force w = finished w' r) : Comes gen t w r w' := by
  induction t generalizing w with
  | done r' =>
    rw [evaluateWith_done] at h
    cases r' <;> cases r <;> cases h <;> exact .done _ _
  | perform action next ih =>
    rw [evaluateWith_perform, Evaluation.bind_apply, Evaluation.lift_apply] at h
    cases haction : action w with
    | ok v w₁ =>
      rw [haction] at h
      exact .performs haction (ih v h)
    | error e w₁ =>
      rw [haction] at h
      cases r <;> cases h
      exact .fails haction
  | expand d next ih =>
    rw [evaluateWith_expand, Evaluation.bind_apply] at h
    cases hd : force d w with
    | error e w₁ =>
      rw [hd] at h
      cases r <;> cases h
      rcases hforce d w (.error e) w' hd with ⟨e', hgen, he⟩ | ⟨inner, w₂, hgen, hinner⟩
      · cases he
        exact .ungenerated hgen
      · exact .expandsFaulty hgen hinner
    | ok u w₁ =>
      rw [hd] at h
      cases u with
      | none => cases r <;> cases h
      | some v =>
        rcases hforce d w (.ok v) w₁ hd with ⟨e', _, he⟩ | ⟨inner, w₂, hgen, hinner⟩
        · cases he
        · exact .expands hgen hinner (ih v h)

theorem comes_of_call {n : Nat} {t : Task P σ D} {w w' : σ} {r : Except Fault (Val P)}
    (h : t.call gen n w = finished w' r) : Comes gen t w r w' := by
  rw [call_eq] at h
  refine comes_of_evaluateWith ?_ h
  -- On the budget: the task that a deferred computation gives is called with one less, and is no part
  -- of the task that is called.
  induction n generalizing t w w' r with
  | zero =>
    intro d w r w' hd
    cases r <;> cases hd
  | succ n ih =>
    intro d w r w' hd
    rw [expansion, Action.bind_apply] at hd
    cases hgen : gen d w with
    | error e w₁ =>
      rw [hgen] at hd
      cases r <;> cases hd
      exact .inl ⟨e, rfl, rfl⟩
    | ok inner w₁ =>
      rw [hgen] at hd
      have hinner : inner.evaluateWith (expansion gen n) w₁ = finished w' r :=
        (congrFun (call_eq gen n inner) w₁).symm.trans hd
      exact .inr ⟨inner, w₁, rfl, comes_of_evaluateWith (ih hinner) hinner⟩

/-- What the rules say is what budgeted calls come to. -/
theorem comes_iff_call {t : Task P σ D} {w w' : σ} {r : Except Fault (Val P)} :
    Comes gen t w r w' ↔ ∃ n, t.call gen n w = finished w' r :=
  ⟨fun h => h.call.exists, fun ⟨_, h⟩ => comes_of_call h⟩

end Calls

theorem comes_done (r : Except Fault (Val P)) : Comes gen (.done r) = Outcomes.ofExcept r := by
  funext w r' w'
  apply propext
  constructor
  · rintro ⟨⟩
    exact ⟨rfl, rfl⟩
  · rintro ⟨rfl, rfl⟩
    exact .done r' w'

theorem comes_bind (t : Task P σ D) (f : Val P → Task P σ D) :
    Comes gen (t.bind f) = (Comes gen t).andThen fun v => Comes gen (f v) := by
  funext w r w'
  apply propext
  constructor
  · intro h
    induction t generalizing w with
    | done r' =>
      cases r' with
      | ok v => exact .inl ⟨v, w, .done _ w, h⟩
      | error e =>
        cases h
        exact .inr ⟨e, .done _ _, rfl⟩
    | perform action next ih =>
      cases h with
      | performs haction hnext =>
        rcases ih _ _ hnext with ⟨u, w₂, hu, hf⟩ | ⟨e, he, rfl⟩
        · exact .inl ⟨u, w₂, .performs haction hu, hf⟩
        · exact .inr ⟨e, .performs haction he, rfl⟩
      | fails haction => exact .inr ⟨_, .fails haction, rfl⟩
    | expand d next ih =>
      cases h with
      | ungenerated hgen => exact .inr ⟨_, .ungenerated hgen, rfl⟩
      | expands hgen hinner hnext =>
        rcases ih _ _ hnext with ⟨u, w₂, hu, hf⟩ | ⟨e, he, rfl⟩
        · exact .inl ⟨u, w₂, .expands hgen hinner hu, hf⟩
        · exact .inr ⟨e, .expands hgen hinner he, rfl⟩
      | expandsFaulty hgen hinner => exact .inr ⟨_, .expandsFaulty hgen hinner, rfl⟩
  · rintro (⟨v, w₁, hv, hf⟩ | ⟨e, he, rfl⟩)
    · generalize hr : (Except.ok v : Except Fault (Val P)) = r₁ at hv
      induction hv with
      | done => cases hr; exact hf
      | performs haction _ ih => exact .performs haction (ih hf hr)
      | expands hgen hinner _ _ ih => exact .expands hgen hinner (ih hf hr)
      | _ => cases hr
    · generalize hr : (Except.error e : Except Fault (Val P)) = r₁ at he ⊢
      induction he with
      | done => cases hr; exact .done _ _
      | performs haction _ ih => exact .performs haction (ih hr)
      | fails haction => exact .fails haction
      | ungenerated hgen => exact .ungenerated hgen
      | expands hgen hinner _ _ ih => exact .expands hgen hinner (ih hr)
      | expandsFaulty hgen hinner => exact .expandsFaulty hgen hinner

theorem comes_map (f : Fun P) (t : Task P σ D) :
    Comes gen (t.map f) = (Comes gen t).andThen fun v => .ofExcept (f v) := by
  simp only [map, comes_bind, comes_done]

theorem comes_handle [Primitives P] (x y : Task P σ D) :
    Comes gen (x.handle y) = (Comes gen x).andThen (Val.byTag
      (fun a => (Comes gen y).andThen fun f => .ofExcept (f.call a))
      (fun b => .ofExcept (.ok b))
      fun v => .ofExcept v.payload?) := by
  rw [handle, comes_bind]
  congr 1
  funext v
  cases v <;> simp only [Val.byTag, comes_bind, comes_done, Val.payload?_right]

end Task

end SelectiveEffects
