import SelectiveEffects.Context.Task
import SelectiveEffects.Tree.Evaluation

/-! Calling a task that the operations of the task context made calls the tasks it was made of. -/

namespace SelectiveEffects.Task

variable {P σ D : Type}

/-- A call as an evaluation: it has no value when the budget of a deferred computation ran out. -/
def evaluateWith (force : D → Evaluation σ (Val P)) (t : Task P σ D) : Evaluation σ (Val P) :=
  t.callWith force

/-- The value of a deferred computation, expanded once. -/
def expansion (gen : D → Action σ (Task P σ D)) : Nat → D → Evaluation σ (Val P)
  | 0, _ => failure
  | n + 1, d => (gen d >>= fun inner => inner.call gen n : Action σ (Option (Val P)))

theorem call_eq (gen : D → Action σ (Task P σ D)) (n : Nat) (t : Task P σ D) :
    t.call gen n = t.evaluateWith (expansion gen n) := by
  cases n <;> rfl

variable {force : D → Evaluation σ (Val P)}

theorem evaluateWith_done (r : Except Fault (Val P)) :
    (done r : Task P σ D).evaluateWith force = Evaluation.ofExcept r := by
  cases r <;> rfl

theorem evaluateWith_perform (action : Action σ (Val P)) (next : Val P → Task P σ D) :
    (perform action next).evaluateWith force =
      OptionT.lift action >>= fun v => (next v).evaluateWith force := by
  funext s
  rw [Evaluation.bind_apply, Evaluation.lift_apply, evaluateWith, callWith, Action.bind_apply]
  cases action s <;> rfl

theorem evaluateWith_expand (d : D) (next : Val P → Task P σ D) :
    (expand d next).evaluateWith force = force d >>= fun v => (next v).evaluateWith force := by
  funext s
  rw [Evaluation.bind_apply, evaluateWith, callWith, Action.bind_apply]
  cases force d s with
  | ok v s' => cases v <;> rfl
  | error e s' => rfl

theorem evaluateWith_bind (t : Task P σ D) (f : Val P → Task P σ D) :
    (t.bind f).evaluateWith force = t.evaluateWith force >>= fun v => (f v).evaluateWith force := by
  induction t with
  | done r =>
    cases r with
    | ok v => simp only [bind, evaluateWith_done, Evaluation.ofExcept_ok, pure_bind]
    | error e => rfl
  | perform action next ih =>
    simp only [bind, evaluateWith_perform, ih, LawfulMonad.bind_assoc]
  | expand d next ih =>
    simp only [bind, evaluateWith_expand, ih, LawfulMonad.bind_assoc]

theorem evaluateWith_ofAction (action : Action σ (Val P)) :
    (ofAction action : Task P σ D).evaluateWith force = OptionT.lift action := by
  simp [ofAction, evaluateWith_perform, evaluateWith_done]

theorem evaluateWith_ofDeferred (d : D) :
    (ofDeferred d : Task P σ D).evaluateWith force = force d := by
  simp [ofDeferred, evaluateWith_expand, evaluateWith_done]

theorem evaluateWith_map (f : Fun P) (t : Task P σ D) :
    (t.map f).evaluateWith force =
      t.evaluateWith force >>= fun v => Evaluation.ofExcept (f v) := by
  simp only [map, evaluateWith_bind, evaluateWith_done]

variable [Primitives P]

/-- What becomes of a tagged value: the handler is called for a left tag only. -/
def handled (handler : Evaluation σ (Val P)) : Val P → Evaluation σ (Val P)
  | .left a => handler >>= fun f => Evaluation.ofExcept (f.call a)
  | v => Evaluation.ofExcept v.payload?

theorem evaluateWith_handle (x y : Task P σ D) :
    (x.handle y).evaluateWith force =
      x.evaluateWith force >>= handled (y.evaluateWith force) := by
  rw [handle, evaluateWith_bind]
  refine bind_congr fun v => ?_
  cases v with
  | left a => simp only [evaluateWith_bind, evaluateWith_done, handled]
  | _ => exact evaluateWith_done _

end SelectiveEffects.Task
