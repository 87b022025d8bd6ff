import SelectiveEffects.Proofs.Context.Task
import SelectiveEffects.Proofs.Fold.Worklist
import SelectiveEffects.Proofs.Run.Simulation
import SelectiveEffects.Proofs.Tree.Equations
import SelectiveEffects.Proofs.Tree.WellMade

/-! The task that a tree folds to when deferred nodes are left to the context. -/

namespace SelectiveEffects

namespace Tree

variable {P G σ : Type} [Primitives P]

/-- The task of a tree. It performs and expands nothing before it is called. -/
def toTask (perform : Effect P → Action σ (Val P)) : Tree P G → Task P σ (Deferral P G)
  | pure v => .done (.ok v)
  | lifted e k => (Task.ofAction (perform e)).map k.apply
  | selection d h k _ => ((d.toTask perform).handle (h.toTask perform)).map k.apply
  | deferred g k => .ofDeferred ⟨.host g, k⟩
  | loop action k => .ofDeferred ⟨.loop action, k⟩
  | foreign typeName => .done (.error (.notFoldable typeName))
  | unknown typeName => .done (.error (.notFoldable typeName))

end Tree

namespace Folding

variable {P G σ : Type} [Primitives P]

/-- Folding into tasks that perform effects when they are called. -/
def intoTasks (again : Task P σ (Deferral P G) → Deferral P G)
    (perform : Effect P → Action σ (Val P)) (gen : G → Action σ (Tree P G)) :
    Folding σ P G (Deferral P G) (Task P σ (Deferral P G)) :=
  into (Context.task again).toContext (fun e => return .ofAction (perform e)) gen id

variable {again : Task P σ (Deferral P G) → Deferral P G}
  {perform : Effect P → Action σ (Val P)} {gen : G → Action σ (Tree P G)}

theorem toTask_ofSource (source : Source P G) (k : Post P) :
    (Tree.ofSource source k).toTask perform = .ofDeferred ⟨source, k⟩ := by
  cases source <;> rfl

theorem foldLazily_intoTasks {t : Tree P G} (ht : t.Legible) :
    (intoTasks again perform gen).foldLazily t = pure (t.toTask perform) := by
  unfold foldLazily
  induction t with
  | selection d h k route ihd ihh =>
    rw [foldWith, ihd ht.1, ihh ht.2]
    rfl
  | foreign typeName => exact ht.elim
  | unknown typeName => exact ht.elim
  | _ => rfl

end Folding

namespace Source

variable {P G σ : Type} [Primitives P]

theorem legible_of_expand {gen : G → Action σ (Tree P G)}
    (hgen : ∀ g w t w', gen g w = .ok t w' → t.Legible) {source : Source P G} {k : Post P}
    (hs : (Tree.ofSource source k).Legible) {w w' : σ} {t : Tree P G}
    (h : source.expand gen w = .ok t w') : t.Legible := by
  cases source with
  | host g => exact hgen g w t w' (expand_host_eq_ok_iff.mp h).1
  | loop action =>
    obtain ⟨hwhen, -⟩ := expand_loop_eq_ok_iff.mp h
    have haction : action.Legible := hs.2
    have hloop : (Tree.loop action none).Legible := hs
    exact Tree.every_whenS haction hloop hwhen

end Source

namespace Folding

variable {P G σ : Type} [Primitives P] {again : Task P σ (Deferral P G) → Deferral P G}
  {perform : Effect P → Action σ (Val P)} {gen : G → Action σ (Tree P G)}

/-- Forcing a deferred computation folds what the node generates and calls that. -/
theorem expansion_unfold (hgen : ∀ g w t w', gen g w = .ok t w' → t.Legible)
    {source : Source P G} {k : Post P} (hs : (Tree.ofSource source k).Legible) (n : Nat) :
    Task.expansion (intoTasks again perform gen).unfold (n + 1) ⟨source, k⟩ = (do
      let inner ← OptionT.lift (source.expand gen)
      let v ← (inner.toTask perform).evaluateWith
        (Task.expansion (intoTasks again perform gen).unfold n)
      Evaluation.ofExcept (k.apply v)) := by
  funext w
  rw [Task.expansion, unfold, Evaluation.bind_apply, Evaluation.lift_apply, bind_assoc,
    Action.bind_apply]
  have hexpand : (intoTasks again perform gen).gen = gen := rfl
  rw [hexpand]
  cases hx : source.expand gen w with
  | error e w' => rfl
  | ok inner w' =>
    simp only [foldLazily_intoTasks (Source.legible_of_expand hgen hs hx), pure_bind]
    rw [← Task.evaluateWith_map, ← Task.call_eq]
    rfl

end Folding

namespace Task

variable {P D σ : Type} [Primitives P]

/-- Only an untagged value tells the handling of tasks from the choice of a selection. -/
theorem handled_of_isTagged {v : Val P} (hv : v.IsTagged) (handler : Evaluation σ (Val P))
    (k : Post P) :
    (handled handler v >>= fun u => Evaluation.ofExcept (k.apply u)) = Tree.choose handler k v := by
  obtain ⟨a, rfl⟩ | ⟨b, rfl⟩ := hv
  · simp only [handled, Tree.choose, LawfulMonad.bind_assoc, Evaluation.ofExcept_bind]
  · simp only [handled, Tree.choose, Val.payload?_right, Evaluation.ofExcept_ok, pure_bind]

/-- A value without a tag is asked for its payload. -/
theorem handled_untagged {v : Val P} (hv : ¬ v.IsTagged) (handler : Evaluation σ (Val P)) :
    handled handler v = Evaluation.ofExcept v.payload? := by
  cases v with
  | left a => exact absurd (.inl ⟨a, rfl⟩) hv
  | _ => rfl

end Task

end SelectiveEffects
