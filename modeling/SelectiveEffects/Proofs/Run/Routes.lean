import Mathlib.Data.List.Forall2
import SelectiveEffects.Interpreter.Run
import SelectiveEffects.Proofs.Tree.Routes

/-! Runs do not read routes: of two trees that differ at most in them, step for step, each run does what
the other does. -/

namespace SelectiveEffects

open Machine

namespace Machine

variable {P G σ : Type} {R : G → G → Prop}

inductive Control.Rerouted (R : G → G → Prop) : Control P G → Control P G → Prop
  | tree {t t' : Tree P G} : t.Rerouted R t' → Rerouted R (.tree t) (.tree t')
  | value (v : Val P) : Rerouted R (.value v) (.value v)
  | fault (e : Fault) : Rerouted R (.fault e) (.fault e)
  | effect (e : Effect P) : Rerouted R (.effect e) (.effect e)
  | unknown : Rerouted R .unknown .unknown

inductive Frame.Rerouted (R : G → G → Prop) : Frame P G → Frame P G → Prop
  | apply (k : Post P) : Rerouted R (.apply k) (.apply k)
  | select {h h' : Tree P G} : h.Rerouted R h' → Rerouted R (.select h) (.select h')
  | argument (a : Val P) : Rerouted R (.argument a) (.argument a)
  | unknown : Rerouted R .unknown .unknown

/-- Machines at the same place, with trees to go on with that differ at most in their routes. -/
structure State.Rerouted (R : G → G → Prop) (s s' : State P G) : Prop where
  control : s.control.Rerouted R s'.control
  stack : List.Forall₂ (Frame.Rerouted R) s.stack s'.stack

inductive Step.Rerouted (R : G → G → Prop) : Step P G → Step P G → Prop
  | next {s s' : State P G} : s.Rerouted R s' → Rerouted R (.next s) (.next s')
  | unchanged : Rerouted R .unchanged .unchanged
  | done (v : Val P) : Rerouted R (.done v) (.done v)
  | failed (e : Fault) : Rerouted R (.failed e) (.failed e)

theorem Control.Rerouted.name_eq {c c' : Control P G} (h : c.Rerouted R c') : c.name = c'.name := by
  cases h <;> rfl

variable {K K' : List (Frame P G)}

theorem forall₂_push (k : Post P) (h : List.Forall₂ (Frame.Rerouted R) K K') :
    List.Forall₂ (Frame.Rerouted R) (push k K) (push k K') := by
  cases k with
  | none => exact h
  | some f => exact .cons (.apply _) h

theorem rerouted_ofResult (h : List.Forall₂ (Frame.Rerouted R) K K') (r : Except Fault (Val P)) :
    (ofResult K r).Rerouted R (ofResult K' r) := by
  cases r with
  | ok v => exact ⟨.value v, h⟩
  | error e => exact ⟨.fault e, h⟩

theorem relates_applied (h : List.Forall₂ (Frame.Rerouted R) K K') (r : Except Fault (Val P)) :
    Action.Relates (Step.Rerouted R)
      (do return Step.next (ofResult K (← Action.attemptResult r)) : Action σ (Step P G))
      (do return Step.next (ofResult K' (← Action.attemptResult r))) := by
  refine (Action.relates_of_eq (rfl : Action.attemptResult r = _)).bind fun x y hxy => ?_
  subst hxy
  exact Action.relatesIn_pure (.next (rerouted_ofResult h x))

variable [Primitives P] {gen : G → Action σ (Tree P G)} (hgen : Tree.Reroutes gen R)

include hgen

theorem relates_expandStep {source source' : Source P G} (hs : source.Rerouted R source')
    (k : Post P) (hK : List.Forall₂ (Frame.Rerouted R) K K') :
    Action.Relates (Step.Rerouted R) (expandStep gen source k K) (expandStep gen source' k K') := by
  refine (hs.expand hgen).attempt.bind fun r r' hr => ?_
  cases hr with
  | ok ht => exact Action.relatesIn_pure (.next ⟨.tree ht, forall₂_push k hK⟩)
  | error e => exact Action.relatesIn_pure (.next ⟨.fault e, hK⟩)

/-- Stepping looks at every field of a node but its route. -/
theorem relates_step {s s' : State P G} (h : s.Rerouted R s') :
    Action.Relates (Step.Rerouted R) (step gen s) (step gen s') := by
  obtain ⟨control, K⟩ := s
  obtain ⟨control', K'⟩ := s'
  obtain ⟨hcontrol, hK⟩ := h
  cases hcontrol with
  | tree ht =>
    cases ht with
    | pure v => exact Action.relatesIn_pure (.next ⟨.value v, hK⟩)
    | lifted e k => exact Action.relatesIn_pure (.next ⟨.effect e, .cons (.apply k) hK⟩)
    | selection k route route' hd hh =>
      exact Action.relatesIn_pure (.next ⟨.tree hd, .cons (.select hh) (forall₂_push k hK)⟩)
    | deferred k hg => exact relates_expandStep hgen (.host hg) k hK
    | loop k ha => exact relates_expandStep hgen (.loop ha) k hK
    | foreign typeName => exact Action.relatesIn_pure (.next ⟨.fault _, hK⟩)
    | unknown typeName => exact Action.relatesIn_pure (.next ⟨.fault _, hK⟩)
  | value v =>
    cases hK with
    | nil => exact Action.relatesIn_pure (.done v)
    | cons hframe hK =>
      cases hframe with
      | apply k => exact relates_applied hK (k.apply v)
      | select hh =>
        cases v with
        | left a => exact Action.relatesIn_pure (.next ⟨.tree hh, .cons (.argument a) hK⟩)
        | right b => exact Action.relatesIn_pure (.next ⟨.value b, hK⟩)
        | _ => exact Action.relatesIn_pure (.next ⟨.fault _, hK⟩)
      | argument a => exact relates_applied hK (v.call a)
      | unknown => exact Action.relatesIn_pure .unchanged
  | fault e => exact Action.relatesIn_pure (.failed e)
  | effect e => exact Action.relatesIn_pure .unchanged
  | unknown => exact Action.relatesIn_pure .unchanged

end Machine

namespace Interpreter

variable {P G σ : Type} {R : G → G → Prop}

/-- An effect is answered with a value or a fault, never with a tree. -/
theorem relates_perform (R : G → G → Prop) (I : Interpreter P σ) (mode : Mode) (e : Effect P)
    (p : Progress) :
    Action.Relates (fun x y => Alike (Control.Rerouted R) x.1 y.1 ∧ x.2 = y.2)
      (I.perform mode e p) (I.perform mode e p) := by
  unfold perform
  cases e.label with
  | error f => exact Action.relatesIn_pure ⟨.error f, rfl⟩
  | ok label =>
    cases I.resolve e with
    | none => exact Action.relatesIn_pure ⟨.ok (.fault _), rfl⟩
    | some h =>
      refine (Action.relates_of_eq rfl).bind fun r r' hr => ?_
      subst hr
      cases r with
      | ok reply =>
        cases reply with
        | ok v => exact Action.relatesIn_pure ⟨.ok (.value v), rfl⟩
        | error f => exact Action.relatesIn_pure ⟨.ok (.fault f), rfl⟩
      | error f =>
        simp only
        split
        · exact Action.relatesIn_pure ⟨.error f, rfl⟩
        · exact Action.relatesIn_pure ⟨.ok (.fault f), rfl⟩

variable [Primitives P] {gen : G → Action σ (Tree P G)}

/-- Within any fuel and any limits, the driver does the same from states that differ at most in the
routes of what is left to run. -/
theorem drive_rerouted (hgen : Tree.Reroutes gen R) (I : Interpreter P σ) (mode : Mode) (fuel : Nat)
    {s s' : State P G} (h : s.Rerouted R s') (p : Progress) :
    I.drive gen mode fuel s p = I.drive gen mode fuel s' p := by
  refine Action.Relates.eq ?_
  induction fuel generalizing s s' p with
  | zero => exact Action.relates_of_eq rfl
  | succ fuel ih =>
    simp only [drive]
    cases I.exhausted p with
    | some limit => exact Action.relates_of_eq rfl
    | none =>
      refine (relates_step hgen h).outcome.bind fun r r' hr => ?_
      rw [h.control.name_eq]
      cases hr with
      | error e => exact Action.relates_of_eq rfl
      | ok hr =>
        cases hr with
        | unchanged => exact ih h _
        | done v => exact Action.relates_of_eq rfl
        | failed e => exact Action.relates_of_eq rfl
        | @next s₁ s₁' hs =>
          obtain ⟨control, K⟩ := s₁
          obtain ⟨control', K'⟩ := s₁'
          obtain ⟨hcontrol, hK⟩ := hs
          cases hcontrol with
          | effect e =>
            refine (relates_perform R I mode e _).bind ?_
            rintro ⟨answer, p'⟩ ⟨answer', _⟩ ⟨hanswer, rfl⟩
            cases hanswer with
            | @ok control control' hcontrol =>
              have hnext : State.Rerouted R ⟨control, K⟩ ⟨control', K'⟩ := ⟨hcontrol, hK⟩
              exact ih hnext p'
            | error f => exact Action.relates_of_eq rfl
          | tree ht => exact ih ⟨.tree ht, hK⟩ _
          | value v => exact ih ⟨.value v, hK⟩ _
          | fault e => exact ih ⟨.fault e, hK⟩ _
          | unknown => exact ih ⟨.unknown, hK⟩ _

/-- A run reads no route: its report is the same with others, and so is the world it leaves. -/
theorem run_rerouted (hgen : Tree.Reroutes gen R) (I : Interpreter P σ) (mode : Mode) (fuel : Nat)
    {t t' : Tree P G} (h : t.Rerouted R t') : I.run gen mode fuel t = I.run gen mode fuel t' :=
  drive_rerouted hgen I mode fuel ⟨.tree h, .nil⟩ {}

end Interpreter

end SelectiveEffects
