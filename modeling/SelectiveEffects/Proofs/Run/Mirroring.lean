import SelectiveEffects.Proofs.Fold.Tasks
import SelectiveEffects.Proofs.Run.Refinement

/-! Evaluating a tree and calling the task it folds to are the same computation, up to what becomes of
disjunctions without a tag. -/

namespace SelectiveEffects

open Machine

/-- An evaluation with a journal came to what another came to without one, where the faults of both
may differ so far. Every label could be read. -/
inductive MirrorsUpTo (R : Fault → Fault → Prop) {P G σ α : Type} :
    EStateM.Result Fault (Journal P G σ) α → EStateM.Result Fault σ α → Prop
  | ok (a : α) {j : Journal P G σ} : j.legible = true → MirrorsUpTo R (.ok a j) (.ok a j.world)
  | error {e e' : Fault} {j : Journal P G σ} :
      R e e' → j.legible = true → MirrorsUpTo R (.error e j) (.error e' j.world)

namespace MirrorsUpTo

variable {R : Fault → Fault → Prop} {P G σ α β : Type}

theorem ofExcept (hR : ∀ e, R e e) (r : Except Fault α) {j : Journal P G σ}
    (hj : j.legible = true) :
    MirrorsUpTo R (Evaluation.ofExcept r j) (Evaluation.ofExcept r j.world) := by
  cases r with
  | ok a => exact .ok (some a) hj
  | error e => exact .error (hR e) hj

theorem noting (hR : ∀ e, R e e) {events : List (Event P G)}
    (hevents : events.all Event.isRead = true) (a : Action σ α) {j : Journal P G σ}
    (hj : j.legible = true) :
    MirrorsUpTo R (OptionT.lift (Journal.noting events a) j : EStateM.Result _ _ (Option α))
      ((OptionT.lift a : Evaluation σ α) j.world) := by
  rw [Evaluation.lift_apply, Evaluation.lift_apply, Journal.noting]
  have hextend (w : σ) : (j.extend events w).legible = true := by simp [hj, hevents]
  cases a j.world with
  | ok v w => exact .ok (some v) (hextend w)
  | error e w => exact .error (hR e) (hextend w)

theorem bind {x : Evaluation (Journal P G σ) α} {y : Evaluation σ α}
    {f : α → Evaluation (Journal P G σ) β} {g : α → Evaluation σ β} {j : Journal P G σ}
    (hx : MirrorsUpTo R (x j) (y j.world))
    (hf : ∀ a j', x j = .ok (some a) j' → j'.legible = true →
      MirrorsUpTo R (f a j') (g a j'.world)) :
    MirrorsUpTo R ((x >>= f) j) ((y >>= g) j.world) := by
  rw [Evaluation.bind_apply, Evaluation.bind_apply]
  generalize hr : x j = r at hx
  generalize y j.world = r' at hx
  cases hx with
  | ok a hj' =>
    cases a with
    | none => exact .ok none hj'
    | some a => exact hf a _ hr hj'
  | error he hj' => exact .error he hj'

end MirrorsUpTo

/-- A handler that answers at once. -/
def Handler.returning {P σ : Type} (perform : Effect P → Action σ (Val P)) : Handler P σ :=
  fun e => Reply.value <$> perform e

namespace Interpreter

variable {P G σ : Type} [Primitives P]

/-- Every disjunction that a run comes to from here yields a value with the given property. -/
def DisjunctionsAlong (I : Interpreter P σ) (gen : G → Action σ (Tree P G)) (mode : Mode)
    (p : Val P → Prop) (c : Config P G σ) : Prop :=
  ∀ m v h K j l, I.Trail gen mode (fun _ => True) m c ⟨⟨.value v, .select h :: K⟩, j, l⟩ → p v

variable {I : Interpreter P σ} {gen : G → Action σ (Tree P G)} {mode : Mode} {p : Val P → Prop}

theorem DisjunctionsAlong.of_trail {C : Config P G σ → Prop} {m : Nat} {c c' : Config P G σ}
    (h : I.DisjunctionsAlong gen mode p c) (ht : I.Trail gen mode C m c c') :
    I.DisjunctionsAlong gen mode p c' :=
  fun _ v t K j l ht' => h _ v t K j l ((ht.mono fun _ _ => trivial).trans ht')

theorem DisjunctionsAlong.of_move {c c' : Config P G σ} (h : I.DisjunctionsAlong gen mode p c)
    (hm : I.move gen mode c = .on c') : I.DisjunctionsAlong gen mode p c' :=
  h.of_trail (.step (C := fun _ => True) trivial hm (.refl c'))

/-- It is enough that the disjunction has the property here, if one is evaluated, and in the run that
goes on from the next move. -/
theorem disjunctionsAlong_of_next {c : Config P G σ}
    (hc : ∀ v h K, c.state = ⟨.value v, .select h :: K⟩ → p v)
    (hnext : ∀ c', I.move gen mode c = .on c' → I.DisjunctionsAlong gen mode p c') :
    I.DisjunctionsAlong gen mode p c := by
  intro m v h K j l ht
  cases ht with
  | refl => exact hc v h K rfl
  | step _ hm ht => exact hnext _ hm _ v h K j l ht

theorem disjunctionsAlong_of_move {c c' : Config P G σ}
    (hc : ∀ v h K, c.state = ⟨.value v, .select h :: K⟩ → p v)
    (hm : I.move gen mode c = .on c') (h : I.DisjunctionsAlong gen mode p c') :
    I.DisjunctionsAlong gen mode p c :=
  disjunctionsAlong_of_next hc fun c₁ hm₁ => by
    rw [hm] at hm₁
    cases hm₁
    exact h

/-- Tasks refuse what the property allows beyond tags, with a fault that stands for the machine's. -/
def RefusesUntagged (R : Fault → Fault → Prop) (p : Val P → Prop) : Prop :=
  ∀ v, p v → v.IsTagged ∨ ∃ e, v.payload? = .error e ∧ R (.untaggedDisjunction v.typeName) e

section Tasks

variable {R : Fault → Fault → Prop} (hR : ∀ e, R e e) (hp : RefusesUntagged R p)
variable {perform : Effect P → Action σ (Val P)}
  (hI : ∀ e, I.resolve e = some (.returning perform))

include hI

omit [Primitives P] in
theorem answer_of_returning {e : Effect P} {label : String} (hlabel : e.label = .ok label) :
    I.answer mode e = perform e := by
  simp only [answer, hlabel, hI, Handler.returning, map_eq_pure_bind, bind_assoc, pure_bind, await,
    Action.ofExcept_ok, bind_pure]

omit [Primitives P] in
theorem calls_of_returning {e : Effect P} {label : String} (hlabel : e.label = .ok label) :
    I.calls (G := G) e = [.called e] := by
  simp [calls, hlabel, hI]

include hR hp

variable {again : Task P σ (Deferral P G) → Deferral P G} {n : Nat}

/-- A call mirrors the evaluation of a tree when it does so for the deferred nodes in it. The
machine's trail from the tree is what tells which disjunctions are evaluated. -/
theorem mirrorsUpTo_of_deferred
    (hdeferred : ∀ source k (K : List (Frame P G)) (j : Journal P G σ) (l : Levels),
      (Tree.ofSource source k).Legible → j.legible = true →
      I.DisjunctionsAlong gen mode p ⟨⟨.tree (.ofSource source k), K⟩, j, l⟩ →
      MirrorsUpTo R (I.evaluate gen mode n (.ofSource source k) j)
        (((Tree.ofSource source k).toTask perform).call
          (Folding.intoTasks again perform gen).unfold n j.world))
    (t : Tree P G) (K : List (Frame P G)) (j : Journal P G σ) (l : Levels) (ht : t.Legible)
    (hj : j.legible = true) (halong : I.DisjunctionsAlong gen mode p ⟨⟨.tree t, K⟩, j, l⟩) :
    MirrorsUpTo R (I.evaluate gen mode n t j)
      ((t.toTask perform).call (Folding.intoTasks again perform gen).unfold n j.world) := by
  induction t generalizing K j l with
  | pure v =>
    rw [evaluate, Tree.evaluate_eq, Task.call_eq, Tree.toTask, Task.evaluateWith_done]
    exact .ok (some v) hj
  | lifted e k =>
    obtain ⟨label, hlabel⟩ := ht
    rw [evaluate_lifted, Task.call_eq, Tree.toTask, Task.evaluateWith_map,
      Task.evaluateWith_ofAction, answer_of_returning hI hlabel, calls_of_returning hI hlabel]
    exact (MirrorsUpTo.noting hR rfl (perform e) hj).bind fun v j' _ hj' =>
      MirrorsUpTo.ofExcept hR (k.apply v) hj'
  | selection d h k route ihd ihh =>
    have hd := halong.of_move (I.move_selection gen mode j l K d h k route)
    have hfollows := evaluate_follows I gen mode n d (.select h :: push k K) j
      ⟨l.here, l.here :: l.push k⟩ hj
    rw [evaluate_selection, Task.call_eq, Tree.toTask, Task.evaluateWith_map,
      Task.evaluateWith_handle, bind_assoc, ← Task.call_eq, ← Task.call_eq]
    refine (ihd _ j _ ht.1 hj hd).bind fun v j' hv hj' => ?_
    rw [hv] at hfollows
    -- The run of the disjunction comes to its value on the frame of the selection.
    obtain ⟨-, m, here, htrail⟩ := hfollows
    have hv' : p v := hd m v h (push k K) j' _ (htrail.mono fun _ _ => trivial)
    by_cases htagged : v.IsTagged
    · rw [Task.handled_of_isTagged htagged]
      obtain ⟨a, rfl⟩ | ⟨b, rfl⟩ := htagged
      · have hh := (hd.of_trail htrail).of_move
          (I.move_left gen mode j' ⟨here, l.here :: l.push k⟩ (push k K) a h)
        exact (ihh _ j' _ ht.2 hj' hh).bind fun f j'' _ hj'' =>
          MirrorsUpTo.ofExcept hR (f.call a >>= k.apply) hj''
      · exact MirrorsUpTo.ofExcept hR (k.apply b) hj'
    · obtain ⟨e, hrefused, he⟩ := (hp v hv').resolve_left htagged
      obtain ⟨hl, hr⟩ := Val.ne_tag_of_not_isTagged htagged
      rw [Tree.choose_untagged hl hr, Task.handled_untagged htagged, hrefused]
      exact .error he hj'
  | deferred g k => exact hdeferred (.host g) k K j l ht hj halong
  | loop action k => exact hdeferred (.loop action) k K j l ht hj halong
  | foreign typeName => exact ht.elim
  | unknown typeName => exact ht.elim

/-- Calling the task of a tree mirrors the evaluation of the tree, to the same depth. -/
theorem mirrorsUpTo_call (hgen : ∀ g w t w', gen g w = .ok t w' → t.Legible) (n : Nat)
    (t : Tree P G) (K : List (Frame P G)) (j : Journal P G σ) (l : Levels) (ht : t.Legible)
    (hj : j.legible = true) (halong : I.DisjunctionsAlong gen mode p ⟨⟨.tree t, K⟩, j, l⟩) :
    MirrorsUpTo R (I.evaluate gen mode n t j)
      ((t.toTask perform).call (Folding.intoTasks again perform gen).unfold n j.world) := by
  induction n generalizing t K j l with
  | zero =>
    refine mirrorsUpTo_of_deferred hR hp hI (fun source k K j l _ hj _ => ?_) t K j l ht hj halong
    rw [evaluate_ofSource, Folding.toTask_ofSource, Task.call_eq, Task.evaluateWith_ofDeferred]
    exact .ok none hj
  | succ n ih =>
    refine mirrorsUpTo_of_deferred hR hp hI (fun source k K j l hs hj halong => ?_) t K j l ht hj
      halong
    rw [evaluate_ofSource, Folding.toTask_ofSource, Task.call_eq, Task.evaluateWith_ofDeferred,
      Folding.expansion_unfold hgen hs, Tree.expansion, bind_assoc]
    refine (MirrorsUpTo.noting hR rfl (source.expand gen) hj).bind fun inner j' hinner hj' => ?_
    obtain ⟨w, hexpand, rfl⟩ := Journal.eq_ok_of_noting hinner
    have hmove := I.move_ofSource gen mode j l K source k
    rw [hexpand] at hmove
    have hbody := ih inner (push k K) _ _ (Source.legible_of_expand hgen hs hexpand) hj'
      (halong.of_move hmove)
    rw [Task.call_eq] at hbody
    exact hbody.bind fun v j'' _ hj'' => MirrorsUpTo.ofExcept hR (k.apply v) hj''

end Tasks

end Interpreter

end SelectiveEffects
