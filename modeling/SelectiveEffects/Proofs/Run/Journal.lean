import SelectiveEffects.Interpreter.Run
import SelectiveEffects.Tree.Evaluation

/-! Journals: a world with what a run did to it, and direct evaluation that keeps one. -/

namespace SelectiveEffects

/-- A handler was called, a deferred node was forced, or a label could not be read. -/
inductive Event (P G : Type) where
  | called (e : Effect P)
  | forced (source : Source P G)
  | unread (e : Effect P)

namespace Event

variable {P G : Type}

/-- The label that a call leaves in a trace. -/
def label? : Event P G → Option String
  | called e => e.label.toOption
  | _ => none

def isRead : Event P G → Bool
  | unread _ => false
  | _ => true

end Event

/-- Events are oldest first. -/
structure Journal (P G σ : Type) where
  world : σ
  events : List (Event P G) := []

namespace Journal

variable {P G σ α : Type}

def extend (j : Journal P G σ) (events : List (Event P G)) (w : σ) : Journal P G σ :=
  { world := w, events := j.events ++ events }

def labels (j : Journal P G σ) : List String :=
  j.events.filterMap Event.label?

/-- No label was unreadable so far. -/
def legible (j : Journal P G σ) : Bool :=
  j.events.all Event.isRead

/-- Whether a fault ends a run without a result: it escapes, or a label could not be read. -/
def cutBy (j : Journal P G σ) (e : Fault) : Bool :=
  e.escapes || !j.legible

/-- An action on the world that stands for the given events, whether it fails or not. -/
def noting (events : List (Event P G)) (a : Action σ α) : Action (Journal P G σ) α := fun j =>
  match a j.world with
  | .ok v w => .ok v (j.extend events w)
  | .error e w => .error e (j.extend events w)

@[simp] theorem extend_world (j : Journal P G σ) (events : List (Event P G)) (w : σ) :
    (j.extend events w).world = w := rfl

@[simp] theorem labels_extend (j : Journal P G σ) (events : List (Event P G)) (w : σ) :
    (j.extend events w).labels = j.labels ++ events.filterMap Event.label? :=
  List.filterMap_append

@[simp] theorem legible_extend (j : Journal P G σ) (events : List (Event P G)) (w : σ) :
    (j.extend events w).legible = (j.legible && events.all Event.isRead) :=
  List.all_append

@[simp] theorem extend_nil (j : Journal P G σ) : j.extend [] j.world = j := by
  simp [extend]

theorem eq_ok_of_noting {events : List (Event P G)} {a : Action σ α}
    {j j' : Journal P G σ} {v : α}
    (h : (OptionT.lift (noting events a) : Evaluation (Journal P G σ) α) j =
      .ok (some v) j') : ∃ w, a j.world = .ok v w ∧ j' = j.extend events w := by
  rw [Evaluation.lift_apply, noting] at h
  match ha : a j.world, h with
  | .ok u w, h =>
    cases h
    exact ⟨w, rfl, rfl⟩

end Journal

namespace Interpreter

variable {P G σ : Type}

/-- The value of an effect: what its handler comes to. -/
def answer (I : Interpreter P σ) (mode : Mode) (e : Effect P) : Action σ (Val P) :=
  match e.label with
  | .error f => throw f
  | .ok label =>
    match I.resolve e with
    | none => throw e.unhandled
    | some h => do
      let v ← await mode label (← h e)
      Action.ofExcept v

/-- An effect that can be handed over is answered by its handler, awaited where that is done. -/
theorem answer_of_resolve {I : Interpreter P σ} {mode : Mode} {e : Effect P} {label : String}
    {h : Handler P σ} (hlabel : e.label = .ok label) (hresolve : I.resolve e = some h) :
    I.answer mode e = (do await mode label (← h e)) >>= Action.ofExcept := by
  simp only [answer, hlabel, hresolve, bind_assoc]

/-- What performing an effect does: it calls the handler, if there is one and the label can be
read. -/
def calls (I : Interpreter P σ) (e : Effect P) : List (Event P G) :=
  match e.label with
  | .error _ => [.unread e]
  | .ok _ => if (I.resolve e).isSome then [.called e] else []

/-- Direct evaluation with an interpreter's handlers. -/
def evaluate [Primitives P] (I : Interpreter P σ) (gen : G → Action σ (Tree P G)) (mode : Mode) :
    Nat → Tree P G → Evaluation (Journal P G σ) (Val P) :=
  Tree.evaluate (fun source => Journal.noting [.forced source] (source.expand gen))
    fun e => Journal.noting (I.calls e) (I.answer mode e)

section Evaluation

variable [Primitives P] (I : Interpreter P σ) (gen : G → Action σ (Tree P G)) (mode : Mode) (n : Nat)

theorem evaluate_lifted (e : Effect P) (k : Post P) :
    I.evaluate gen mode n (.lifted e k) = (do
      let v ← OptionT.lift (Journal.noting (I.calls e) (I.answer mode e))
      Evaluation.ofExcept (k.apply v)) := by
  rw [evaluate, Tree.evaluate_eq, Tree.evaluateWith]

theorem evaluate_selection (d h : Tree P G) (k : Post P) (route : Route) :
    I.evaluate gen mode n (.selection d h k route) =
      I.evaluate gen mode n d >>= Tree.choose (I.evaluate gen mode n h) k := by
  rw [evaluate, Tree.evaluate_eq, Tree.evaluateWith]

end Evaluation

/-- Only awaiting gives a fault without raising it, and that fault does not escape. -/
theorem escapes_of_await {mode : Mode} {label : String} {reply : Reply P σ} {f : Fault} {w w' : σ}
    (h : await mode label reply w = .ok (.error f) w') : f.escapes = false := by
  cases reply with
  | value v => cases h
  | later action =>
    cases mode with
    | sync => cases h; rfl
    | async =>
      simp only [await, Functor.map, EStateM.map] at h
      cases ha : action w <;> simp [ha] at h

theorem escapes_of_reply {a : Action σ (Reply P σ)} {mode : Mode} {label : String} {f : Fault}
    {w w' : σ} (h : (do await mode label (← a)) w = .ok (.error f) w') : f.escapes = false := by
  rw [Action.bind_apply] at h
  match ha : a w, h with
  | .ok reply w₁, h => exact escapes_of_await h

/-- Handing an effect to its handler comes to its answer. A fault cuts the run short when it
escapes, or when the label could not be read. -/
theorem perform_apply (I : Interpreter P σ) (mode : Mode) (e : Effect P) (p : Progress) (w : σ) :
    ∃ p', p'.steps = p.steps ∧
      p'.recent = ((I.calls (G := G) e).filterMap Event.label?).reverse ++ p.recent ∧
      I.perform (G := G) mode e p w =
        match I.answer mode e w with
        | .ok v w => .ok (.ok (.value v), p') w
        | .error f w =>
          if f.escapes || !(I.calls (G := G) e).all Event.isRead then .ok (.error f, p') w
          else .ok (.ok (.fault f), p') w := by
  unfold perform answer calls
  cases hl : e.label with
  | error f => exact ⟨p, rfl, rfl, by simp [Event.isRead]; rfl⟩
  | ok label =>
    cases hr : I.resolve e with
    | none => exact ⟨noteFailure p e label e.unhandled, rfl, rfl, rfl⟩
    | some h =>
      have hread : ([.called e] : List (Event P G)).all Event.isRead = true := rfl
      have hlabel : ([.called e] : List (Event P G)).filterMap Event.label? = [label] := by
        simp [Event.label?, hl, Except.toOption]
      simp only [Option.isSome_some, if_true, hlabel, hread, Bool.not_true, Bool.or_false,
        List.reverse_singleton, List.singleton_append]
      have hanswer : (do let v ← await mode label (← h e); Action.ofExcept v : Action σ (Val P)) =
          (do await mode label (← h e)) >>= Action.ofExcept := (bind_assoc _ _ _).symm
      have hescapes (f : Fault) (w' : σ)
          (hf : (do await mode label (← h e)) w = .ok (.error f) w') : f.escapes = false :=
        escapes_of_reply hf
      rw [hanswer]
      generalize (do await mode label (← h e) : Action σ (Except Fault (Val P))) = reply
        at hescapes ⊢
      simp only [Action.bind_apply, Action.outcome]
      cases hw : reply w with
      | error f w' =>
        by_cases hf : f.escapes = true
        · exact ⟨p.performing label, rfl, rfl, by simp [hf, Action.pure_apply]⟩
        · exact ⟨noteFailure (p.performing label) e label f, rfl, rfl,
            by simp [hf, Action.pure_apply]⟩
      | ok r w' =>
        cases r with
        | ok v => exact ⟨p.performing label, rfl, rfl, rfl⟩
        | error f =>
          exact ⟨p.performing label, rfl, rfl,
            by simp [hescapes f w' hw, Action.pure_apply, Action.throw_apply]⟩

end Interpreter

end SelectiveEffects
