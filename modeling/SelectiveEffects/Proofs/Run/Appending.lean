import SelectiveEffects.Proofs.Run.Journal

/-! Evaluation does not look at what its journal holds already. -/

namespace SelectiveEffects

variable {P G σ α β : Type}

/-- Adds what an evaluation noted in a new journal to an older one. -/
def Journal.resume (j : Journal P G σ) :
    EStateM.Result Fault (Journal P G σ) α → EStateM.Result Fault (Journal P G σ) α
  | .ok v j' => .ok v (j.extend j'.events j'.world)
  | .error e j' => .error e (j.extend j'.events j'.world)

/-- The events of a journal are only added to. -/
def Evaluation.Appends (x : Evaluation (Journal P G σ) α) : Prop :=
  ∀ j, x j = j.resume (x ⟨j.world, []⟩)

namespace Evaluation

theorem appends_pure (a : α) : (pure a : Evaluation (Journal P G σ) α).Appends :=
  fun j => congrArg (EStateM.Result.ok (some a)) j.extend_nil.symm

theorem appends_failure : (failure : Evaluation (Journal P G σ) α).Appends :=
  fun j => congrArg (EStateM.Result.ok none) j.extend_nil.symm

theorem appends_ofExcept (r : Except Fault α) :
    (ofExcept r : Evaluation (Journal P G σ) α).Appends := by
  cases r with
  | ok a => exact appends_pure a
  | error e => exact fun j => congrArg (EStateM.Result.error e) j.extend_nil.symm

theorem appends_noting (events : List (Event P G)) (a : Action σ α) :
    Appends (P := P) (G := G) (OptionT.lift (Journal.noting events a)) := by
  intro j
  simp only [lift_apply, Journal.noting]
  cases a j.world <;> rfl

theorem Appends.bind {x : Evaluation (Journal P G σ) α} {f : α → Evaluation (Journal P G σ) β}
    (hx : x.Appends) (hf : ∀ a, (f a).Appends) : (x >>= f).Appends := by
  intro j
  rw [bind_apply, bind_apply, hx j]
  cases x ⟨j.world, []⟩ with
  | error e j' => rfl
  | ok v j' =>
    cases v with
    | none => rfl
    | some a =>
      simp only [Journal.resume]
      rw [hf a, hf a j']
      simp only [Journal.extend_world]
      cases f a ⟨j'.world, []⟩ <;> simp [Journal.resume, Journal.extend]

/-- A value comes with the events that an evaluation on its own notes. -/
theorem Appends.eq_ok_iff {x : Evaluation (Journal P G σ) α} (hx : x.Appends)
    {j j' : Journal P G σ} {a : α} :
    x j = .ok (some a) j' ↔
      ∃ j₀, x ⟨j.world, []⟩ = .ok (some a) j₀ ∧ j' = j.extend j₀.events j₀.world := by
  rw [hx j]
  cases x ⟨j.world, []⟩ with
  | error e j₀ => simp [Journal.resume]
  | ok u j₀ =>
    simp only [Journal.resume, EStateM.Result.ok.injEq]
    constructor
    · rintro ⟨rfl, rfl⟩
      exact ⟨j₀, ⟨rfl, rfl⟩, rfl⟩
    · rintro ⟨_, ⟨rfl, rfl⟩, rfl⟩
      exact ⟨rfl, rfl⟩

end Evaluation

namespace Tree

variable [Primitives P]

theorem appends_choose {handler : Evaluation (Journal P G σ) (Val P)} (h : handler.Appends)
    (k : Post P) (v : Val P) : (choose handler k v).Appends := by
  cases v with
  | left a => exact h.bind fun f => Evaluation.appends_ofExcept _
  | right b => exact Evaluation.appends_ofExcept _
  | _ => exact Evaluation.appends_ofExcept _

theorem appends_evaluateWith {events : Effect P → List (Event P G)}
    {perform : Effect P → Action σ (Val P)}
    {deferral : Source P G → Evaluation (Journal P G σ) (Val P)}
    (hd : ∀ source, (deferral source).Appends) (t : Tree P G) :
    (evaluateWith (fun e => Journal.noting (events e) (perform e)) deferral t).Appends := by
  induction t with
  | pure v => exact Evaluation.appends_pure v
  | lifted e k =>
    exact (Evaluation.appends_noting _ _).bind fun v => Evaluation.appends_ofExcept _
  | selection d h k route ihd ihh => exact ihd.bind fun v => appends_choose ihh k v
  | deferred g k => exact (hd (.host g)).bind fun v => Evaluation.appends_ofExcept _
  | loop action k => exact (hd (.loop action)).bind fun v => Evaluation.appends_ofExcept _
  | foreign typeName => exact Evaluation.appends_ofExcept _
  | unknown typeName => exact Evaluation.appends_ofExcept _

end Tree

namespace Interpreter

variable [Primitives P]

theorem appends_evaluate (I : Interpreter P σ) (gen : G → Action σ (Tree P G)) (mode : Mode)
    (n : Nat) (t : Tree P G) : (I.evaluate gen mode n t).Appends := by
  induction n generalizing t with
  | zero =>
    rw [Interpreter.evaluate, Tree.evaluate_eq]
    exact Tree.appends_evaluateWith (fun source => Evaluation.appends_failure) t
  | succ n ih =>
    rw [Interpreter.evaluate, Tree.evaluate_eq]
    refine Tree.appends_evaluateWith (fun source => ?_) t
    exact (Evaluation.appends_noting _ _).bind fun inner => ih inner

end Interpreter

end SelectiveEffects
