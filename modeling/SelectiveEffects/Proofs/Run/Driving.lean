import SelectiveEffects.Proofs.Run.Refinement

/-! The fuelled driver makes the moves of a trail, one for each unit of fuel. -/

namespace SelectiveEffects

open Machine

namespace Journal

variable {P G σ : Type}

/-- The labels performed last, oldest first; all of them without a bound. -/
def trace (j : Journal P G σ) (bound : Option Nat) : List String :=
  ({ recent := j.labels.reverse } : Progress).trace bound

@[simp] theorem trace_none (j : Journal P G σ) : j.trace none = j.labels := by
  simp [trace, Progress.trace]

end Journal

/-- The progress of a run has the labels that its journal has. -/
def Progress.Tells {P G σ : Type} (p : Progress) (j : Journal P G σ) : Prop :=
  p.recent = j.labels.reverse

theorem Progress.Tells.trace_eq {P G σ : Type} {p : Progress} {j : Journal P G σ} (h : p.Tells j)
    (bound : Option Nat) : p.trace bound = j.trace bound := by
  cases bound <;> simp only [Progress.trace, Journal.trace] <;> rw [h]

theorem Progress.Tells.trace_none {P G σ : Type} {p : Progress} {j : Journal P G σ}
    (h : p.Tells j) : p.trace none = j.labels := by
  rw [h.trace_eq, Journal.trace_none]

namespace Interpreter

variable {P G σ : Type} [Primitives P]

omit [Primitives P] in
theorem exhausted_eq_none {I : Interpreter P σ} {p : Progress} :
    I.exhausted p = none ↔ ∀ limit, I.maxSteps = some limit → p.steps < limit := by
  cases hm : I.maxSteps with
  | none => simp [exhausted, hm]
  | some limit => simp [exhausted, hm, Option.filter_eq_none_iff]

/-- What the driver makes of a move, with the fuel and the progress that are left after it. -/
def settle (I : Interpreter P σ) (gen : G → Action σ (Tree P G)) (mode : Mode) (fuel : Nat)
    (p : Progress) : Move P G σ → EStateM.Result Fault σ (Option (RunReport P))
  | .on c => I.drive gen mode fuel c.state p c.journal.world
  | .done v j => .ok (some (I.finish p (.ok v))) j.world
  | .failed e j => .ok (some (I.failed p e)) j.world
  | .cut e j => .ok (some (aborted p e)) j.world

private theorem expandStep_ne_effect {gen : G → Action σ (Tree P G)} {source : Source P G}
    {k : Post P} {K stack : List (Frame P G)} {e : Effect P} {w w' : σ} :
    expandStep gen source k K w ≠ .ok (.next ⟨.effect e, stack⟩) w' := by
  intro h
  simp only [expandStep, Action.attempt, Action.bind_apply] at h
  cases hx : source.expand gen w with
  | ok t w₁ => simp [hx, Action.pure_apply] at h
  | error f w₁ => cases hf : f.escapes <;> simp [hx, hf, Action.pure_apply] at h

omit [Primitives P] in
private theorem ofResult_ne_effect {r : Except Fault (Val P)} {K stack : List (Frame P G)}
    {e : Effect P} {w w' : σ} :
    (do return .next (ofResult K (← Action.attemptResult r)) : Action σ (Step P G)) w ≠
      .ok (.next ⟨.effect e, stack⟩) w' := by
  intro h
  cases r with
  | ok v => cases h
  | error f =>
    simp only [Action.attemptResult] at h
    cases hf : f.escapes <;> rw [hf] at h <;> cases h

/-- The machine yields no effect but that of a lifted node. -/
theorem lifted_of_step_effect {gen : G → Action σ (Tree P G)} {s : State P G} {e : Effect P}
    {stack : List (Frame P G)} {w w' : σ}
    (h : Machine.step gen s w = .ok (.next ⟨.effect e, stack⟩) w') :
    ∃ k, s.control = .tree (.lifted e k) := by
  obtain ⟨control, K⟩ := s
  cases control with
  | tree t =>
    cases t with
    | lifted e' k =>
      cases h
      exact ⟨k, rfl⟩
    | deferred g k => exact absurd h expandStep_ne_effect
    | loop action k => exact absurd h expandStep_ne_effect
    | _ => cases h
  | value v =>
    cases K with
    | nil => cases h
    | cons frame K =>
      cases frame with
      | apply k => exact absurd h ofResult_ne_effect
      | argument a => exact absurd h ofResult_ne_effect
      | select t => cases v <;> cases h
      | unknown => cases h
  | _ => cases h

omit [Primitives P] in
/-- Only handing an effect to its handler leaves a label. -/
theorem labels_acts {I : Interpreter P σ} {s : State P G}
    (h : ∀ e k, s.control ≠ .tree (.lifted e k)) : (I.acts s).filterMap Event.label? = [] := by
  obtain ⟨control, K⟩ := s
  cases control with
  | tree t =>
    cases t with
    | lifted e k => exact absurd rfl (h e k)
    | _ => rfl
  | _ => rfl

private theorem drive_lifted (I : Interpreter P σ) (gen : G → Action σ (Tree P G)) (mode : Mode)
    (e : Effect P) (k : Post P) (K : List (Frame P G)) (j : Journal P G σ) (l : Levels)
    (p : Progress) (hp : I.exhausted p = none) (ht : p.Tells j) :
    ∃ p', p'.steps = p.steps + 1 ∧
      p'.Tells (I.move gen mode ⟨⟨.tree (.lifted e k), K⟩, j, l⟩).journal ∧
      ∀ fuel, I.drive gen mode (fuel + 1) ⟨.tree (.lifted e k), K⟩ p j.world =
        I.settle gen mode fuel p' (I.move gen mode ⟨⟨.tree (.lifted e k), K⟩, j, l⟩) := by
  obtain ⟨p', hsteps, hrecent, hperform⟩ :=
    I.perform_apply (G := G) mode e (p.stepped I.debug "TreeControl") j.world
  refine ⟨p', by simp [hsteps], ?_, fun fuel => ?_⟩
  · have htold (w : σ) : p'.Tells (j.extend (I.calls (G := G) e) w) := by
      simp only [Progress.Tells, hrecent, Progress.stepped_recent, Journal.labels_extend,
        List.reverse_append]
      rw [ht]
    rw [move_lifted]
    cases I.answer mode e j.world with
    | ok v w => exact htold w
    | error f w => dsimp only; split <;> exact htold w
  · have hstep : Machine.step gen ⟨.tree (.lifted e k), K⟩ j.world =
        .ok (.next ⟨.effect e, .apply k :: K⟩) j.world := rfl
    rw [move_lifted]
    simp only [drive, hp, Action.outcome, Action.bind_apply, hstep]
    rw [Control.name, hperform]
    cases I.answer mode e j.world with
    | ok v w => rfl
    | error f w =>
      by_cases hcut : (f.escapes || !(I.calls (G := G) e).all Event.isRead) = true
      · simp only [if_pos hcut]
        rfl
      · simp only [if_neg hcut]
        rfl

/-- The driver makes one move, when it has fuel and steps left for it. -/
theorem drive_succ (I : Interpreter P σ) (gen : G → Action σ (Tree P G)) (mode : Mode)
    (c : Config P G σ) (p : Progress) (hp : I.exhausted p = none) (ht : p.Tells c.journal) :
    ∃ p', p'.steps = p.steps + 1 ∧ p'.Tells (I.move gen mode c).journal ∧
      ∀ fuel, I.drive gen mode (fuel + 1) c.state p c.journal.world =
        I.settle gen mode fuel p' (I.move gen mode c) := by
  by_cases hl : ∃ e k, c.state.control = .tree (.lifted e k)
  · obtain ⟨⟨control, K⟩, j, l⟩ := c
    obtain ⟨e, k, rfl⟩ := hl
    exact drive_lifted I gen mode e k K j l p hp ht
  · have hlabels := labels_acts (I := I) fun e k h => hl ⟨e, k, h⟩
    have htold (w : σ) : p.Tells (c.journal.extend (I.acts c.state) w) := by
      simpa [Progress.Tells, hlabels] using ht
    cases hs : Machine.step gen c.state c.journal.world with
    | error e w =>
      refine ⟨{ p with steps := p.steps + 1 }, rfl, ?_, fun fuel => ?_⟩
      · simp only [move, hs]
        exact htold w
      · simp only [drive, hp, Action.outcome, Action.bind_apply, hs, move]
        rfl
    | ok r w =>
      refine ⟨p.stepped I.debug c.state.control.name, p.stepped_steps _ _, ?_, fun fuel => ?_⟩
      · have htold' : (p.stepped I.debug c.state.control.name).Tells
            (c.journal.extend (I.acts c.state) w) := by
          simpa [Progress.Tells] using htold w
        simp only [move, hs]
        cases r with
        | next s =>
          obtain ⟨control, K⟩ := s
          cases control with
          | effect e =>
            obtain ⟨k, hk⟩ := lifted_of_step_effect hs
            exact absurd ⟨e, k, hk⟩ hl
          | _ => exact htold'
        | _ => exact htold'
      · simp only [drive, hp, Action.outcome, Action.bind_apply, hs, move]
        cases r with
        | next s =>
          obtain ⟨control, K⟩ := s
          cases control with
          | effect e =>
            obtain ⟨k, hk⟩ := lifted_of_step_effect hs
            exact absurd ⟨e, k, hk⟩ hl
          | _ => rfl
        | _ => rfl

/-- Interpreters that perform alike the effects that a run comes to drive alike, as long as their
limits agree. -/
theorem drive_congr_along {I I' : Interpreter P σ} {gen : G → Action σ (Tree P G)}
    {mode mode' : Mode} (htrace : I'.maxTrace = I.maxTrace) (hdebug : I'.debug = I.debug)
    {fuel : Nat} {c : Config P G σ} {p : Progress}
    (hperform : ∀ m c' e k, I.Trail gen mode (fun _ => True) m c c' →
      (∀ limit, I.maxSteps = some limit → p.steps + m < limit) →
      c'.state.control = .tree (.lifted e k) →
      ∀ q, I'.perform (G := G) mode' e q = I.perform mode e q)
    (hlive : ∀ q : Progress, q.steps < p.steps + fuel → I'.exhausted q = I.exhausted q) :
    I'.drive gen mode' fuel c.state p c.journal.world =
      I.drive gen mode fuel c.state p c.journal.world := by
  have hfinish (q : Progress) (r : Except Fault (Val P)) : I'.finish q r = I.finish q r := by
    rw [finish, finish, htrace]
  -- Limits need to agree only on the steps that the fuel can reach.
  induction fuel generalizing c p with
  | zero => rfl
  | succ fuel ih =>
    have hrest {b : Config P G σ} {q : Progress} (hmove : I.move gen mode c = .on b)
        (hq : q.steps = p.steps + 1) :
        I'.drive gen mode' fuel b.state q b.journal.world =
          I.drive gen mode fuel b.state q b.journal.world := by
      refine ih (fun m c' e k htrail hlimit => ?_) fun q' hq' => hlive q' (by omega)
      refine hperform (m + 1) c' e k (.step trivial hmove htrail) fun limit hmax => ?_
      have hlt := hlimit limit hmax
      omega
    simp only [drive, hlive p (by omega), hdebug, hfinish, failed]
    cases hexhausted : I.exhausted p with
    | some limit => rfl
    | none =>
      simp only [Action.bind_apply, Action.outcome]
      cases hs : Machine.step gen c.state c.journal.world with
      | error e w' => rfl
      | ok r w' =>
        cases r with
        | next s' =>
          obtain ⟨control, K⟩ := s'
          cases control with
          | effect e =>
            obtain ⟨k, hk⟩ := lifted_of_step_effect hs
            obtain ⟨p', hp', -, hperformed⟩ :=
              I.perform_apply (G := G) mode e (p.stepped I.debug c.state.control.name) w'
            obtain ⟨_, _, _, hmoved⟩ := I.perform_apply (G := G) mode e {} w'
            have hsteps : p'.steps = p.steps + 1 := by rw [hp', Progress.stepped_steps]
            dsimp only
            rw [hperform 0 c e k (.refl c) (exhausted_eq_none.mp hexhausted) hk]
            simp only [Action.bind_apply, hperformed]
            cases ha : I.answer mode e w' with
            | ok v w'' =>
              refine hrest (b := ⟨⟨.value v, K⟩, c.journal.extend (I.acts c.state) w'',
                c.levels.after c.state⟩) ?_ hsteps
              simp only [move, hs, hmoved, ha]
            | error f w'' =>
              by_cases hcut : (f.escapes || !(I.calls (G := G) e).all Event.isRead) = true
              · simp only [if_pos hcut]
              · simp only [if_neg hcut]
                refine hrest (b := ⟨⟨.fault f, K⟩, c.journal.extend (I.acts c.state) w'',
                  c.levels.after c.state⟩) ?_ hsteps
                simp only [move, hs, hmoved, ha, if_neg hcut]
          | _ =>
            refine hrest (b := ⟨⟨_, K⟩, c.journal.extend (I.acts c.state) w',
              c.levels.after c.state⟩) ?_ (p.stepped_steps _ _)
            simp only [move, hs]
        | unchanged =>
          refine hrest (b := { c with journal := c.journal.extend (I.acts c.state) w' }) ?_
            (p.stepped_steps _ _)
          simp only [move, hs]
        | _ => rfl

/-- Interpreters that perform effects alike drive alike, as long as their limits agree. -/
theorem drive_congr {I I' : Interpreter P σ} {gen : G → Action σ (Tree P G)} {mode mode' : Mode}
    (hperform : ∀ e p, I'.perform (G := G) mode' e p = I.perform mode e p)
    (htrace : I'.maxTrace = I.maxTrace) (hdebug : I'.debug = I.debug) {fuel : Nat}
    {s : State P G} {p : Progress}
    (hlive : ∀ q : Progress, q.steps < p.steps + fuel → I'.exhausted q = I.exhausted q) :
    I'.drive gen mode' fuel s p = I.drive gen mode fuel s p := by
  funext w
  exact drive_congr_along (c := ⟨s, ⟨w, []⟩, {}⟩) htrace hdebug
    (fun _ _ e _ _ _ _ => hperform e) hlive

variable {I : Interpreter P σ} {gen : G → Action σ (Tree P G)} {mode : Mode}

theorem drive_of_trail {C : Config P G σ → Prop} {m : Nat} {c c' : Config P G σ}
    (h : I.Trail gen mode C m c c') {p : Progress} (ht : p.Tells c.journal)
    (hp : ∀ limit, I.maxSteps = some limit → p.steps + m ≤ limit) :
    ∃ p', p'.steps = p.steps + m ∧ p'.Tells c'.journal ∧
      ∀ fuel, I.drive gen mode (m + fuel) c.state p c.journal.world =
        I.drive gen mode fuel c'.state p' c'.journal.world := by
  induction h generalizing p with
  | refl c => exact ⟨p, rfl, ht, fun fuel => by rw [Nat.zero_add]⟩
  | @step m a b c _ hm _ ih =>
    have hlive : I.exhausted p = none :=
      exhausted_eq_none.mpr fun limit hlimit => by have := hp limit hlimit; omega
    obtain ⟨q, hq, hqt, hdrive⟩ := I.drive_succ gen mode a p hlive ht
    rw [hm] at hqt hdrive
    obtain ⟨p', hp', hpt, hrest⟩ := ih hqt fun limit hlimit => by
      have := hp limit hlimit
      omega
    refine ⟨p', by omega, hpt, fun fuel => ?_⟩
    rw [Nat.add_right_comm, hdrive]
    exact hrest fuel

/-- After the moves of a trail a run makes the next one, when the limit leaves a step for it. -/
theorem run_of_trail {C : Config P G σ → Prop} {t : Tree P G} {w : σ} {m : Nat} {c : Config P G σ}
    (h : I.Trail gen mode C m ⟨⟨.tree t, []⟩, ⟨w, []⟩, {}⟩ c)
    (hlimit : ∀ limit, I.maxSteps = some limit → m < limit) :
    ∃ p : Progress, p.steps = m + 1 ∧ p.Tells (I.move gen mode c).journal ∧
      ∀ fuel, I.run gen mode (m + (fuel + 1)) t w = I.settle gen mode fuel p (I.move gen mode c) := by
  obtain ⟨p, hsteps, htold, hdrive⟩ := drive_of_trail h (p := {}) rfl fun limit hmax => by
    have := hlimit limit hmax
    simp only
    omega
  have hm : p.steps = m := by simpa using hsteps
  have hlive : I.exhausted p = none :=
    exhausted_eq_none.mpr fun limit hmax => hm ▸ hlimit limit hmax
  obtain ⟨p', hsteps', htold', hmove⟩ := I.drive_succ gen mode c p hlive htold
  exact ⟨p', hm ▸ hsteps', htold', fun fuel => (hdrive (fuel + 1)).trans (hmove fuel)⟩

/-- How a driven run ends: at the limit on steps, or with the last move of a trail. -/
def Concludes (I : Interpreter P σ) (gen : G → Action σ (Tree P G)) (mode : Mode)
    (c : Config P G σ) (p : Progress) (report : RunReport P) (w : σ) : Prop :=
  (∃ limit, I.exhausted p = some limit ∧ report = I.failed p (.stepLimit limit) ∧
      w = c.journal.world) ∨
    I.exhausted p = none ∧ (∀ c', I.move gen mode c ≠ .on c') ∧
      ∃ p' : Progress, p'.steps = p.steps + 1 ∧ p'.Tells (I.move gen mode c).journal ∧
        I.settle gen mode 0 p' (I.move gen mode c) = .ok (some report) w

theorem trail_of_drive {fuel : Nat} {c : Config P G σ} {p : Progress} {report : RunReport P} {w : σ}
    (ht : p.Tells c.journal)
    (h : I.drive gen mode fuel c.state p c.journal.world = .ok (some report) w) :
    ∃ m c' p', I.Trail gen mode (fun _ => True) m c c' ∧ p'.steps = p.steps + m ∧
      p'.Tells c'.journal ∧ I.Concludes gen mode c' p' report w := by
  induction fuel generalizing c p with
  | zero => cases h
  | succ fuel ih =>
    cases hlive : I.exhausted p with
    | some limit =>
      simp only [drive, hlive] at h
      cases h
      exact ⟨0, c, p, .refl c, rfl, ht, .inl ⟨limit, hlive, rfl, rfl⟩⟩
    | none =>
      obtain ⟨q, hq, hqt, hdrive⟩ := I.drive_succ gen mode c p hlive ht
      rw [hdrive fuel] at h
      cases hm : I.move gen mode c with
      | on c' =>
        rw [hm] at h hqt
        obtain ⟨m, c'', p', htrail, hsteps, htold, hend⟩ := ih hqt h
        exact ⟨m + 1, c'', p', .step trivial hm htrail, by omega, htold, hend⟩
      | _ =>
        rw [hm] at h hqt
        refine ⟨0, c, p, .refl c, rfl, ht, .inr ⟨hlive, by simp [hm], q, hq, ?_⟩⟩
        rw [hm]
        exact ⟨hqt, h⟩

end Interpreter

end SelectiveEffects
