import Mathlib.Data.List.DropRight
import SelectiveEffects.Proofs.Run.Awaiting
import SelectiveEffects.Proofs.Run.Reporting

/-! Recorded runs: handlers and generators that note in the world each call that is made to them, and
what a trace tells of these calls. -/

namespace SelectiveEffects

open Machine Scenario

/-- The last labels, as many as the bound allows. -/
def latest (bound : Option Nat) (labels : List String) : List String :=
  match bound with
  | none => labels
  | some b => labels.rtake b

/-- Whether a handler or a generator can note this itself. Loops are forced, and labels found to be
unreadable, without either of them. -/
def Event.isNoted {P G : Type} : Event P G → Bool
  | .called _ | .forced (.host _) => true
  | _ => false

variable {P G σ : Type}

/-- A reply whose awaiting leaves the notes alone. -/
def Reply.recorded : Reply P σ → Reply P (Journal P G σ)
  | .value v => .value v
  | .later action => .later (Journal.noting [] action)

/-- Notes each call when it is made, whatever comes of it. -/
def Handler.recorded (h : Handler P σ) : Handler P (Journal P G σ) := fun e =>
  Journal.noting [.called e] (Reply.recorded <$> h e)

namespace Journal

/-- Notes each node that is forced, whatever comes of it. -/
def forcing (gen : G → Action σ (Tree P G)) : G → Action (Journal P G σ) (Tree P G) := fun g =>
  noting [.forced (.host g)] (gen g)

/-- What is noted in the world, beside what the run did. -/
def recorded (j : Journal P G σ) : Journal P G (Journal P G σ) :=
  { world := { world := j.world, events := j.events.filter Event.isNoted }, events := j.events }

theorem trace_eq_latest (j : Journal P G σ) (bound : Option Nat) :
    j.trace bound = latest bound j.labels := by
  cases bound with
  | none => exact j.trace_none
  | some b => exact (List.rtake_eq_reverse_take_reverse j.labels b).symm

/-- Only calls have labels, and they are noted. -/
@[simp] theorem labels_recorded (j : Journal P G σ) : j.recorded.world.labels = j.labels := by
  have hnoted (event : Event P G) (label : String) (h : event.label? = some label) :
      event.isNoted = true := by
    cases event with
    | called e => rfl
    | _ => cases h
  simp only [labels, recorded]
  induction j.events with
  | nil => rfl
  | cons event events ih =>
    cases hlabel : event.label? with
    | none => cases hn : event.isNoted <;> simp [hn, hlabel, ih]
    | some label => simp [hnoted event label hlabel, hlabel, ih]

theorem recorded_extend (j : Journal P G σ) (events : List (Event P G)) (w : σ) :
    (j.extend events w).recorded =
      j.recorded.extend events (j.recorded.world.extend (events.filter Event.isNoted) w) := by
  simp [recorded, extend]

theorem noting_pure {α : Type} (a : α) :
    (noting [] (pure a) : Action (Journal P G σ) α) = pure a := by
  funext j
  simp [noting, Action.pure_apply]

theorem noting_throw {α : Type} (f : Fault) :
    (noting [] (throw f : Action σ α) : Action (Journal P G σ) α) = throw f := by
  funext j
  simp [noting, Action.throw_apply]

/-- What follows a noted action notes nothing more. -/
theorem noting_bind {α β : Type} (events : List (Event P G)) (a : Action σ α)
    (f : α → Action σ β) :
    noting events (a >>= f) = noting events a >>= fun x => noting [] (f x) := by
  funext j
  simp only [noting, Action.bind_apply]
  cases a j.world with
  | error e w => rfl
  | ok x w =>
    simp only [extend_world]
    cases f x w <;> simp [extend]

theorem noting_ofExcept {α : Type} (r : Except Fault α) :
    (noting [] (Action.ofExcept r) : Action (Journal P G σ) α) = Action.ofExcept r := by
  cases r with
  | ok a => exact noting_pure a
  | error f => exact noting_throw f

end Journal

theorem Source.expand_forcing [Primitives P] (gen : G → Action σ (Tree P G))
    (source : Source P G) :
    source.expand (Journal.forcing gen) =
      Journal.noting ([.forced source].filter Event.isNoted) (source.expand gen) := by
  cases source with
  | host g =>
    let check (t : Tree P G) : Action σ (Tree P G) :=
      if t.isNode then return t else throw (.notExpanded t.typeName)
    have hcheck (t : Tree P G) : (Journal.noting [] (check t) : Action (Journal P G σ) (Tree P G)) =
        if t.isNode then return t else throw (.notExpanded t.typeName) := by
      cases hnode : t.isNode
      · simp only [check, hnode]
        exact Journal.noting_throw _
      · simp only [check, hnode]
        exact Journal.noting_pure t
    have hbind := Journal.noting_bind (P := P) [.forced (.host g)] (gen g) check
    simp only [hcheck] at hbind
    exact hbind.symm
  | loop action => exact (Journal.noting_ofExcept _).symm

namespace Machine

def Config.recorded (c : Config P G σ) : Config P G (Journal P G σ) :=
  ⟨c.state, c.journal.recorded, c.levels⟩

def Move.recorded : Move P G σ → Move P G (Journal P G σ)
  | on c => .on c.recorded
  | done v j => .done v j.recorded
  | failed e j => .failed e j.recorded
  | cut e j => .cut e j.recorded

end Machine

namespace Interpreter

/-- The same interpreter with handlers that note their calls. -/
def recorded (I : Interpreter P σ) : Interpreter P (Journal P G σ) where
  handlers := I.handlers.mapHandlers fun _ h => h.recorded
  fallback := I.fallback.map Handler.recorded
  maxSteps := I.maxSteps
  maxTrace := I.maxTrace
  debug := I.debug

/-- The same interpreter with another bound on its trace, or without one. -/
def tracing (I : Interpreter P σ) (bound : Option Nat) : Interpreter P σ :=
  { I with maxTrace := bound }

theorem resolve_recorded (I : Interpreter P σ) (e : Effect P) :
    (I.recorded (G := G)).resolve e = (I.resolve e).map Handler.recorded :=
  resolve_eq_map rfl rfl e

theorem calls_recorded (I : Interpreter P σ) (e : Effect P) :
    (I.recorded (G := G)).calls e = I.calls (G := G) e := by
  simp only [calls, resolve_recorded, Option.isSome_map]

theorem await_recorded (mode : Mode) (label : String) (reply : Reply P σ) :
    await mode label (reply.recorded (G := G)) = Journal.noting [] (await mode label reply) := by
  cases reply with
  | value v => exact (Journal.noting_pure _).symm
  | later action =>
    cases mode with
    | sync => exact (Journal.noting_pure _).symm
    | async =>
      simp only [Reply.recorded, await, map_eq_pure_bind, Journal.noting_bind, Journal.noting_pure]

theorem answer_recorded (I : Interpreter P σ) (mode : Mode) (e : Effect P) :
    (I.recorded (G := G)).answer mode e =
      Journal.noting ((I.calls e).filter Event.isNoted) (I.answer mode e) := by
  simp only [answer, calls, resolve_recorded]
  cases e.label with
  | error f => exact (Journal.noting_throw f).symm
  | ok label =>
    cases I.resolve e with
    | none => exact (Journal.noting_throw _).symm
    | some h =>
      have hcalls : ([.called e] : List (Event P G)).filter Event.isNoted = [.called e] := rfl
      simp only [Option.map_some, Option.isSome_some, if_true, hcalls, Handler.recorded,
        map_eq_pure_bind, Journal.noting_bind, Journal.noting_pure, Journal.noting_ofExcept,
        bind_assoc, pure_bind, await_recorded]

section Moves

theorem recorded_fault (cut : Bool) (f : Fault) (s : State P G) (j : Journal P G σ) (l : Levels) :
    (if cut then .cut f j else .on ⟨s, j, l⟩ : Move P G σ).recorded =
      if cut then .cut f j.recorded else .on ⟨s, j.recorded, l⟩ := by
  cases cut <;> rfl

theorem recorded_applied (j : Journal P G σ) (l : Levels) (K : List (Frame P G))
    (r : Except Fault (Val P)) (frames : List Nat) :
    (applied j l K r frames).recorded = applied j.recorded l K r frames := by
  cases r with
  | ok v => rfl
  | error f => exact recorded_fault f.escapes f _ j _

variable [Primitives P] (I : Interpreter P σ) (gen : G → Action σ (Tree P G)) (mode : Mode)

/-- Recorded runs make the same moves. -/
theorem move_recorded (c : Config P G σ) :
    I.recorded.move (Journal.forcing gen) mode c.recorded = (I.move gen mode c).recorded := by
  obtain ⟨⟨control, K⟩, j, l⟩ := c
  have hworld : j.recorded.world.world = j.world := rfl
  have hidle : j.recorded.extend [] j.recorded.world = (j.extend [] j.world).recorded := by
    rw [Journal.extend_nil, Journal.extend_nil]
  have hsource (source : Source P G) (k : Post P) :
      I.recorded.move (Journal.forcing gen) mode ⟨⟨.tree (.ofSource source k), K⟩, j.recorded, l⟩ =
        (I.move gen mode ⟨⟨.tree (.ofSource source k), K⟩, j, l⟩).recorded := by
    rw [move_ofSource, move_ofSource, Source.expand_forcing, Journal.noting, hworld]
    cases source.expand gen j.world with
    | ok t w => simp only [Move.recorded, Config.recorded, Journal.recorded_extend]
    | error f w => simp only [recorded_fault, Journal.recorded_extend]
  cases control with
  | tree t =>
    cases t with
    | pure v => simp only [Config.recorded, move_pure, Move.recorded]
    | lifted e k =>
      simp only [Config.recorded, move_lifted, answer_recorded, calls_recorded, Journal.noting,
        hworld]
      cases I.answer mode e j.world with
      | ok v w => simp only [Move.recorded, Config.recorded, Journal.recorded_extend]
      | error f w => simp only [recorded_fault, Journal.recorded_extend]
    | selection d h k route => simp only [Config.recorded, move_selection, Move.recorded]
    | deferred g k => exact hsource (.host g) k
    | loop action k => exact hsource (.loop action) k
    | foreign typeName =>
      simp only [Config.recorded, move_opaque _ _ _ _ _ _ (.inl rfl), Move.recorded]
    | unknown typeName =>
      simp only [Config.recorded, move_opaque _ _ _ _ _ _ (.inr rfl), Move.recorded]
  | value v =>
    cases K with
    | nil => simp only [Config.recorded, move_done, Move.recorded]
    | cons frame K =>
      cases frame with
      | apply k => simp only [Config.recorded, move_apply, recorded_applied]
      | argument a => simp only [Config.recorded, move_argument, recorded_applied]
      | select h => cases v <;> exact congrArg (fun j => Move.on ⟨_, j, _⟩) hidle
      | unknown => exact congrArg (fun j => Move.on ⟨_, j, l⟩) hidle
  | fault e => simp only [Config.recorded, move_fault, Move.recorded]
  | effect e => exact congrArg (fun j => Move.on ⟨_, j, l⟩) hidle
  | unknown => exact congrArg (fun j => Move.on ⟨_, j, l⟩) hidle

end Moves

variable [Primitives P] {I : Interpreter P σ} {gen : G → Action σ (Tree P G)} {mode : Mode}
variable {C : Config P G σ → Prop} {t : Tree P G} {w w' : σ} {m n : Nat} {c c' : Config P G σ}
variable {result : Except Fault (Val P)} {r : RunResult P} {e : Effect P}

theorem Trail.recorded (h : I.Trail gen mode C m c c') :
    I.recorded.Trail (Journal.forcing gen) mode (fun _ => True) m c.recorded c'.recorded := by
  induction h with
  | refl c => exact .refl c.recorded
  | @step m a b c _ hm _ ih =>
    have hmove : I.recorded.move (Journal.forcing gen) mode a.recorded = .on b.recorded := by
      rw [move_recorded, hm, Move.recorded]
    exact .step trivial hmove ih

theorem Halts.recorded (h : I.Halts gen mode m c result n) :
    I.recorded.Halts (Journal.forcing gen) mode m c.recorded result n := by
  cases h with
  | spent hlimit => exact .spent hlimit
  | done hlimit hmove => exact .done hlimit (by rw [move_recorded, hmove]; rfl)
  | failed hlimit hmove => exact .failed hlimit (by rw [move_recorded, hmove]; rfl)

/-- Bounds on the trace have no part in what a run does. -/
theorem Trail.tracing (h : I.Trail gen mode C m c c') (bound : Option Nat) :
    (I.tracing bound).Trail gen mode C m c c' := by
  induction h with
  | refl c => exact .refl c
  | step ha hm _ ih => exact .step ha hm ih

theorem Halts.tracing (h : I.Halts gen mode m c result n) (bound : Option Nat) :
    (I.tracing bound).Halts gen mode m c result n := by
  cases h with
  | spent hlimit => exact .spent hlimit
  | done hlimit hmove => exact .done hlimit hmove
  | failed hlimit hmove => exact .failed hlimit hmove

omit [Primitives P] in
/-- What a move calls is a handler that the effect has. -/
theorem resolves_of_acts {s : State P G} (h : .called e ∈ I.acts s) :
    (∃ label, e.label = .ok label) ∧ ∃ h, I.resolve e = some h := by
  obtain ⟨control, K⟩ := s
  cases control with
  | tree t =>
    cases t with
    | lifted e' k =>
      simp only [acts, calls] at h
      cases hlabel : e'.label with
      | error f => simp [hlabel] at h
      | ok label =>
        cases hresolve : I.resolve e' with
        | none => simp [hlabel, hresolve] at h
        | some handler =>
          simp only [hlabel, hresolve, Option.isSome_some, if_true, List.mem_singleton,
            Event.called.injEq] at h
          subst h
          exact ⟨⟨label, hlabel⟩, handler, hresolve⟩
    | _ => simp [acts] at h
  | _ => simp [acts] at h

theorem resolves_of_trail (h : I.Trail gen mode C m c c') (he : .called e ∈ c'.journal.events) :
    .called e ∈ c.journal.events ∨
      (∃ label, e.label = .ok label) ∧ ∃ h, I.resolve e = some h := by
  induction h with
  | refl c => exact .inl he
  | @step m a b c _ hm _ ih =>
    rcases ih he with hb | hresolves
    · obtain ⟨w, hjournal⟩ := I.exists_journal_move gen mode a
      rw [hm] at hjournal
      have hevents : b.journal.events = a.journal.events ++ I.acts a.state :=
        congrArg Journal.events hjournal
      rw [hevents, List.mem_append] at hb
      exact hb.imp_right resolves_of_acts
    · exact .inr hresolves

/-- The calls of a run that reports. As the handlers themselves note them, they are what the trace
tells, all of them or the latest, and each is the call of a handler that its effect has. The bound on
the trace changes nothing else. After a failing move the run halts with the next step, with a fault,
and nothing more is called or forced. -/
theorem reports_calls (h : I.Reports gen mode t w r w') :
    ∃ j : Journal P G σ, j.world = w' ∧ r.trace = latest I.maxTrace j.labels ∧
      (∀ bound,
        (I.tracing bound).Reports gen mode t w ⟨r.result, latest bound j.labels, r.steps⟩ w' ∧
          (I.tracing bound).recorded.Reports (Journal.forcing gen) mode t ⟨w, []⟩
            ⟨r.result, latest bound j.labels, r.steps⟩ j) ∧
      (∀ e, .called e ∈ j.events →
        (∃ label, e.label = .ok label) ∧ ∃ h, I.resolve e = some h) ∧
      ∀ k c f, I.Reaches gen mode t w k c → I.Fails gen mode c f →
        (∃ e, r.result = .error e) ∧ r.steps ≤ k + 2 ∧
          j.events = (c.journal.events ++ I.acts c.state).filter Event.isNoted := by
  obtain ⟨m, c, htrail, hhalts, htrace, hworld⟩ := h.exists_halt
  refine ⟨c.journal.recorded.world, hworld.symm, ?_, fun bound => ⟨?_, ?_⟩, fun e he => ?_,
    fun k c' f hreach hfails => ?_⟩
  · rw [htrace, c.journal.trace_eq_latest, Journal.labels_recorded]
  · have hreports := (hhalts.tracing bound).reports (htrail.tracing bound)
    rw [c.journal.trace_eq_latest] at hreports
    rw [hworld, Journal.labels_recorded]
    exact hreports
  · have hreports := (hhalts.tracing bound).recorded.reports (htrail.tracing bound).recorded
    rw [Journal.trace_eq_latest] at hreports
    rw [Journal.labels_recorded]
    exact hreports
  · have hcalled : .called e ∈ c.journal.events := (List.mem_filter.mp he).1
    rcases resolves_of_trail htrail hcalled with hnone | hresolves
    · cases hnone
    · exact hresolves
  · obtain ⟨herror, hsteps, hevents⟩ := hfails.of_halt hreach htrail hhalts
    exact ⟨herror, hsteps, congrArg (List.filter Event.isNoted) hevents⟩

/-- The handler answers once and then refuses. The trace has room for one of its two calls. -/
theorem reports_calls_second :
    let ask : Effect Builtin :=
      { className := "Ask", lineage := ["Ask"], fields := [], label := .ok "ask" }
    let answer : Handler Builtin Nat := fun _ => do
      let n ← modifyGet fun n => (n, n + 1)
      if n = 0 then return .value (.left .null) else throw (.raised .value "boom")
    let I : Interpreter Builtin Nat := { handlers := [("Ask", some answer)], maxTrace := some 1 }
    let gen : Empty → Action Nat (Tree Builtin Empty) := nofun
    let t : Tree Builtin Empty := .selection (.lift ask) (.lift ask) none .optional
    let boom : Except Fault (Val Builtin) := .error (.raised .value "boom")
    I.Reports gen .sync t 0 ⟨boom, ["ask"], 6⟩ 2 ∧
      (I.tracing none).Reports gen .sync t 0 ⟨boom, ["ask", "ask"], 6⟩ 2 ∧
      (I.tracing none).recorded.Reports (Journal.forcing gen) .sync t ⟨0, []⟩
        ⟨boom, ["ask", "ask"], 6⟩ ⟨2, [.called ask, .called ask]⟩ := by
  intro ask answer I gen t boom
  have hreports : I.Reports gen .sync t 0 ⟨boom, ["ask"], 6⟩ 2 := ⟨6, _, rfl⟩
  let c : Config Builtin Empty Nat :=
    ⟨⟨.tree (.lift ask), [.argument .null]⟩, ⟨1, [.called ask]⟩, ⟨0, [0]⟩⟩
  have htrail : I.Trail gen .sync (fun _ => True) 4 ⟨⟨.tree t, []⟩, ⟨0, []⟩, {}⟩ c :=
    .step trivial rfl (.step trivial rfl (.step trivial rfl (.step trivial rfl (.refl c))))
  have hfails : I.Fails gen .sync c (.raised .value "boom") :=
    .raised (.call (w := 2) rfl rfl rfl)
  obtain ⟨⟨world, events⟩, hworld, -, hbounds, -, hfast⟩ := reports_calls hreports
  obtain ⟨-, -, hevents⟩ := hfast 4 c _ ⟨htrail, nofun⟩ hfails
  cases hworld
  cases hevents
  exact ⟨hreports, hbounds none⟩

end Interpreter

end SelectiveEffects
