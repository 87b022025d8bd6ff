import SelectiveEffects.Proofs.Run.Driving

/-! How unlimited runs end, read off direct evaluation. -/

namespace SelectiveEffects

open Machine

/-- The result of a run with its trace, or the fault that cut the run short. -/
abbrev Ending (P : Type) := Except Fault (Except Fault (Val P) × List String)

def RunReport.ending {P : Type} (r : RunReport P) : Ending P :=
  r.outcome.map fun r => (r.result, r.trace)

namespace Machine.Move

variable {P G σ : Type}

/-- How a run ends whose last move this is. -/
def ending (bound : Option Nat) : Move P G σ → Option (Ending P × σ)
  | on _ => none
  | done v j => some (.ok (.ok v, j.trace bound), j.world)
  | failed e j => some (.ok (.error e, j.trace bound), j.world)
  | cut e j => some (.error e, j.world)

theorem ending_eq_ok_iff {m : Move P G σ} {bound : Option Nat} {v : Val P} {trace : List String}
    {w : σ} : m.ending bound = some (.ok (.ok v, trace), w) ↔
      ∃ j, m = .done v j ∧ j.trace bound = trace ∧ j.world = w := by
  cases m with
  | done u j => simp [ending, and_assoc, eq_comm]
  | _ => simp [ending]

/-- The last move of a run that comes to what an evaluation came to. -/
def ofEvaluation : EStateM.Result Fault (Journal P G σ) (Option (Val P)) → Option (Move P G σ)
  | .ok (some v) j => some (.done v j)
  | .ok none _ => none
  | .error e j => some (if j.cutBy e then .cut e j else .failed e j)

theorem ofEvaluation_eq_done_iff {r : EStateM.Result Fault (Journal P G σ) (Option (Val P))}
    {v : Val P} {j : Journal P G σ} : ofEvaluation r = some (done v j) ↔ r = .ok (some v) j := by
  cases r with
  | ok u j' => cases u <;> simp [ofEvaluation]
  | error e j' => cases hcut : j'.cutBy e <;> simp [ofEvaluation, hcut]

end Machine.Move

namespace Interpreter

variable {P G σ : Type} [Primitives P]

/-- Some run of a tree ends so, with enough fuel. -/
def Ends (I : Interpreter P σ) (gen : G → Action σ (Tree P G)) (mode : Mode) (t : Tree P G) (w : σ)
    (o : Ending P) (w' : σ) : Prop :=
  ∃ fuel report, I.run gen mode fuel t w = .ok (some report) w' ∧ report.ending = o

/-- The two trees run to the same result with the same trace, and leave the same world. -/
def RunsAlike (I : Interpreter P σ) (gen : G → Action σ (Tree P G)) (mode : Mode)
    (t u : Tree P G) : Prop :=
  ∀ w o w', I.Ends gen mode t w o w' ↔ I.Ends gen mode u w o w'

variable {I : Interpreter P σ} {gen : G → Action σ (Tree P G)} {mode : Mode}
variable {t u : Tree P G} {w w' : σ} {o : Ending P} {last : Move P G σ}

theorem ending_of_settle {p : Progress} (hp : p.Tells last.journal) (hlast : ∀ c, last ≠ .on c) :
    ∃ report w, I.settle gen mode 0 p last = .ok (some report) w ∧
      last.ending I.maxTrace = some (report.ending, w) := by
  cases last with
  | on c => exact absurd rfl (hlast c)
  | done v j =>
    have htrace : p.trace I.maxTrace = j.trace I.maxTrace := hp.trace_eq I.maxTrace
    refine ⟨_, _, rfl, ?_⟩
    rw [Move.ending, ← htrace]
    rfl
  | failed e j =>
    have htrace : p.trace I.maxTrace = j.trace I.maxTrace := hp.trace_eq I.maxTrace
    refine ⟨_, _, rfl, ?_⟩
    rw [Move.ending, ← htrace]
    rfl
  | cut e j => exact ⟨_, _, rfl, rfl⟩

omit [Primitives P] in
theorem ofEvaluation_ne_on {r : EStateM.Result Fault (Journal P G σ) (Option (Val P))}
    (h : Move.ofEvaluation r = some last) (c : Config P G σ) : last ≠ .on c := by
  match r, h with
  | .ok (some v) j, h =>
    cases h
    simp
  | .error e j, h =>
    cases h
    exact Move.fault_ne_on c

/-- A run makes the last move that an evaluation of its tree stands for. -/
theorem trail_of_evaluate {n : Nat}
    (h : Move.ofEvaluation (I.evaluate gen mode n t ⟨w, []⟩) = some last) :
    ∃ m c, I.Trail gen mode (fun c => c.state.Above []) m ⟨⟨.tree t, []⟩, ⟨w, []⟩, {}⟩ c ∧
      I.move gen mode c = last := by
  cases he : I.evaluate gen mode n t ⟨w, []⟩ with
  | ok v j =>
    rw [he] at h
    cases v with
    | none => cases h
    | some v =>
      cases h
      obtain ⟨m, l, ht⟩ := returns_of_evaluate (K := []) he
      exact ⟨m, _, ht, I.move_done gen mode j l v⟩
  | error e j =>
    rw [he] at h
    cases h
    obtain ⟨m, c, ht, -, hm⟩ := stops_of_evaluate (K := []) he
    exact ⟨m, c, ht, hm⟩

/-- An evaluation that does not stop short stands for the last move of the run. -/
theorem ofEvaluation_eq_of_trail {C : Config P G σ → Prop} {m n : Nat} {c : Config P G σ}
    (h : I.Trail gen mode C m ⟨⟨.tree t, []⟩, ⟨w, []⟩, {}⟩ c) (hm : I.move gen mode c = last)
    (hlast : ∀ c, last ≠ .on c) (hne : ∀ j, I.evaluate gen mode n t ⟨w, []⟩ ≠ .ok none j) :
    Move.ofEvaluation (I.evaluate gen mode n t ⟨w, []⟩) = some last := by
  obtain ⟨last', hlast'⟩ :
      ∃ last', Move.ofEvaluation (I.evaluate gen mode n t ⟨w, []⟩) = some last' := by
    cases he : I.evaluate gen mode n t ⟨w, []⟩ with
    | ok v j =>
      cases v with
      | none => exact absurd he (hne j)
      | some v => exact ⟨_, rfl⟩
    | error e j => exact ⟨_, rfl⟩
  obtain ⟨m', c', ht, hm'⟩ := trail_of_evaluate hlast'
  cases h.eq_of_ended ht (ended_of_move hm hlast) (ended_of_move hm' (ofEvaluation_ne_on hlast'))
  rw [hlast', ← hm', hm]

theorem evaluate_of_trail {C : Config P G σ → Prop} {m : Nat} {c : Config P G σ}
    (h : I.Trail gen mode C m ⟨⟨.tree t, []⟩, ⟨w, []⟩, {}⟩ c) (hm : I.move gen mode c = last)
    (hlast : ∀ c, last ≠ .on c) :
    ∃ n, Move.ofEvaluation (I.evaluate gen mode n t ⟨w, []⟩) = some last :=
  ⟨m + 1, ofEvaluation_eq_of_trail h hm hlast fun _ =>
    evaluate_ne_none (Nat.lt_succ_self m) rfl h (ended_of_move hm hlast)⟩

/-- A run ends with the last move of its trail, when the limit leaves a step for each move. -/
theorem ends_of_trail {C : Config P G σ → Prop} {m : Nat} {c : Config P G σ}
    (h : I.Trail gen mode C m ⟨⟨.tree t, []⟩, ⟨w, []⟩, {}⟩ c) (hm : I.move gen mode c = last)
    (hending : last.ending I.maxTrace = some (o, w'))
    (hlimit : ∀ limit, I.maxSteps = some limit → m < limit) : I.Ends gen mode t w o w' := by
  subst hm
  have hlast (c' : Config P G σ) : I.move gen mode c ≠ .on c' := by
    intro hon
    rw [hon] at hending
    cases hending
  obtain ⟨p, -, htold, hrun⟩ := run_of_trail h hlimit
  obtain ⟨report, w₁, hsettle, hending'⟩ := ending_of_settle (I := I) htold hlast
  rw [hending] at hending'
  simp only [Option.some.injEq, Prod.mk.injEq] at hending'
  refine ⟨m + 1, report, ?_, hending'.1.symm⟩
  rw [hending'.2]
  exact (hrun 0).trans hsettle

/-- Without a limit on steps, runs end as direct evaluation does. -/
theorem ends_iff_evaluate (hI : I.maxSteps = none) :
    I.Ends gen mode t w o w' ↔ ∃ n last,
      Move.ofEvaluation (I.evaluate gen mode n t ⟨w, []⟩) = some last ∧
        last.ending I.maxTrace = some (o, w') := by
  have hlive (p : Progress) : I.exhausted p = none := exhausted_eq_none.mpr (by simp [hI])
  constructor
  · rintro ⟨fuel, report, hrun, rfl⟩
    obtain ⟨m, c, p, ht, -, -, hend⟩ :=
      trail_of_drive (c := ⟨⟨.tree t, []⟩, ⟨w, []⟩, {}⟩) (p := {}) rfl hrun
    rcases hend with ⟨limit, hlimit, -⟩ | ⟨-, hlast, p', -, htold, hsettle⟩
    · simp [hlive] at hlimit
    · obtain ⟨n, hn⟩ := evaluate_of_trail ht rfl hlast
      obtain ⟨report', w₁, hsettle', hending⟩ := ending_of_settle (I := I) htold hlast
      rw [hsettle] at hsettle'
      cases hsettle'
      exact ⟨n, _, hn, hending⟩
  · rintro ⟨n, last, hn, hending⟩
    obtain ⟨m, c, ht, hm⟩ := trail_of_evaluate hn
    exact ends_of_trail ht hm hending (by simp [hI])

/-- A value that direct evaluation gives is the value of a run. -/
theorem ends_of_evaluate (hI : I.maxSteps = none) {n : Nat} {v : Val P} {j : Journal P G σ}
    (h : I.evaluate gen mode n t ⟨w, []⟩ = .ok (some v) j) :
    I.Ends gen mode t w (.ok (.ok v, j.trace I.maxTrace)) j.world :=
  (ends_iff_evaluate hI).mpr ⟨n, .done v j, by rw [h]; rfl, rfl⟩

theorem ends_congr (hI : I.maxSteps = none)
    (h : ∀ n, I.evaluate gen mode n t ⟨w, []⟩ = I.evaluate gen mode n u ⟨w, []⟩) :
    I.Ends gen mode t w o w' ↔ I.Ends gen mode u w o w' := by
  simp only [ends_iff_evaluate hI, h]

theorem runsAlike_of_evaluate (hI : I.maxSteps = none)
    (h : ∀ n w, I.evaluate gen mode n t ⟨w, []⟩ = I.evaluate gen mode n u ⟨w, []⟩) :
    I.RunsAlike gen mode t u :=
  fun w _ _ => ends_congr hI fun n => h n w

end Interpreter

end SelectiveEffects
