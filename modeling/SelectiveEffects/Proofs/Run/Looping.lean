import SelectiveEffects.Proofs.Run.Branching
import SelectiveEffects.Proofs.Tree.WellMade

/-! Loops run their action in turns, until one of them yields no truth or no value. -/

namespace SelectiveEffects

open Machine Scenario

namespace Interpreter

variable {P G σ : Type} [Primitives P]
variable {I : Interpreter P σ} {gen : G → Action σ (Tree P G)} {mode : Mode} {action : Tree P G}

/-- One turn of a loop: it is forced, and its action runs. -/
def turn (I : Interpreter P σ) (gen : G → Action σ (Tree P G)) (mode : Mode) (action : Tree P G) :
    Conclusions P G σ :=
  (I.RunsTo gen mode action).preceded [.forced (.loop action)]

/-- Evaluation that may expand nothing comes to nothing for a loop. -/
theorem not_concludes_loop_zero (w : σ) (last : Move P G σ) :
    ¬ (I.evaluate gen mode 0 (.loop action none)).Concludes w last := by
  intro h
  rw [evaluate, Tree.evaluate_eq] at h
  cases h

theorem evaluate_loop (n : Nat) :
    I.evaluate gen mode n (.loop action none) =
      Tree.expansion (fun source => Journal.noting [.forced source] (source.expand gen))
        (fun e => Journal.noting (I.calls e) (I.answer mode e)) n (.loop action) :=
  (I.evaluate_ofSource gen mode n (.loop action) none).trans (bind_pure _)

/-- Evaluating a loop forces it and evaluates one turn of it, with the loop again after that. -/
theorem concludes_loop_succ (n : Nat) {t : Tree P G}
    (h : Context.free.whenS action (.loop action none) = .ok t) :
    (I.evaluate gen mode (n + 1) (.loop action none)).Concludes =
      (I.evaluate gen mode n t).Concludes.preceded [.forced (.loop action)] := by
  funext w last
  have hforced : I.evaluate gen mode (n + 1) (.loop action none) ⟨w, []⟩ =
      (⟨w, [.forced (.loop action)]⟩ : Journal P G σ).resume
        (I.evaluate gen mode n t ⟨w, []⟩) := by
    rw [evaluate_loop, Tree.expansion, Evaluation.bind_apply, Evaluation.lift_apply,
      Journal.noting, Source.expand, h]
    exact I.appends_evaluate gen mode n t ⟨w, [.forced (.loop action)]⟩
  rw [Evaluation.Concludes, hforced, Evaluation.ofEvaluation_resume rfl, Option.map_eq_some_iff]
  simp only [eq_comm, Conclusions.preceded, Evaluation.Concludes]

/-- A loop that cannot start over fails when it is forced. -/
theorem runsTo_loop_of_error {e : Fault}
    (h : Context.free.whenS action (.loop action none) = .error e) :
    I.RunsTo gen mode (.loop action none) =
      (Conclusions.ofExcept (.error e)).preceded [.forced (.loop action)] := by
  have hforced (n : Nat) (w : σ) : I.evaluate gen mode (n + 1) (.loop action none) ⟨w, []⟩ =
      (⟨w, [.forced (.loop action)]⟩ : Journal P G σ).resume
        (Evaluation.ofExcept (.error e) ⟨w, []⟩) := by
    rw [evaluate_loop, Tree.expansion, Evaluation.bind_apply, Evaluation.lift_apply,
      Journal.noting, Source.expand, h]
    rfl
  have hconcludes (n : Nat) : (I.evaluate gen mode (n + 1) (.loop action none)).Concludes =
      (Conclusions.ofExcept (.error e)).preceded [.forced (.loop action)] := by
    rw [← Evaluation.concludes_ofExcept]
    funext w last
    rw [Evaluation.Concludes, hforced, Evaluation.ofEvaluation_resume rfl, Option.map_eq_some_iff]
    simp only [eq_comm, Conclusions.preceded, Evaluation.Concludes]
  funext w last
  apply propext
  rw [runsTo_iff_evaluate]
  constructor
  · rintro ⟨n, hn⟩
    cases n with
    | zero => exact absurd hn (not_concludes_loop_zero w last)
    | succ n => rwa [hconcludes] at hn
  · intro hlast
    exact ⟨1, by rwa [hconcludes]⟩

theorem runsTo_loop {t : Tree P G} (h : Context.free.whenS action (.loop action none) = .ok t) :
    I.RunsTo gen mode (.loop action none) =
      (I.RunsTo gen mode t).preceded [.forced (.loop action)] := by
  funext w last
  apply propext
  simp only [Conclusions.preceded, runsTo_iff_evaluate]
  constructor
  · rintro ⟨n, hn⟩
    cases n with
    | zero => exact absurd hn (not_concludes_loop_zero w last)
    | succ n =>
      rw [concludes_loop_succ n h] at hn
      obtain ⟨second, hsecond, hlast⟩ := hn
      exact ⟨second, ⟨n, hsecond⟩, hlast⟩
  · rintro ⟨second, ⟨n, hsecond⟩, hlast⟩
    refine ⟨n + 1, ?_⟩
    rw [concludes_loop_succ n h]
    exact ⟨second, hsecond, hlast⟩

/-- A turn ends the loop, or the loop starts over from where the turn left the world. -/
theorem runsTo_loop_iff (haction : action.Known) {w : σ} {last : Move P G σ} :
    I.RunsTo gen mode (.loop action none) w last ↔
      (I.turn gen mode action).settles false .null w last ∨
        ∃ v j, I.turn gen mode action w (.done v j) ∧ v.truth = .ok true ∧
          ∃ second, I.RunsTo gen mode (.loop action none) j.world second ∧
            last = second.after j := by
  have hturn : I.RunsTo gen mode (.loop action none) =
      (I.turn gen mode action).andThen (.byTruth fun b =>
        if b = false then .ofExcept (.ok .null) else I.RunsTo gen mode (.loop action none)) := by
    rw [turn, ← Conclusions.preceded_andThen]
    cases hfault : action.truthFault? with
    | none =>
      obtain ⟨t, ht⟩ := Tree.exists_whenS_loop haction hfault
      have hif : Context.free.ifS action (.loop action none) (.pure .null) = .ok t := ht
      rw [← runsTo_ifS_pure hif, ← runsTo_loop ht]
    | some e =>
      obtain ⟨v, rfl, hv⟩ := Tree.truthFault?_eq_some_iff.mp hfault
      rw [runsTo_pure, Conclusions.ofExcept_ok_andThen, Conclusions.byTruth_of_error hv]
      exact runsTo_loop_of_error (Tree.ifS_pure_of_error hv _ _)
  exact (Iff.of_eq (congrFun₂ hturn w last)).trans Conclusions.andThen_byTruth_iff

/-- Every turn leaves the event that the loop was forced. -/
theorem events_ne_nil_of_turn {w : σ} {last : Move P G σ} (h : I.turn gen mode action w last) :
    last.journal.events ≠ [] := by
  obtain ⟨second, -, rfl⟩ := h
  simp [Move.events_after]

/-- A loop that comes to an end went round so many times. The induction is on the events of its
journal, of which every turn leaves at least one. -/
theorem exists_series_of_runsTo_loop (haction : action.Known) {w : σ} {last : Move P G σ}
    (h : I.RunsTo gen mode (.loop action none) w last) :
    ∃ k, Conclusions.series true (List.replicate k (I.turn gen mode action))
      ((I.turn gen mode action).settles false .null) w last := by
  generalize hlength : last.journal.events.length = length
  induction length using Nat.strong_induction_on generalizing w last with
  | _ length ih =>
    rcases (runsTo_loop_iff haction).mp h with
      hsettles | ⟨v, j, hturn, htruth, second, hrest, rfl⟩
    · refine ⟨0, ?_⟩
      rwa [List.replicate_zero, Conclusions.series_nil]
    · have hforced : 0 < j.events.length :=
        List.length_pos_iff.mpr (events_ne_nil_of_turn hturn)
      have hshorter : second.journal.events.length < length := by
        rw [← hlength, Move.events_after, List.length_append]
        omega
      obtain ⟨k, hk⟩ := ih second.journal.events.length hshorter hrest rfl
      refine ⟨k + 1, ?_⟩
      rw [List.replicate_succ]
      exact Conclusions.series_cons_iff.mpr ⟨v, j, hturn, htruth, second, hk, rfl⟩

theorem runsTo_loop_of_series (haction : action.Known) {k : Nat} {w : σ} {last : Move P G σ}
    (h : Conclusions.series true (List.replicate k (I.turn gen mode action))
      ((I.turn gen mode action).settles false .null) w last) :
    I.RunsTo gen mode (.loop action none) w last := by
  induction k generalizing w last with
  | zero =>
    rw [List.replicate_zero, Conclusions.series_nil] at h
    exact (runsTo_loop_iff haction).mpr (.inl h)
  | succ k ih =>
    rw [List.replicate_succ] at h
    obtain ⟨v, j, hturn, htruth, second, hk, rfl⟩ := Conclusions.series_cons_iff.mp h
    exact (runsTo_loop_iff haction).mpr (.inr ⟨v, j, hturn, htruth, second, ih hk, rfl⟩)

/-- A loop runs any number of turns that yield truth, and then one that does not: with its value the
loop ends, and the value is absent; without one, or without a truth of it, as that turn ends. The
journal is that of the turns, one after another. -/
theorem runsTo_whileS_iff (gen : G → Action σ (Tree P G)) (mode : Mode) (haction : action.Known) :
    ∃ t, Context.free.whileS action = .ok t ∧ ∀ w last, I.RunsTo gen mode t w last ↔
      ∃ k, Conclusions.series true (List.replicate k (I.turn gen mode action))
        ((I.turn gen mode action).settles false .null) w last := by
  refine ⟨.loop action none, rfl, fun w last => ⟨fun h => ?_, ?_⟩⟩
  · exact exists_series_of_runsTo_loop haction h
  · rintro ⟨k, h⟩
    exact runsTo_loop_of_series haction h

/-- A handler that answers with truth twice makes a loop go round three times. -/
theorem runsTo_whileS_iff_lifted :
    let ask : Effect Builtin :=
      { className := "Ask", lineage := ["Ask"], fields := [], label := .ok "Ask" }
    let I : Interpreter Builtin Nat :=
      { fallback := some fun _ => do
          return .value (.bool (← modifyGet fun n => (decide (0 < n), n - 1))) }
    let gen : Empty → Action Nat (Tree Builtin Empty) := nofun
    let action : Tree Builtin Empty := .lift ask
    let round : List (Event Builtin Empty) := [.forced (.loop action), .called ask]
    action.Known ∧ ∃ t, Context.free.whileS action = .ok t ∧
      I.RunsTo gen .sync t 2 (.done .null ⟨0, round ++ round ++ round⟩) := by
  intro ask I gen action round
  have haction : action.Known := trivial
  have hask (n : Nat) : I.RunsTo gen .sync action n
      (.done (.bool (decide (0 < n))) ⟨n - 1, [.called ask]⟩) :=
    runsTo_of_evaluate (n := 0) rfl
  have hturn (n : Nat) : I.turn gen .sync action n
      (.done (.bool (decide (0 < n))) ⟨n - 1, round⟩) := ⟨_, hask n, rfl⟩
  obtain ⟨t, ht, hrun⟩ := runsTo_whileS_iff gen .sync haction
  refine ⟨haction, t, ht, (hrun 2 _).mpr ⟨2, ?_⟩⟩
  exact ⟨[_, _], 0, _, .cons (hturn 2) rfl (.cons (hturn 1) rfl (.nil 0)),
    .inl ⟨_, _, hturn 0, rfl, rfl⟩, rfl⟩

end Interpreter

end SelectiveEffects
