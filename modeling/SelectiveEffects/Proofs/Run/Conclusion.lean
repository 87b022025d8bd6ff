import Mathlib.Order.Filter.AtTopBot.Basic
import SelectiveEffects.Proofs.Run.Appending
import SelectiveEffects.Proofs.Run.Ending

/-! What runs come to, with all they did on the way, and runs that go on with the value of another
one. -/

namespace SelectiveEffects

open Machine

namespace Machine.Move

variable {P G σ : Type}

/-- The same last move, after what the given journal tells. -/
def after (j : Journal P G σ) : Move P G σ → Move P G σ
  | on c => on { c with journal := j.extend c.journal.events c.journal.world }
  | done v j' => done v (j.extend j'.events j'.world)
  | failed e j' => failed e (j.extend j'.events j'.world)
  | cut e j' => cut e (j.extend j'.events j'.world)

@[simp] theorem after_empty (last : Move P G σ) (w : σ) : last.after ⟨w, []⟩ = last := by
  cases last <;> rfl

theorem after_after (last : Move P G σ) (j : Journal P G σ) (w : σ) (events : List (Event P G)) :
    (last.after ⟨w, events⟩).after j = last.after (j.extend events w) := by
  cases last <;> simp [after, Journal.extend]

theorem events_after (last : Move P G σ) (j : Journal P G σ) :
    (last.after j).journal.events = j.events ++ last.journal.events := by
  cases last <;> rfl

theorem exists_ending {last : Move P G σ} (h : ∀ c, last ≠ .on c) (bound : Option Nat) :
    ∃ o, last.ending bound = some (o, last.journal.world) := by
  cases last with
  | on c => exact absurd rfl (h c)
  | _ => exact ⟨_, rfl⟩

end Machine.Move

/-- The last moves that there may be from a world. -/
abbrev Conclusions (P G σ : Type) := σ → Move P G σ → Prop

namespace Conclusions

variable {P G σ : Type}

/-- Nothing is called or forced. A fault that escapes cuts the run short. -/
def ofExcept : Except Fault (Val P) → Conclusions P G σ
  | .ok v => fun w last => last = .done v ⟨w, []⟩
  | .error e => fun w last => last = if e.escapes then .cut e ⟨w, []⟩ else .failed e ⟨w, []⟩

/-- Goes on with the value, if there is one, from the world that was left. -/
def andThen (R : Conclusions P G σ) (f : Val P → Conclusions P G σ) : Conclusions P G σ :=
  fun w last => ∃ first, R w first ∧
    match first with
    | .done v j => ∃ second, f v j.world second ∧ last = second.after j
    | stopped => last = stopped

/-- Goes on by the truth of a value. A value without a truth is a failure. -/
def byTruth (f : Bool → Conclusions P G σ) : Val P → Conclusions P G σ :=
  Val.byTruth f fun e => ofExcept (.error e)

theorem byTruth_of_ok {f : Bool → Conclusions P G σ} {v : Val P} {b : Bool}
    (h : v.truth = .ok b) : byTruth f v = f b :=
  Val.byTruth_of_ok h

theorem byTruth_of_error {f : Bool → Conclusions P G σ} {v : Val P} {e : Fault}
    (h : v.truth = .error e) : byTruth f v = ofExcept (.error e) :=
  Val.byTruth_of_error h

/-- The value is tested for its truth and kept. -/
def tested (R : Conclusions P G σ) : Conclusions P G σ :=
  R.andThen fun v => byTruth (fun _ => ofExcept (.ok v)) v

/-- Each of these comes to a value of the given truth, one from the world that the other left. -/
inductive Passes (truth : Bool) : List (Conclusions P G σ) → σ → List (Journal P G σ) → σ → Prop
  | nil (w : σ) : Passes truth [] w [] w
  | cons {R : Conclusions P G σ} {Rs : List (Conclusions P G σ)} {w w' : σ} {v : Val P}
      {j : Journal P G σ} {js : List (Journal P G σ)} :
      R w (.done v j) → v.truth = .ok truth → Passes truth Rs j.world js w' →
      Passes truth (R :: Rs) w (j :: js) w'

/-- All of these pass, and then the rest comes to its last move, after everything they did. -/
def series (truth : Bool) (Rs : List (Conclusions P G σ)) (rest : Conclusions P G σ) :
    Conclusions P G σ := fun w last =>
  ∃ js w' final, Passes truth Rs w js w' ∧ rest w' final ∧
    last = final.after ⟨w', js.flatMap Journal.events⟩

/-- Comes to a value of the given truth, which is replaced by another value, or, with the test of its
truth, to no value. -/
def settles (R : Conclusions P G σ) (truth : Bool) (u : Val P) : Conclusions P G σ :=
  fun w last => (∃ v j, R w (.done v j) ∧ v.truth = .ok truth ∧ last = .done u j) ∨
    R.tested w last ∧ ∀ v j, last ≠ .done v j

theorem series_nil (truth : Bool) (rest : Conclusions P G σ) : series truth [] rest = rest := by
  funext w last
  apply propext
  constructor
  · rintro ⟨js, w', final, hpasses, hrest, rfl⟩
    cases hpasses
    rwa [List.flatMap_nil, Move.after_empty]
  · intro hrest
    exact ⟨[], w, last, .nil w, hrest, (last.after_empty w).symm⟩

theorem series_cons_iff {truth : Bool} {R : Conclusions P G σ} {Rs : List (Conclusions P G σ)}
    {rest : Conclusions P G σ} {w : σ} {last : Move P G σ} :
    series truth (R :: Rs) rest w last ↔ ∃ v j, R w (.done v j) ∧ v.truth = .ok truth ∧
      ∃ second, series truth Rs rest j.world second ∧ last = second.after j := by
  have htold (final : Move P G σ) (j : Journal P G σ) (js : List (Journal P G σ)) (w' : σ) :
      (final.after ⟨w', js.flatMap Journal.events⟩).after j =
        final.after ⟨w', (j :: js).flatMap Journal.events⟩ := by
    rw [Move.after_after, List.flatMap_cons]
    rfl
  constructor
  · rintro ⟨js, w', final, hpasses, hrest, rfl⟩
    cases hpasses with
    | @cons _ _ _ _ v j js hdone htruth hpasses =>
      exact ⟨v, j, hdone, htruth, _, ⟨js, w', final, hpasses, hrest, rfl⟩, (htold ..).symm⟩
  · rintro ⟨v, j, hdone, htruth, _, ⟨js, w', final, hpasses, hrest, rfl⟩, rfl⟩
    exact ⟨j :: js, w', final, .cons hdone htruth hpasses, hrest, htold ..⟩

theorem ofExcept_ok_andThen (v : Val P) (f : Val P → Conclusions P G σ) :
    (ofExcept (.ok v)).andThen f = f v := by
  funext w last
  apply propext
  constructor
  · rintro ⟨first, rfl, second, hsecond, rfl⟩
    rwa [Move.after_empty]
  · intro hlast
    exact ⟨.done v ⟨w, []⟩, rfl, last, hlast, (last.after_empty w).symm⟩

theorem ne_done_of_ofExcept_error {e : Fault} {w : σ} {second : Move P G σ}
    (h : ofExcept (.error e) w second) (j : Journal P G σ) (v : Val P) (j' : Journal P G σ) :
    second.after j ≠ .done v j' := by
  subst h
  split <;> nofun

/-- A choice by the truth of a value either settles the matter or goes on. -/
theorem andThen_byTruth_iff {R S : Conclusions P G σ} {truth : Bool} {u : Val P} {w : σ}
    {last : Move P G σ} :
    (R.andThen (byTruth fun b => if b = truth then ofExcept (.ok u) else S)) w last ↔
      R.settles truth u w last ∨ ∃ v j, R w (.done v j) ∧ v.truth = .ok (!truth) ∧
        ∃ second, S j.world second ∧ last = second.after j := by
  constructor
  · rintro ⟨first, hfirst, hrest⟩
    cases first with
    | done v j =>
      obtain ⟨second, hsecond, rfl⟩ := hrest
      cases hv : v.truth with
      | ok b =>
        rw [byTruth_of_ok hv] at hsecond
        by_cases htruth : b = truth
        · rw [if_pos htruth] at hsecond
          cases hsecond
          subst htruth
          exact .inl (.inl ⟨v, j, hfirst, hv, congrArg (Move.done u) j.extend_nil⟩)
        · rw [if_neg htruth] at hsecond
          rw [Bool.eq_not_of_ne htruth] at hv
          exact .inr ⟨v, j, hfirst, hv, second, hsecond, rfl⟩
      | error e =>
        rw [byTruth_of_error hv] at hsecond
        have htested : byTruth (fun _ => ofExcept (.ok v)) v j.world second := by
          rwa [byTruth_of_error hv]
        exact .inl (.inr ⟨⟨.done v j, hfirst, second, htested, rfl⟩,
          ne_done_of_ofExcept_error hsecond j⟩)
    | _ =>
      subst hrest
      exact .inl (.inr ⟨⟨_, hfirst, rfl⟩, by simp⟩)
  · rintro ((⟨v, j, hdone, htruth, rfl⟩ | ⟨⟨first, hfirst, hrest⟩, hne⟩) |
      ⟨v, j, hdone, htruth, second, hsecond, rfl⟩)
    · refine ⟨.done v j, hdone, .done u ⟨j.world, []⟩, ?_, ?_⟩
      · rw [byTruth_of_ok htruth, if_pos rfl]
        rfl
      · exact congrArg (Move.done u) j.extend_nil.symm
    · refine ⟨first, hfirst, ?_⟩
      cases first with
      | done v j =>
        obtain ⟨second, hsecond, rfl⟩ := hrest
        refine ⟨second, ?_, rfl⟩
        cases hv : v.truth with
        | ok b =>
          rw [byTruth_of_ok hv] at hsecond
          cases hsecond
          exact absurd rfl (hne v _)
        | error e =>
          rw [byTruth_of_error hv] at hsecond ⊢
          exact hsecond
      | _ => exact hrest
    · refine ⟨.done v j, hdone, second, ?_, rfl⟩
      rw [byTruth_of_ok htruth, if_neg (Bool.not_ne_self truth)]
      exact hsecond

/-- The same last moves, after these events. -/
def preceded (events : List (Event P G)) (R : Conclusions P G σ) : Conclusions P G σ :=
  fun w last => ∃ second, R w second ∧ last = second.after ⟨w, events⟩

theorem preceded_andThen (events : List (Event P G)) (R : Conclusions P G σ)
    (f : Val P → Conclusions P G σ) :
    (R.andThen f).preceded events = (R.preceded events).andThen f := by
  funext w last
  apply propext
  constructor
  · rintro ⟨_, ⟨first, hfirst, hrest⟩, rfl⟩
    refine ⟨first.after ⟨w, events⟩, ⟨first, hfirst, rfl⟩, ?_⟩
    cases first with
    | done v j =>
      obtain ⟨second, hsecond, rfl⟩ := hrest
      exact ⟨second, hsecond, second.after_after ..⟩
    | _ =>
      subst hrest
      rfl
  · rintro ⟨_, ⟨first, hfirst, rfl⟩, hrest⟩
    cases first with
    | done v j =>
      obtain ⟨second, hsecond, rfl⟩ := hrest
      exact ⟨second.after j, ⟨.done v j, hfirst, second, hsecond, rfl⟩,
        (second.after_after ..).symm⟩
    | _ => exact ⟨_, ⟨_, hfirst, rfl⟩, hrest⟩

/-- What holds at some bound holds of `R`, and that holds at every large bound. -/
def Limit (E : Nat → Conclusions P G σ) (R : Conclusions P G σ) : Prop :=
  ∀ w last, (∀ n, E n w last → R w last) ∧ (R w last → ∀ᶠ n in Filter.atTop, E n w last)

variable {E F : Nat → Conclusions P G σ} {R S : Conclusions P G σ}

theorem limit_const (R : Conclusions P G σ) : Limit (fun _ => R) R :=
  fun _ _ => ⟨fun _ h => h, fun h => Filter.Eventually.of_forall fun _ => h⟩

theorem Limit.andThen {f : Nat → Val P → Conclusions P G σ} {g : Val P → Conclusions P G σ}
    (hR : Limit E R) (hf : ∀ v, Limit (f · v) (g v)) :
    Limit (fun n => (E n).andThen (f n)) (R.andThen g) := by
  intro w last
  constructor
  · rintro n ⟨first, hfirst, hrest⟩
    refine ⟨first, (hR w first).1 n hfirst, ?_⟩
    cases first with
    | done v j =>
      obtain ⟨second, hsecond, hlast⟩ := hrest
      exact ⟨second, (hf v j.world second).1 n hsecond, hlast⟩
    | _ => exact hrest
  · rintro ⟨first, hfirst, hrest⟩
    have hE := (hR w first).2 hfirst
    cases first with
    | done v j =>
      obtain ⟨second, hsecond, hlast⟩ := hrest
      filter_upwards [hE, (hf v j.world second).2 hsecond] with n hn hn'
      exact ⟨_, hn, second, hn', hlast⟩
    | _ =>
      filter_upwards [hE] with n hn
      exact ⟨_, hn, hrest⟩

/-- Where two sequences agree from a world, so do their limits. -/
theorem Limit.iff (hR : Limit E R) (hS : Limit F S) {w : σ} {last : Move P G σ}
    (h : ∀ n, E n w last ↔ F n w last) : R w last ↔ S w last := by
  constructor
  · intro hr
    obtain ⟨n, hn⟩ := ((hR w last).2 hr).exists
    exact (hS w last).1 n ((h n).mp hn)
  · intro hs
    obtain ⟨n, hn⟩ := ((hS w last).2 hs).exists
    exact (hR w last).1 n ((h n).mpr hn)

end Conclusions

namespace Evaluation

variable {P G σ : Type}

/-- The last move that stands for what an evaluation comes to from a world. -/
def Concludes (x : Evaluation (Journal P G σ) (Val P)) : Conclusions P G σ :=
  fun w last => Move.ofEvaluation (x ⟨w, []⟩) = some last

/-- A value comes only where every label could be read. -/
def Legible (x : Evaluation (Journal P G σ) (Val P)) : Prop :=
  ∀ w v j, x ⟨w, []⟩ = .ok (some v) j → j.legible = true

theorem concludes_ofExcept (r : Except Fault (Val P)) :
    (ofExcept r).Concludes = (Conclusions.ofExcept r : Conclusions P G σ) := by
  funext w last
  apply propext
  cases r with
  | ok v => exact Option.some_inj.trans eq_comm
  | error e =>
    have hcut : (⟨w, []⟩ : Journal P G σ).cutBy e = e.escapes := by
      simp [Journal.cutBy, Journal.legible]
    rw [Concludes, ofExcept_error_apply, Move.ofEvaluation, hcut]
    exact Option.some_inj.trans eq_comm

theorem ofEvaluation_resume {j : Journal P G σ} (hj : j.legible = true)
    (r : EStateM.Result Fault (Journal P G σ) (Option (Val P))) :
    Move.ofEvaluation (j.resume r) = (Move.ofEvaluation r).map (Move.after j) := by
  cases r with
  | ok v j' => cases v <;> rfl
  | error e j' =>
    have hcut : (j.extend j'.events j'.world).cutBy e = j'.cutBy e := by
      rw [Journal.cutBy, Journal.legible_extend, hj, Bool.true_and]
      rfl
    simp only [Journal.resume, Move.ofEvaluation, hcut, Option.map_some]
    cases j'.cutBy e <;> rfl

/-- An evaluation that binds another one concludes as that one does, and then goes on. -/
theorem concludes_bind {x : Evaluation (Journal P G σ) (Val P)}
    {f : Val P → Evaluation (Journal P G σ) (Val P)} (hx : x.Legible) (hf : ∀ v, (f v).Appends) :
    (x >>= f).Concludes = x.Concludes.andThen fun v => (f v).Concludes := by
  funext w last
  apply propext
  simp only [Concludes, Conclusions.andThen, bind_apply]
  cases hw : x ⟨w, []⟩ with
  | error e j =>
    simp only [Move.ofEvaluation, Option.some_inj, exists_eq_left']
    split <;> exact eq_comm
  | ok u j =>
    cases u with
    | none => simp [Move.ofEvaluation]
    | some v =>
      have hdone : Move.ofEvaluation (.ok (some v) j) = some (.done v j) := rfl
      simp only [hdone, Option.some_inj, exists_eq_left']
      rw [hf v j, ofEvaluation_resume (hx w v j hw), Option.map_eq_some_iff]
      simp only [eq_comm]

theorem concludes_map {x : Evaluation (Journal P G σ) (Val P)} (hx : x.Legible) (f : Fun P) :
    (x >>= fun v => ofExcept (f v)).Concludes =
      x.Concludes.andThen fun v => Conclusions.ofExcept (f v) := by
  rw [concludes_bind hx fun v => appends_ofExcept (f v)]
  simp only [concludes_ofExcept]

theorem Legible.bind {x : Evaluation (Journal P G σ) (Val P)}
    {f : Val P → Evaluation (Journal P G σ) (Val P)} (hx : x.Legible) (hf : ∀ v, (f v).Legible)
    (happends : ∀ v, (f v).Appends) : (x >>= f).Legible := by
  intro w u j h
  rw [bind_apply] at h
  match hw : x ⟨w, []⟩, h with
  | .ok (some v) j₁, h =>
    simp only at h
    rw [happends v] at h
    cases hv : f v ⟨j₁.world, []⟩ with
    | error e j₂ =>
      rw [hv] at h
      cases h
    | ok u' j₂ =>
      rw [hv] at h
      cases h
      have hlegible : j₂.legible = true := hf v j₁.world u j₂ hv
      rw [Journal.legible_extend, hx w v j₁ hw, Bool.true_and]
      exact hlegible

/-- Ever deeper evaluations come to these last moves, and what they were given is still noted. -/
structure Approaches (E : Nat → Evaluation (Journal P G σ) (Val P)) (R : Conclusions P G σ) :
    Prop where
  legible : ∀ n, (E n).Legible
  appends : ∀ n, (E n).Appends
  limit : Conclusions.Limit (fun n => (E n).Concludes) R

namespace Approaches

variable {E : Nat → Evaluation (Journal P G σ) (Val P)} {R : Conclusions P G σ}

theorem ofExcept (r : Except Fault (Val P)) :
    Approaches (fun _ => Evaluation.ofExcept r) (Conclusions.ofExcept r : Conclusions P G σ) where
  legible _ w v j h := by
    cases r with
    | ok u =>
      cases h
      rfl
    | error e => cases h
  appends _ := appends_ofExcept r
  limit := by
    rw [concludes_ofExcept]
    exact Conclusions.limit_const _

theorem bind {F : Nat → Val P → Evaluation (Journal P G σ) (Val P)}
    {S : Val P → Conclusions P G σ} (hE : Approaches E R) (hF : ∀ v, Approaches (F · v) (S v)) :
    Approaches (fun n => E n >>= F n) (R.andThen S) where
  legible n := (hE.legible n).bind (fun v => (hF v).legible n) fun v => (hF v).appends n
  appends n := (hE.appends n).bind fun v => (hF v).appends n
  limit := by
    simp only [concludes_bind (hE.legible _) fun v => (hF v).appends _]
    exact hE.limit.andThen fun v => (hF v).limit

end Approaches

end Evaluation

namespace Interpreter

variable {P G σ : Type} [Primitives P]

/-- The moves of a tree's run come to this last one, and the run ends accordingly when the limit on
steps, if there is one, leaves it a step for each move. -/
def RunsTo (I : Interpreter P σ) (gen : G → Action σ (Tree P G)) (mode : Mode) (t : Tree P G) :
    Conclusions P G σ := fun w last =>
  ∃ m c o, I.Trail gen mode (fun _ => True) m ⟨⟨.tree t, []⟩, ⟨w, []⟩, {}⟩ c ∧
    I.move gen mode c = last ∧ last.ending I.maxTrace = some (o, last.journal.world) ∧
    ((∀ limit, I.maxSteps = some limit → m < limit) →
      I.Ends gen mode t w o last.journal.world)

variable {I : Interpreter P σ} {gen : G → Action σ (Tree P G)} {mode : Mode} {t : Tree P G}

theorem legible_evaluate (n : Nat) : (I.evaluate gen mode n t).Legible := by
  intro w v j h
  have hf := evaluate_follows I gen mode n t [] ⟨w, []⟩ {} rfl
  rw [h] at hf
  exact hf.1

theorem runsTo_of_evaluate {n : Nat} {w : σ} {last : Move P G σ}
    (h : (I.evaluate gen mode n t).Concludes w last) : I.RunsTo gen mode t w last := by
  obtain ⟨m, c, ht, hm⟩ := trail_of_evaluate h
  obtain ⟨o, ho⟩ := Move.exists_ending (ofEvaluation_ne_on h) I.maxTrace
  exact ⟨m, c, o, ht.mono fun _ _ => trivial, hm, ho, ends_of_trail ht hm ho⟩

/-- Every evaluation that is deep enough comes to what the run comes to. -/
theorem limit_evaluate :
    Conclusions.Limit (fun n => (I.evaluate gen mode n t).Concludes) (I.RunsTo gen mode t) := by
  refine fun w last => ⟨fun n h => runsTo_of_evaluate h, ?_⟩
  rintro ⟨m, c, o, ht, hm, ho, -⟩
  have hlast (c : Config P G σ) : last ≠ .on c := by
    rintro rfl
    cases ho
  filter_upwards [Filter.eventually_gt_atTop m] with n hn
  exact ofEvaluation_eq_of_trail ht hm hlast fun _ =>
    evaluate_ne_none hn rfl ht (ended_of_move hm hlast)

theorem approaches_evaluate :
    Evaluation.Approaches (fun n => I.evaluate gen mode n t) (I.RunsTo gen mode t) :=
  ⟨legible_evaluate, fun n => I.appends_evaluate gen mode n t, limit_evaluate⟩

theorem runsTo_eq_of_approaches {E : Nat → Evaluation (Journal P G σ) (Val P)}
    {R : Conclusions P G σ} (h : ∀ n, I.evaluate gen mode n t = E n)
    (hE : Evaluation.Approaches E R) : I.RunsTo gen mode t = R := by
  funext w last
  refine propext (Conclusions.Limit.iff limit_evaluate hE.limit fun n => ?_)
  rw [h]

theorem runsTo_iff_evaluate {w : σ} {last : Move P G σ} :
    I.RunsTo gen mode t w last ↔ ∃ n, (I.evaluate gen mode n t).Concludes w last :=
  ⟨fun h => ((limit_evaluate w last).2 h).exists, fun ⟨n, h⟩ => (limit_evaluate w last).1 n h⟩

/-- From one world a run makes one last move. -/
theorem runsTo_unique {w : σ} {last last' : Move P G σ} (h : I.RunsTo gen mode t w last)
    (h' : I.RunsTo gen mode t w last') : last = last' := by
  have hended {c : Config P G σ} {last : Move P G σ} {o : Ending P} (hm : I.move gen mode c = last)
      (ho : last.ending I.maxTrace = some (o, last.journal.world)) :
      I.Ended gen mode (fun _ => True) c := by
    refine ended_of_move hm fun c' hon => ?_
    rw [hon] at ho
    cases ho
  obtain ⟨m, c, o, ht, hm, ho, -⟩ := h
  obtain ⟨m', c', o', ht', hm', ho', -⟩ := h'
  cases ht.eq_of_ended ht' (hended hm ho) (hended hm' ho')
  exact hm.symm.trans hm'

theorem runsTo_done_iff {w : σ} {v : Val P} {j : Journal P G σ} :
    I.RunsTo gen mode t w (.done v j) ↔ ∃ n, I.evaluate gen mode n t ⟨w, []⟩ = .ok (some v) j :=
  runsTo_iff_evaluate.trans (exists_congr fun _ => Move.ofEvaluation_eq_done_iff)

/-- Without a limit on steps, a run ends as the last of its moves says. -/
theorem ends_iff_runsTo (hI : I.maxSteps = none) {w w' : σ} {o : Ending P} :
    I.Ends gen mode t w o w' ↔
      ∃ last, I.RunsTo gen mode t w last ∧ last.ending I.maxTrace = some (o, w') := by
  rw [ends_iff_evaluate hI, exists_comm]
  refine exists_congr fun last => ?_
  rw [exists_and_right, runsTo_iff_evaluate]
  rfl

end Interpreter

end SelectiveEffects
