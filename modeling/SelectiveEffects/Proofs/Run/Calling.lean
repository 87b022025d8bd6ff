import SelectiveEffects.Proofs.Run.Ending
import SelectiveEffects.Proofs.Run.Mirroring

/-! Running a tree and calling the task it folds to are the same computation, as long as the
disjunctions that are evaluated yield tags. -/

namespace SelectiveEffects

open Machine Scenario

/-- An evaluation with a journal came to what another came to without one, and every label could be
read. -/
inductive Mirrors {P G σ α : Type} :
    EStateM.Result Fault (Journal P G σ) α → EStateM.Result Fault σ α → Prop
  | ok (a : α) {j : Journal P G σ} : j.legible = true → Mirrors (.ok a j) (.ok a j.world)
  | error (e : Fault) {j : Journal P G σ} :
      j.legible = true → Mirrors (.error e j) (.error e j.world)

theorem mirrorsUpTo_eq_iff {P G σ α : Type} {r : EStateM.Result Fault (Journal P G σ) α}
    {r' : EStateM.Result Fault σ α} : MirrorsUpTo (· = ·) r r' ↔ Mirrors r r' := by
  constructor
  · rintro (⟨a, hj⟩ | ⟨rfl, hj⟩)
    · exact .ok a hj
    · exact .error _ hj
  · rintro (⟨a, hj⟩ | ⟨e, hj⟩)
    · exact .ok a hj
    · exact .error rfl hj

namespace Interpreter

variable {P G σ : Type} [Primitives P]

/-- Every disjunction that a run comes to from here is tagged. -/
def TagsAlong (I : Interpreter P σ) (gen : G → Action σ (Tree P G)) (mode : Mode)
    (c : Config P G σ) : Prop :=
  ∀ m v h K j l, I.Trail gen mode (fun _ => True) m c ⟨⟨.value v, .select h :: K⟩, j, l⟩ →
    v.IsTagged

variable {I : Interpreter P σ} {gen : G → Action σ (Tree P G)} {mode : Mode}

/-- It is enough that the disjunction is tagged here, if one is evaluated, and in the run that goes
on from the next move. -/
theorem tagsAlong_of_next {c : Config P G σ}
    (hc : ∀ v h K, c.state = ⟨.value v, .select h :: K⟩ → v.IsTagged)
    (hnext : ∀ c', I.move gen mode c = .on c' → I.TagsAlong gen mode c') :
    I.TagsAlong gen mode c :=
  disjunctionsAlong_of_next hc hnext

theorem tagsAlong_of_move {c c' : Config P G σ}
    (hc : ∀ v h K, c.state = ⟨.value v, .select h :: K⟩ → v.IsTagged)
    (hm : I.move gen mode c = .on c') (h : I.TagsAlong gen mode c') : I.TagsAlong gen mode c :=
  disjunctionsAlong_of_move hc hm h

/-- Calling the task of a tree mirrors the evaluation of the tree, to the same depth. -/
theorem mirrors_call {perform : Effect P → Action σ (Val P)}
    (hI : ∀ e, I.resolve e = some (.returning perform))
    {again : Task P σ (Deferral P G) → Deferral P G}
    (hgen : ∀ g w t w', gen g w = .ok t w' → t.Legible) (n : Nat)
    (t : Tree P G) (K : List (Frame P G)) (j : Journal P G σ) (l : Levels) (ht : t.Legible)
    (hj : j.legible = true) (htags : I.TagsAlong gen mode ⟨⟨.tree t, K⟩, j, l⟩) :
    Mirrors (I.evaluate gen mode n t j)
      ((t.toTask perform).call (Folding.intoTasks again perform gen).unfold n j.world) :=
  mirrorsUpTo_eq_iff.mp <|
    mirrorsUpTo_call (fun _ => rfl) (fun _ => .inl) hI hgen n t K j l ht hj htags

section Endings

variable {r : EStateM.Result Fault (Journal P G σ) (Option (Val P))}
  {r' : EStateM.Result Fault σ (Option (Val P))}

omit [Primitives P] in
/-- How a run ends whose last move stands for an evaluation, read off what the evaluation mirrors. -/
theorem ending_iff_of_mirrors (h : Mirrors r r') (bound : Option Nat) (w' : σ) :
    (∀ v, (∃ trace last, Move.ofEvaluation r = some last ∧
      last.ending bound = some (.ok (.ok v, trace), w')) ↔ r' = .ok (some v) w') ∧
    (∀ e, (∃ trace last, Move.ofEvaluation r = some last ∧
      last.ending bound = some (.ok (.error e, trace), w')) ↔
        e.escapes = false ∧ r' = .error e w') ∧
    ∀ e, (∃ last, Move.ofEvaluation r = some last ∧
      last.ending bound = some (.error e, w')) ↔ e.escapes = true ∧ r' = .error e w' := by
  cases h with
  | ok a hj =>
    cases a with
    | none => simp [Move.ofEvaluation]
    | some u => simp [Move.ofEvaluation, Move.ending]
  | @error f j hj =>
    have hcut : j.cutBy f = f.escapes := by simp [Journal.cutBy, hj]
    cases hf : f.escapes with
    | false =>
      have hne (e : Fault) (he : e.escapes = true) (hfe : f = e) : j.world ≠ w' := by
        rw [← hfe, hf] at he
        cases he
      simpa [Move.ofEvaluation, Move.ending, hcut, hf] using hne
    | true =>
      have hne (e : Fault) (he : e.escapes = false) (hfe : f = e) : j.world ≠ w' := by
        rw [← hfe, hf] at he
        cases he
      simpa [Move.ofEvaluation, Move.ending, hcut, hf] using hne

end Endings

section Calls

variable {perform : Effect P → Action σ (Val P)} {again : Task P σ (Deferral P G) → Deferral P G}

/-- A tree runs as its task is called: to the same value or fault, leaving the same world. A fault
that escapes passes the run. -/
theorem ends_iff_call (hsteps : I.maxSteps = none) (hI : ∀ e, I.resolve e = some (.returning perform))
    (hgen : ∀ g w t w', gen g w = .ok t w' → t.Legible) {t : Tree P G} (ht : t.Legible) {w : σ}
    (htags : I.TagsAlong gen mode ⟨⟨.tree t, []⟩, ⟨w, []⟩, {}⟩) (w' : σ) :
    (∀ v, (∃ trace, I.Ends gen mode t w (.ok (.ok v, trace)) w') ↔ ∃ depth,
      (t.toTask perform).call (Folding.intoTasks again perform gen).unfold depth w =
        .ok (some v) w') ∧
    (∀ e, (∃ trace, I.Ends gen mode t w (.ok (.error e, trace)) w') ↔ e.escapes = false ∧ ∃ depth,
      (t.toTask perform).call (Folding.intoTasks again perform gen).unfold depth w =
        .error e w') ∧
    ∀ e, I.Ends gen mode t w (.error e) w' ↔ e.escapes = true ∧ ∃ depth,
      (t.toTask perform).call (Folding.intoTasks again perform gen).unfold depth w =
        .error e w' := by
  have hmirrors (depth : Nat) : Mirrors (I.evaluate gen mode depth t ⟨w, []⟩)
      ((t.toTask perform).call (Folding.intoTasks again perform gen).unfold depth w) :=
    mirrors_call hI hgen depth t [] ⟨w, []⟩ {} ht rfl htags
  have hending (depth : Nat) := ending_iff_of_mirrors (hmirrors depth) I.maxTrace w'
  simp only [ends_iff_evaluate hsteps]
  refine ⟨fun v => ?_, fun e => ?_, fun e => ?_⟩
  · rw [exists_comm]
    exact exists_congr fun depth => (hending depth).1 v
  · rw [exists_comm, exists_congr fun depth => (hending depth).2.1 e, exists_and_left]
  · rw [exists_congr fun depth => (hending depth).2.2 e, exists_and_left]

end Calls

/-- The interpreter and the fold into tasks agree. A tree folds, without a bound, to a task that
has done nothing yet. Where every disjunction that is evaluated is tagged, a run of the tree gives
a value, or ends with a fault that does not escape, exactly when a call of that task does, and an
escaping fault passes the run exactly when it passes the call. Either way both leave the same
journal: the handler was called on the same effects, and the same nodes were forced, in one
order. -/
theorem ends_iff_folded_call {I : Interpreter P (Journal P G σ)} (mode : Mode)
    (hsteps : I.maxSteps = none) {perform : Effect P → Action σ (Val P)}
    (hI : ∀ e, I.resolve e = some (.returning fun e => Journal.noting [.called e] (perform e)))
    {gen : G → Action σ (Tree P G)} (hgen : ∀ g w t w', gen g w = .ok t w' → t.Legible)
    (again : Task P (Journal P G σ) (Deferral P G) → Deferral P G) {t : Tree P G}
    (ht : t.Legible) {j : Journal P G σ} :
    let noted : G → Action (Journal P G σ) (Tree P G) :=
      fun g => Journal.noting [.forced (.host g)] (gen g)
    let F := Folding.intoTasks again (fun e => Journal.noting [.called e] (perform e)) noted
    I.TagsAlong noted mode ⟨⟨.tree t, []⟩, ⟨j, []⟩, {}⟩ →
      ∃ T, (∀ j₀, F.Yields none t j₀ T j₀) ∧ ∀ j',
        (∀ v, (∃ trace, I.Ends noted mode t j (.ok (.ok v, trace)) j') ↔
          ∃ depth, T.call F.unfold depth j = .ok (some v) j') ∧
        (∀ e, (∃ trace, I.Ends noted mode t j (.ok (.error e, trace)) j') ↔
          e.escapes = false ∧ ∃ depth, T.call F.unfold depth j = .error e j') ∧
        ∀ e, I.Ends noted mode t j (.error e) j' ↔
          e.escapes = true ∧ ∃ depth, T.call F.unfold depth j = .error e j' := by
  intro noted F htags
  have hnoted (g : G) (j₁ : Journal P G σ) (u : Tree P G) (j₂ : Journal P G σ)
      (h : noted g j₁ = .ok u j₂) : u.Legible := by
    simp only [noted, Journal.noting] at h
    cases hg : gen g j₁.world with
    | error e w => simp [hg] at h
    | ok u' w =>
      rw [hg] at h
      cases h
      exact hgen g _ _ w hg
  refine ⟨t.toTask fun e => Journal.noting [.called e] (perform e), fun j₀ => ?_, ?_⟩
  · rw [Folding.yields_iff, Folding.fold, Folding.foldLazily_intoTasks ht]
    rfl
  · exact ends_iff_call hsteps hI hnoted ht htags

/-- A deferred disjunction whose effect is performed by a handler that counts its calls. -/
theorem ends_iff_folded_call_deferred :
    let ask : Effect Builtin :=
      { className := "Ask", lineage := ["Ask"], fields := [], label := .ok "Ask" }
    let perform : Effect Builtin → Action Nat (Val Builtin) := fun _ => do
      return .left (.int (← modifyGet fun n => (n, n + 1)))
    let gen : Unit → Action Nat (Tree Builtin Unit) := fun _ => return .lift ask
    let noted : Unit → Action (Journal Builtin Unit Nat) (Tree Builtin Unit) :=
      fun g => Journal.noting [.forced (.host g)] (gen g)
    let I : Interpreter Builtin (Journal Builtin Unit Nat) :=
      { fallback := some (.returning fun e => Journal.noting [.called e] (perform e)) }
    let again : Task Builtin (Journal Builtin Unit Nat) (Deferral Builtin Unit) →
      Deferral Builtin Unit := fun _ => ⟨.host (), none⟩
    let F := Folding.intoTasks again (fun e => Journal.noting [.called e] (perform e)) noted
    let t : Tree Builtin Unit := .selection (.deferred () none) (.pure .toRight) none .optional
    let last : Journal Builtin Unit Nat := ⟨6, [.forced (.host ()), .called ask]⟩
    I.maxSteps = none ∧
      (∀ e, I.resolve e = some (.returning fun e => Journal.noting [.called e] (perform e))) ∧
      (∀ g w t w', gen g w = .ok t w' → t.Legible) ∧ t.Legible ∧
      I.TagsAlong noted .sync ⟨⟨.tree t, []⟩, ⟨⟨5, []⟩, []⟩, {}⟩ ∧
      (∃ trace, I.Ends noted .sync t ⟨5, []⟩ (.ok (.ok (.right (.int 5)), trace)) last) ∧
      ∃ T, (∀ j, F.Yields none t j T j) ∧
        ∃ depth, T.call F.unfold depth ⟨5, []⟩ = .ok (some (.right (.int 5))) last := by
  intro ask perform gen noted I again F t last
  have hgen (g : Unit) (w : Nat) (u : Tree Builtin Unit) (w' : Nat)
      (h : gen g w = .ok u w') : u.Legible := by
    cases h
    exact ⟨"Ask", rfl⟩
  have ht : t.Legible := ⟨trivial, trivial⟩
  have hI (e : Effect Builtin) : I.resolve e =
      some (.returning fun e => Journal.noting [.called e] (perform e)) := by
    simp [I, resolve]
  have htags : I.TagsAlong noted .sync ⟨⟨.tree t, []⟩, ⟨⟨5, []⟩, []⟩, {}⟩ := by
    refine tagsAlong_of_move nofun (I.move_selection noted .sync _ _ _ _ _ _ _) ?_
    refine tagsAlong_of_move nofun (I.move_ofSource noted .sync _ _ _ (.host ()) none) ?_
    refine tagsAlong_of_move nofun (I.move_lifted noted .sync _ _ _ ask none) ?_
    refine tagsAlong_of_move nofun (I.move_apply noted .sync _ _ _ _ none) ?_
    refine tagsAlong_of_move (fun v h K hv => ?_) (I.move_left noted .sync _ _ _ _ _) ?_
    · cases hv
      exact .inl ⟨_, rfl⟩
    refine tagsAlong_of_move nofun (I.move_pure noted .sync _ _ _ _) ?_
    refine tagsAlong_of_next nofun fun c hc => ?_
    rw [move_argument, Val.call_toRight] at hc
    cases hc
    refine tagsAlong_of_next nofun fun c hc => ?_
    cases (I.move_done noted .sync _ _ _).symm.trans hc
  have hends : ∃ trace, I.Ends noted .sync t ⟨5, []⟩ (.ok (.ok (.right (.int 5)), trace)) last := by
    have heval : I.evaluate noted .sync 1 t ⟨⟨5, []⟩, []⟩ =
        Evaluation.ofExcept (Val.toRight.call (.int 5) >>= Post.apply none)
          ⟨last, [.forced (.host ()), .called ask]⟩ := rfl
    rw [Val.call_toRight] at heval
    exact ⟨_, ends_of_evaluate rfl heval⟩
  obtain ⟨T, hfold, hcall⟩ := ends_iff_folded_call .sync rfl hI hgen again ht htags
  exact ⟨rfl, hI, hgen, ht, htags, hends, T, hfold, ((hcall last).1 _).mp hends⟩

/-- A fault that escapes passes the call of the task, but no run ends with it. -/
theorem escaping_thunk_ends_no_run :
    let perform : Effect Builtin → Action Unit (Val Builtin) := fun _ => return .null
    let gen : Unit → Action Unit (Tree Builtin Unit) := fun _ => throw (.raised .abort "stop")
    let I : Interpreter Builtin Unit := { fallback := some (.returning perform) }
    let again : Task Builtin Unit (Deferral Builtin Unit) → Deferral Builtin Unit :=
      fun _ => ⟨.host (), none⟩
    let F := Folding.intoTasks again perform gen
    let t : Tree Builtin Unit := .deferred () none
    (∀ g w t w', gen g w = .ok t w' → t.Legible) ∧ t.Legible ∧
      I.TagsAlong gen .sync ⟨⟨.tree t, []⟩, ⟨(), []⟩, {}⟩ ∧
      ∃ T, F.Yields none t () T () ∧
        T.call F.unfold 1 () = .error (.raised .abort "stop") () ∧
        ∀ e trace w', ¬ I.Ends gen .sync t () (.ok (.error e, trace)) w' := by
  intro perform gen I again F t
  have hgen (g : Unit) (w : Unit) (u : Tree Builtin Unit) (w' : Unit)
      (h : gen g w = .ok u w') : u.Legible := by
    cases h
  have htags : I.TagsAlong gen .sync ⟨⟨.tree t, []⟩, ⟨(), []⟩, {}⟩ := by
    refine tagsAlong_of_next nofun fun c hc => ?_
    cases (I.move_ofSource gen .sync _ _ _ (.host ()) none).symm.trans hc
  have hcall : (Task.ofDeferred ⟨.host (), none⟩ : Task Builtin Unit (Deferral Builtin Unit)).call
      F.unfold 1 () = .error (.raised .abort "stop") () := by
    rw [Task.call_eq, Task.evaluateWith_ofDeferred]
    rfl
  refine ⟨hgen, trivial, htags, _, Folding.yields_iff.mpr rfl, hcall, ?_⟩
  intro e trace w' h
  obtain ⟨n, last, hlast, hending⟩ := (ends_iff_evaluate rfl).mp h
  cases n with
  | zero => cases hlast
  | succ n =>
    cases hlast
    cases hending

end Interpreter

end SelectiveEffects
