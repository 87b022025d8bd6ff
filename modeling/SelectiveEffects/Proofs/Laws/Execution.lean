import SelectiveEffects.Proofs.Laws.Evaluation
import SelectiveEffects.Proofs.Run.Appending
import SelectiveEffects.Proofs.Run.Ending
import SelectiveEffects.Scenario.Builtin

/-! The selective laws hold of effect trees under execution. -/

namespace SelectiveEffects

open Machine Scenario

namespace Interpreter

variable {P G σ O : Type} [Primitives P]

/-- Whenever the tree runs to a value, the value is tagged. -/
def YieldsTags (I : Interpreter P σ) (gen : G → Action σ (Tree P G)) (mode : Mode)
    (t : Tree P G) : Prop :=
  ∀ w v trace w', I.Ends gen mode t w (.ok (.ok v, trace)) w' → v.IsTagged

variable {I : Interpreter P σ} {gen : G → Action σ (Tree P G)} {mode : Mode}

theorem tagged_evaluate (hI : I.maxSteps = none) {t : Tree P G} (h : I.YieldsTags gen mode t)
    (n : Nat) : (I.evaluate gen mode n t).Tagged := by
  intro j v j' he
  obtain ⟨j₀, hnew, -⟩ := (I.appends_evaluate gen mode n t).eq_ok_iff.mp he
  exact h _ _ _ _ (ends_of_evaluate hI hnew)

theorem yieldsTags_of_evaluate (hI : I.maxSteps = none) {t : Tree P G}
    (h : ∀ n w v j, I.evaluate gen mode n t ⟨w, []⟩ = .ok (some v) j → v.IsTagged) :
    I.YieldsTags gen mode t := by
  intro w v trace w' hends
  obtain ⟨n, last, hlast, hending⟩ := (ends_iff_evaluate hI).mp hends
  obtain ⟨j, rfl, -, -⟩ := Move.ending_eq_ok_iff.mp hending
  exact h n w v j (Move.ofEvaluation_eq_done_iff.mp hlast)

/-- Handling trees is associative: a handled choice may be handled one by one or as a whole. -/
theorem runsAlike_of_a1 (hI : I.maxSteps = none) {x choice z lhs rhs : Tree P G}
    (hx : I.YieldsTags gen mode x) (hchoice : I.YieldsTags gen mode choice)
    (h : Context.free.a1 x choice z = .ok (lhs, rhs)) : I.RunsAlike gen mode lhs rhs := by
  refine runsAlike_of_evaluate hI fun n w => ?_
  have htx := tagged_evaluate hI hx n
  have htchoice := tagged_evaluate hI hchoice n
  rw [evaluate, Tree.evaluate_eq] at htx htchoice ⊢
  rw [Tree.evaluateWith_a1 h htx htchoice]

/-- Both sides ask three times and apply to the payload of the first answer what the third one gave. -/
theorem runsAlike_of_a1_lifted :
    let ask : Effect Builtin :=
      { className := "Ask", lineage := ["Ask"], fields := [], label := .ok "Ask" }
    let I : Interpreter Builtin Unit := { fallback := some fun _ => return .value (.left .null) }
    let gen : Empty → Action Unit (Tree Builtin Empty) := nofun
    let x : Tree Builtin Empty := .lift ask
    let z : Tree Builtin Empty := .lifted ask (some fun _ => .ok (.constant .identity))
    let lhs : Tree Builtin Empty := .selection x (.selection x z none .optional) none .optional
    I.maxSteps = none ∧ I.YieldsTags gen .sync x ∧ ∃ rhs,
      Context.free.a1 x x z = .ok (lhs, rhs) ∧ I.RunsAlike gen .sync lhs rhs ∧
      I.Ends gen .sync lhs () (.ok (.ok .null, ["Ask", "Ask", "Ask"])) () ∧
      I.Ends gen .sync rhs () (.ok (.ok .null, ["Ask", "Ask", "Ask"])) () := by
  intro ask I gen x z lhs
  have hI : I.maxSteps = none := rfl
  have hx : I.YieldsTags gen .sync x := by
    refine yieldsTags_of_evaluate hI fun n w v j h => ?_
    rw [evaluate, Tree.evaluate_eq] at h
    cases h
    exact .inl ⟨.null, rfl⟩
  obtain ⟨rhs, hbuilt⟩ : ∃ rhs, Context.free.a1 x x z = .ok (lhs, rhs) := ⟨_, rfl⟩
  have halike : I.RunsAlike gen .sync lhs rhs := runsAlike_of_a1 hI hx hx hbuilt
  have hlhs : I.Ends gen .sync lhs () (.ok (.ok .null, ["Ask", "Ask", "Ask"])) () := by
    have hvalue : (do
        let f ← (Val.constant .identity : Val Builtin).call .null >>= Post.apply none
        f.call .null >>= Post.apply none) = .ok .null := by simp [Post.apply]
    have heval : I.evaluate gen .sync 0 lhs ⟨(), []⟩ =
        (Evaluation.ofExcept ((Val.constant .identity).call .null >>= Post.apply none) >>=
          fun f => Evaluation.ofExcept (f.call .null >>= Post.apply none))
          ⟨(), [.called ask, .called ask, .called ask]⟩ := rfl
    rw [← Evaluation.ofExcept_bind, hvalue] at heval
    exact ends_of_evaluate hI heval
  exact ⟨hI, hx, rhs, hbuilt, halike, hlhs, (halike _ _ _).mp hlhs⟩

/-- Of two trees that a law builds, mapped, composed and collapsed as they may be, both run
alike. Only the law about the handler's argument needs a function that never raises. -/
theorem runsAlike_of_sides (hI : I.maxSteps = none) (suite : LawSuite σ P G (Tree P G) O)
    (hsuite : suite.context = Context.free) (s : LawSamples P (Tree P G)) {law : Law}
    (hlaw : law ∈ [Law.f1, .f2, .f3, .p1, .p2]) {lhs rhs : Tree P G}
    (hx : I.YieldsTags gen mode s.x) (hg : law = .f2 → Fun.Total s.g.call)
    (h : suite.sides s law = .ok (lhs, rhs)) : I.RunsAlike gen mode lhs rhs := by
  refine runsAlike_of_evaluate hI fun n w => ?_
  have htx := tagged_evaluate hI hx n
  rw [evaluate, Tree.evaluate_eq] at htx ⊢
  cases law with
  | f1 =>
    simp only [LawSuite.sides, hsuite] at h
    rw [Tree.evaluateWith_f1 h htx]
  | f2 =>
    simp only [LawSuite.sides, hsuite] at h
    rw [Tree.evaluateWith_f2 h htx (hg rfl)]
  | f3 =>
    simp only [LawSuite.sides, hsuite] at h
    rw [Tree.evaluateWith_f3 h htx]
  | p1 =>
    simp only [LawSuite.sides, hsuite] at h
    rw [Tree.eq_of_p1 h]
  | p2 =>
    simp only [LawSuite.sides, hsuite] at h
    rw [Tree.eq_of_p2 h]
  | a1 => simp at hlaw
  | monadic => simp at hlaw

/-- Mapped onto the left payload or composed with the handler, the function is applied before it. -/
theorem runsAlike_of_sides_lifted :
    let ask : Effect Builtin :=
      { className := "Ask", lineage := ["Ask"], fields := [], label := .ok "Ask" }
    let I : Interpreter Builtin Unit := { fallback := some fun _ => return .value (.left .null) }
    let gen : Empty → Action Unit (Tree Builtin Empty) := nofun
    let x : Tree Builtin Empty := .lift ask
    let y : Tree Builtin Empty := .lifted ask (some fun _ => .ok .identity)
    let suite : LawSuite Unit Builtin Empty (Tree Builtin Empty) Unit :=
      { context := Context.free, observe := fun _ => return () }
    let s : LawSamples Builtin (Tree Builtin Empty) :=
      { x, y, c := y, choice := x, z := y, g := .toLeft, curried := .flip .toRight, value := .null }
    let rhs : Tree Builtin Empty :=
      .selection x (.lifted ask (some fun _ => .ok (.compose .identity .toLeft))) none .optional
    I.maxSteps = none ∧ I.YieldsTags gen .sync s.x ∧ Fun.Total s.g.call ∧ ∃ lhs,
      suite.sides s .f2 = .ok (lhs, rhs) ∧ I.RunsAlike gen .sync lhs rhs ∧
      I.Ends gen .sync lhs () (.ok (.ok (.left .null), ["Ask", "Ask"])) () ∧
      I.Ends gen .sync rhs () (.ok (.ok (.left .null), ["Ask", "Ask"])) () := by
  intro ask I gen x y suite s rhs
  have hI : I.maxSteps = none := rfl
  have hx : I.YieldsTags gen .sync s.x := by
    refine yieldsTags_of_evaluate hI fun n w v j h => ?_
    rw [evaluate, Tree.evaluate_eq] at h
    cases h
    exact .inl ⟨.null, rfl⟩
  have hg : Fun.Total s.g.call := fun v => ⟨.left v, Val.call_toLeft v⟩
  have hlaw : Law.f2 ∈ [Law.f1, .f2, .f3, .p1, .p2] := by decide
  obtain ⟨lhs, hbuilt⟩ : ∃ lhs, suite.sides s .f2 = .ok (lhs, rhs) := ⟨_, rfl⟩
  have halike : I.RunsAlike gen .sync lhs rhs :=
    runsAlike_of_sides hI suite rfl s hlaw hx (fun _ => hg) hbuilt
  have hrhs : I.Ends gen .sync rhs () (.ok (.ok (.left .null), ["Ask", "Ask"])) () := by
    have hvalue : (Val.compose .identity .toLeft : Val Builtin).call .null >>= Post.apply none =
        .ok (.left .null) := by simp [Post.apply, Val.call_compose]
    have heval : I.evaluate gen .sync 0 rhs ⟨(), []⟩ =
        Evaluation.ofExcept ((Val.compose .identity .toLeft).call .null >>= Post.apply none)
          ⟨(), [.called ask, .called ask]⟩ := rfl
    rw [hvalue] at heval
    exact ends_of_evaluate hI heval
  exact ⟨hI, hx, hg, lhs, hbuilt, halike, (halike _ _ _).mpr hrhs, hrhs⟩

end Interpreter

end SelectiveEffects
