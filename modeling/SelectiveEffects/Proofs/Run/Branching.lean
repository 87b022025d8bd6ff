import SelectiveEffects.Proofs.Run.Conclusion
import SelectiveEffects.Proofs.Tree.Conditional
import SelectiveEffects.Scenario.Builtin

/-! Selections and conditionals run one branch, whatever was settled when they were built. -/

namespace SelectiveEffects

open Machine Scenario

namespace Conclusions

variable {P G σ : Type} [Primitives P]

/-- One branch goes on from a tag, and its function is applied to the payload. -/
def branch (left right : Conclusions P G σ) : Val P → Conclusions P G σ
  | .left a => left.andThen fun f => ofExcept (f.call a)
  | .right b => right.andThen fun g => ofExcept (g.call b)
  | v => ofExcept (.error (.untaggedDisjunction v.typeName))

theorem Limit.branch {E F : Nat → Conclusions P G σ} {left right : Conclusions P G σ}
    (hl : Limit E left) (hr : Limit F right) (v : Val P) :
    Limit (fun n => Conclusions.branch (E n) (F n) v) (Conclusions.branch left right v) := by
  cases v with
  | left a => exact hl.andThen fun f => limit_const _
  | right b => exact hr.andThen fun g => limit_const _
  | _ => exact limit_const _

end Conclusions

namespace Tree

variable {P G σ : Type} [Primitives P] {left right : Evaluation (Journal P G σ) (Val P)}

theorem appends_branch (hl : left.Appends) (hr : right.Appends) (v : Val P) :
    (branch left right v).Appends := by
  cases v with
  | left a => exact hl.bind fun f => Evaluation.appends_ofExcept (f.call a)
  | right b => exact hr.bind fun g => Evaluation.appends_ofExcept (g.call b)
  | _ => exact Evaluation.appends_ofExcept _

theorem concludes_branch (hl : left.Legible) (hr : right.Legible) (v : Val P) :
    (branch left right v).Concludes =
      Conclusions.branch left.Concludes right.Concludes v := by
  cases v with
  | left a => exact Evaluation.concludes_map hl fun f => f.call a
  | right b => exact Evaluation.concludes_map hr fun g => g.call b
  | _ => exact Evaluation.concludes_ofExcept _

end Tree

namespace Interpreter

variable {P G σ : Type} [Primitives P]
variable {I : Interpreter P σ} {gen : G → Action σ (Tree P G)} {mode : Mode}

/-- A selection runs its disjunction and then one branch, where the disjunction yields tags: the
last move tells the value or the fault, and all that was called and forced on the way. -/
theorem runsTo_select_iff {x l r t : Tree P G} (h : x.select l r = .ok t) {w : σ}
    (hx : ∀ v j, I.RunsTo gen mode x w (.done v j) → v.IsTagged) (last : Move P G σ) :
    I.RunsTo gen mode t w last ↔
      ((I.RunsTo gen mode x).andThen
        (Conclusions.branch (I.RunsTo gen mode l) (I.RunsTo gen mode r))) w last := by
  have hleft : Conclusions.Limit (fun n => (I.evaluate gen mode n l).Concludes)
      (I.RunsTo gen mode l) := limit_evaluate
  have hright : Conclusions.Limit (fun n => (I.evaluate gen mode n r).Concludes)
      (I.RunsTo gen mode r) := limit_evaluate
  refine Conclusions.Limit.iff limit_evaluate
    (limit_evaluate.andThen fun v => hleft.branch hright v) fun n => ?_
  have htags (v : Val P) (j : Journal P G σ)
      (hv : I.evaluate gen mode n x ⟨w, []⟩ = .ok (some v) j) : v.IsTagged := by
    refine hx v j (runsTo_of_evaluate (n := n) ?_)
    rw [Evaluation.Concludes, hv]
    rfl
  have hselect : I.evaluate gen mode n t ⟨w, []⟩ = (I.evaluate gen mode n x >>=
      Tree.branch (I.evaluate gen mode n l) (I.evaluate gen mode n r)) ⟨w, []⟩ := by
    rw [evaluate, Tree.evaluate_eq] at htags ⊢
    exact Tree.evaluateWith_select_at h htags
  have hrun : (I.evaluate gen mode n t).Concludes w last ↔ (I.evaluate gen mode n x >>=
      Tree.branch (I.evaluate gen mode n l) (I.evaluate gen mode n r)).Concludes w last := by
    rw [Evaluation.Concludes, hselect, Evaluation.Concludes]
  rw [hrun, Evaluation.concludes_bind (legible_evaluate n) (Tree.appends_branch
    (I.appends_evaluate gen mode n l) (I.appends_evaluate gen mode n r))]
  simp only [Tree.concludes_branch (legible_evaluate n) (legible_evaluate n)]

/-- The handler answers with a left tag, so the effect of the left branch alone is performed. -/
theorem runsTo_select_iff_lifted :
    let ask : Effect Builtin :=
      { className := "Ask", lineage := ["Ask"], fields := [], label := .ok "Ask" }
    let tell : Effect Builtin :=
      { className := "Tell", lineage := ["Tell"], fields := [], label := .ok "Tell" }
    let I : Interpreter Builtin Nat :=
      { fallback := some fun _ => do return .value (.left (.int (← modifyGet fun n => (n, n + 1)))) }
    let gen : Empty → Action Nat (Tree Builtin Empty) := nofun
    let x : Tree Builtin Empty := .lift ask
    let l : Tree Builtin Empty := .lifted ask (some fun _ => .ok .identity)
    let r : Tree Builtin Empty := .lifted tell (some fun _ => .ok .identity)
    (∀ v j, I.RunsTo gen .sync x 5 (.done v j) → v.IsTagged) ∧
      ∃ t, x.select l r = .ok t ∧
        I.RunsTo gen .sync t 5 (.done (.int 5) ⟨7, [.called ask, .called ask]⟩) := by
  intro ask tell I gen x l r
  have hx (v : Val Builtin) (j : Journal Builtin Empty Nat)
      (h : I.RunsTo gen .sync x 5 (.done v j)) : v.IsTagged := by
    obtain ⟨n, hn⟩ := runsTo_iff_evaluate.mp h
    rw [evaluate, Tree.evaluate_eq] at hn
    cases hn
    exact .inl ⟨_, rfl⟩
  have hbuilt : x.select l r = .ok _ := rfl
  have hask : I.RunsTo gen .sync x 5 (.done (.left (.int 5)) ⟨6, [.called ask]⟩) :=
    runsTo_of_evaluate (n := 0) rfl
  have hleft : I.RunsTo gen .sync l 6 (.done .identity ⟨7, [.called ask]⟩) :=
    runsTo_of_evaluate (n := 0) rfl
  have happlied : Conclusions.ofExcept (Val.identity.call (.int 5)) 7
      (.done (.int 5) (⟨7, []⟩ : Journal Builtin Empty Nat)) := by
    rw [Val.call_identity]
    rfl
  refine ⟨hx, _, hbuilt, (runsTo_select_iff hbuilt hx _).mpr ⟨_, hask, ?_⟩⟩
  exact ⟨.done (.int 5) ⟨7, [.called ask]⟩, ⟨_, hleft, _, happlied, rfl⟩, rfl⟩

theorem runsTo_pure (v : Val P) :
    I.RunsTo gen mode (.pure v) = Conclusions.ofExcept (.ok v) := by
  refine runsTo_eq_of_approaches (fun n => ?_) (.ofExcept (.ok v))
  rw [evaluate, Tree.evaluate_eq, Tree.evaluateWith, Evaluation.ofExcept_ok]

/-- A conditional runs its condition and then the branch that the truth of the value chooses. It fails
where the value has no truth. -/
theorem runsTo_ifS {condition onTrue onFalse t : Tree P G}
    (h : Context.free.ifS condition onTrue onFalse = .ok t) :
    I.RunsTo gen mode t = (I.RunsTo gen mode condition).andThen (.byTruth fun b =>
      if b then I.RunsTo gen mode onTrue else I.RunsTo gen mode onFalse) := by
  have hbranch (v : Val P) : Evaluation.Approaches
      (fun n => v.byTruth
        (fun b => if b then I.evaluate gen mode n onTrue else I.evaluate gen mode n onFalse)
        fun e => Evaluation.ofExcept (.error e))
      (Conclusions.byTruth
        (fun b => if b then I.RunsTo gen mode onTrue else I.RunsTo gen mode onFalse) v) := by
    cases hv : v.truth with
    | ok b =>
      simp only [Val.byTruth_of_ok hv, Conclusions.byTruth_of_ok hv]
      cases b
      · exact approaches_evaluate
      · exact approaches_evaluate
    | error e =>
      simp only [Val.byTruth_of_error hv, Conclusions.byTruth_of_error hv]
      exact .ofExcept (.error e)
  refine runsTo_eq_of_approaches (fun n => ?_) (approaches_evaluate.bind hbranch)
  rw [evaluate, Tree.evaluate_eq]
  exact Tree.evaluateWith_ifS h

/-- A conditional whose other branch is a known value settles for that one. -/
theorem runsTo_ifS_pure {condition onTrue t : Tree P G} {u : Val P}
    (h : Context.free.ifS condition onTrue (.pure u) = .ok t) :
    I.RunsTo gen mode t = (I.RunsTo gen mode condition).andThen (.byTruth fun b =>
      if b = false then .ofExcept (.ok u) else I.RunsTo gen mode onTrue) := by
  rw [runsTo_ifS h, runsTo_pure]
  congr 2
  funext b
  cases b <;> rfl

end Interpreter

end SelectiveEffects
