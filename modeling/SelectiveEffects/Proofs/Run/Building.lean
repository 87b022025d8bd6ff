import SelectiveEffects.Proofs.Laws.Execution

/-! How the trees run that building operations make, whatever was settled when they were built. -/

namespace SelectiveEffects

open Machine Scenario

namespace Interpreter

variable {P G σ : Type} [Primitives P]
variable {I : Interpreter P σ} {gen : G → Action σ (Tree P G)} {mode : Mode}

/-- Handling runs as the plain selection of its operands does, where the disjunction yields tags:
mapping a known function, or applying a handler to a known left tag, is no more than a shortcut. -/
theorem ends_handle_iff (hI : I.maxSteps = none) {x y t : Tree P G} (h : x.handle y = .ok t)
    {w : σ} (hx : ∀ v trace w', I.Ends gen mode x w (.ok (.ok v, trace)) w' → v.IsTagged)
    (o : Ending P) (w' : σ) :
    I.Ends gen mode t w o w' ↔ I.Ends gen mode (.selection x y none .optional) w o w' := by
  refine ends_congr hI fun n => ?_
  have htags (v : Val P) (j : Journal P G σ)
      (hv : I.evaluate gen mode n x ⟨w, []⟩ = .ok (some v) j) : v.IsTagged :=
    hx _ _ _ (ends_of_evaluate hI hv)
  rw [evaluate, Tree.evaluate_eq] at htags ⊢
  exact Tree.evaluateWith_handle_at h htags

/-- A known function handles the tags of an effect, which is asked once either way. -/
theorem ends_handle_iff_lifted :
    let ask : Effect Builtin :=
      { className := "Ask", lineage := ["Ask"], fields := [], label := .ok "Ask" }
    let I : Interpreter Builtin Unit := { fallback := some fun _ => return .value (.left .null) }
    let gen : Empty → Action Unit (Tree Builtin Empty) := nofun
    let x : Tree Builtin Empty := .lift ask
    let y : Tree Builtin Empty := .pure .toRight
    I.maxSteps = none ∧ (∀ v trace w', I.Ends gen .sync x () (.ok (.ok v, trace)) w' → v.IsTagged) ∧
      ∃ t, x.handle y = .ok t ∧ (∀ o w', I.Ends gen .sync t () o w' ↔
        I.Ends gen .sync (.selection x y none .optional) () o w') ∧
      I.Ends gen .sync t () (.ok (.ok (.right .null), ["Ask"])) () := by
  intro ask I gen x y
  have hI : I.maxSteps = none := rfl
  have hx : I.YieldsTags gen .sync x := by
    refine yieldsTags_of_evaluate hI fun n w v j h => ?_
    rw [evaluate, Tree.evaluate_eq] at h
    cases h
    exact .inl ⟨.null, rfl⟩
  have hselection :
      I.Ends gen .sync (.selection x y none .optional) () (.ok (.ok (.right .null), ["Ask"])) () := by
    have heval : I.evaluate gen .sync 0 (.selection x y none .optional) ⟨(), []⟩ =
        Evaluation.ofExcept (Val.toRight.call .null >>= Post.apply none) ⟨(), [.called ask]⟩ := rfl
    rw [Val.call_toRight] at heval
    exact ends_of_evaluate hI heval
  obtain ⟨t, hbuilt⟩ : ∃ t, x.handle y = .ok t := ⟨_, rfl⟩
  have hends := ends_handle_iff hI hbuilt (hx ())
  exact ⟨hI, hx (), t, hbuilt, hends, (hends _ _).mpr hselection⟩

end Interpreter

end SelectiveEffects
