import SelectiveEffects.Possibilities
import SelectiveEffects.Proofs.Run.Ending
import SelectiveEffects.Proofs.Run.Tracing
import SelectiveEffects.Scenario.Builtin

/-! The possibility analysis foretells every run. -/

namespace SelectiveEffects

open Machine Scenario

namespace Analysis

variable {P G σ : Type} [Primitives P]

theorem survey_natCast (gen : G → Action σ (Tree P G)) (n : Nat) (strict : Bool) (t : Tree P G) :
    survey gen n strict t = Survey.ofTree gen strict n t := by
  have hn : Fault.Limit.pathUnroll.natural (n : Int) = .ok n := by
    rw [Fault.Limit.natural, if_neg (by omega), Int.toNat_natCast]
  rw [survey, hn, Action.ofExcept_ok, pure_bind]

theorem possibilities_of_survey {gen : G → Action σ (Tree P G)} {n : Nat} {strict : Bool}
    {t : Tree P G} {S : Survey} {w w' : σ} (h : Survey.ofTree gen strict n t w = .ok S w')
    {cap : Int} (hcap : 0 < cap) :
    possibilities gen t n strict cap w = .ok (possibilitiesOf cap.toNat S) w' := by
  have hc : Fault.Limit.maxSequences.positive cap = .ok cap.toNat := by
    rw [Fault.Limit.positive, if_neg (by omega)]
  rw [possibilities, hc, Action.ofExcept_ok, pure_bind, survey_natCast, Action.bind_apply, h]
  rfl

end Analysis

namespace Interpreter

variable {P G σ : Type} [Primitives P]

variable {I : Interpreter P σ} {gen : G → Action σ (Tree P G)} {mode : Mode}

end Interpreter

end SelectiveEffects
