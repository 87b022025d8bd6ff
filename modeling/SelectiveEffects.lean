import SelectiveEffects.Path.Worklist
import SelectiveEffects.Proofs.Analysis.Soundness
import SelectiveEffects.Proofs.Laws.Execution
import SelectiveEffects.Proofs.Run.Refinement
import SelectiveEffects.Scenario.Captures
import SelectiveEffects.Scenario.Comparisons
import SelectiveEffects.Scenario.LawTrials
import SelectiveEffects.Scenario.Sessions
import SelectiveEffects.Scenario.Stepping
import SelectiveEffects.Scenario.Tags
import SelectiveEffects.Tree.Construction
import SelectiveEffects.Tree.Evaluation
import SelectiveEffects.Tree.Language
import SelectiveEffects.Proofs.Analysis.Necessity
import SelectiveEffects.Proofs.Run.Building
import SelectiveEffects.Proofs.Fold.Worklist
import SelectiveEffects.Proofs.Context.Outcome
import SelectiveEffects.Proofs.Fold.Homomorphism
import SelectiveEffects.Proofs.Fold.Tasks
import SelectiveEffects.Proofs.Run.Calling
import SelectiveEffects.Proofs.Analysis.Enumeration
import SelectiveEffects.Proofs.Run.Conclusion
import SelectiveEffects.Proofs.Tree.Conditional
import SelectiveEffects.Proofs.Run.Branching
import SelectiveEffects.Proofs.Run.ShortCircuit
import SelectiveEffects.Proofs.Run.Looping
import SelectiveEffects.Proofs.Analysis.Composition
import SelectiveEffects.Proofs.Run.Awaiting
import SelectiveEffects.Proofs.Run.Limits
import SelectiveEffects.Proofs.Run.Failing
import SelectiveEffects.Proofs.Run.Reporting
import SelectiveEffects.Proofs.Run.Recording
import SelectiveEffects.Proofs.Run.Returning
import SelectiveEffects.Proofs.Run.Constructing
import SelectiveEffects.Proofs.Analysis.Cutting
import SelectiveEffects.Proofs.Run.Terminating
import SelectiveEffects.Proofs.Laws.Tasks
import SelectiveEffects.Proofs.Laws.Validations
import SelectiveEffects.Proofs.Path.Growth
import SelectiveEffects.Proofs.Analysis.Monotonicity
import SelectiveEffects.Proofs.Walk.Jobs
import SelectiveEffects.Proofs.Walk.Fold
import SelectiveEffects.Proofs.Walk.Survey
import SelectiveEffects.Proofs.Analysis.Termination
import SelectiveEffects.Proofs.Fold.Leaves
import SelectiveEffects.Proofs.Fold.Applying
import SelectiveEffects.Proofs.Run.Refolding
import SelectiveEffects.Proofs.Tree.Routes
import SelectiveEffects.Proofs.Run.Routes
import SelectiveEffects.Proofs.Fold.Routes
import SelectiveEffects.Proofs.Analysis.Routes
import SelectiveEffects.Proofs.Run.Conditionals
import SelectiveEffects.Proofs.Run.Mapping
import SelectiveEffects.Proofs.Path.Deciding
import SelectiveEffects.Proofs.Fold.Recursion
import SelectiveEffects.Proofs.Context.Accumulating
import SelectiveEffects.Proofs.Context.Choosing
import SelectiveEffects.Proofs.Path.Initials
import SelectiveEffects.Proofs.Analysis.Chaining
import SelectiveEffects.Proofs.Analysis.Unrolling
import SelectiveEffects.Proofs.Run.Layering
import SelectiveEffects.Proofs.Run.Untagged
import SelectiveEffects.Proofs.Run.Deepening
import SelectiveEffects.Proofs.Run.Promises
