import SelectiveEffects.Scenario.Handlers
import SelectiveEffects.Scenario.Shape

/-! Running trees in a world, and sessions of several runs. -/

namespace SelectiveEffects.Scenario

/-- The outcome is a fault when the run itself was cut short. -/
structure RunRecord where
  outcome : Except Fault (RunResult Builtin)
  calls : Nat
  forced : List String

abbrev Runner := Interpreter Builtin World

/-- Handlers, limits and the setting for debugging. -/
structure RunnerSpec where
  rules : HandlerRules := []
  fallback : Option (HandlerRule Script) := none
  maxSteps : Option Int := none
  maxTrace : Option Int := none
  debug : Bool := false

def RunnerSpec.prepare (spec : RunnerSpec) : Run Runner := do
  let handlers ← prepareHandlers spec.rules
  let fallback ← prepareHandler spec.fallback
  Action.ofExcept (Interpreter.make handlers fallback spec.maxSteps spec.maxTrace spec.debug)

def noteEvents (events : List RunEvent) : Run Unit :=
  events.forM fun e => World.noteLine ("DEBUG doselect.interpreter " ++ e.line)

def recordRun (I : Runner) (gen : Gen → Run Pipeline) (mode : Interpreter.Mode)
    (t : Pipeline) : Run RunRecord := do
  let before ← get
  match ← I.run gen mode depthLimit t with
  | none => throw endless
  | some report =>
    noteEvents report.events
    let after ← get
    return {
      outcome := report.outcome
      calls := after.calls - before.calls
      forced := after.forcedSince before.forced.length }

structure RunRequest where
  defs : List (String × Expr) := []
  tree : Expr
  runner : RunnerSpec
  mode : Interpreter.Mode := .sync
  oneOff : Bool := false

/-- A one-off run counts the failure to make its runner as its own. -/
def RunRequest.record (r : RunRequest) : Run RunRecord := do
  let (t, refs) ← buildPipeline r.defs r.tree
  match ← Action.outcome r.runner.prepare with
  | .ok runner => recordRun runner (pipelineGen refs) r.mode t
  | .error e =>
    if r.oneOff then return { outcome := .error e, calls := 0, forced := [] }
    throw e

inductive SessionStep where
  | makeRunner (name : String) (spec : RunnerSpec)
  | layer (name source : String) (rules : HandlerRules)
  | showHandlers (name : String)
  | assignHandler (name : String)
  | makeTree (name : String) (tree : Expr)
  | analyse (tree : String) (unroll : Int)
  | run (runner tree : String) (mode : Interpreter.Mode)

inductive SessionAnswer where
  | handlers (names : List String)
  | effects (labels : List String)
  | sequences (found : List (List String)) (truncated : Bool)
  | record (r : RunRecord)

/-- Names of runners and trees. -/
structure Session where
  refs : List (String × Operand) := []
  runners : List (String × Runner) := []
  trees : List (String × Pipeline) := []

end SelectiveEffects.Scenario
