import SelectiveEffects.Scenario.Analyses
import SelectiveEffects.Scenario.Runs

/-! Sessions: named runners and trees, used one step after another. -/

namespace SelectiveEffects.Scenario

namespace Session

def unknownName {α : Type} (name : String) : Run α :=
  throw (.raised .lookup name)

def runner (s : Session) (name : String) : Run Runner :=
  match s.runners.lookup name with
  | some I => return I
  | none => unknownName name

def tree (s : Session) (name : String) : Run Pipeline :=
  match s.trees.lookup name with
  | some t => return t
  | none => unknownName name

def withRunner (s : Session) (name : String) (I : Runner) : Session :=
  { s with runners := assign name I s.runners }

def handlerNames (I : Runner) : SessionAnswer :=
  .handlers ((I.handlers.map (·.1)).mergeSort fun a b => !decide (b < a))

def step (s : Session) : SessionStep → Run (SessionAnswer × Session)
  | .makeRunner name spec => do
    let I ← spec.prepare
    return (handlerNames I, s.withRunner name I)
  | .layer name source rules => do
    let I ← s.runner source
    let handlers ← prepareHandlers rules
    let I := I.withHandlers handlers
    return (handlerNames I, s.withRunner name I)
  | .showHandlers name => do
    let I ← s.runner name
    return (handlerNames I, s)
  | .assignHandler _ => throw .sealedTable
  | .makeTree name x => do
    let x ← pipelineDialect.build s.refs {} x
    let t := x.asTree
    let labels ← Action.ofExcept (effectLabels t)
    return (.effects labels, { s with trees := assign name t s.trees })
  | .analyse name unroll => do
    let t ← s.tree name
    let S ← analyseTree (pipelineGen s.refs) t unroll false Analysis.defaultMaxSequences
    return (.sequences S.sorted S.truncated, s)
  | .run runnerName treeName mode => do
    let I ← s.runner runnerName
    let t ← s.tree treeName
    let r ← recordRun I (pipelineGen s.refs) mode t
    return (.record r, s)

/-- The answers to all steps. A step that fails changes no name. -/
def steps (s : Session) : List SessionStep → Run (List (Except Fault SessionAnswer))
  | [] => return []
  | step :: rest => do
    match ← Action.outcome (s.step step) with
    | .ok (answer, s) => do
      let answers ← s.steps rest
      return .ok answer :: answers
    | .error e => do
      let answers ← s.steps rest
      return .error e :: answers

end Session

def runSession (defs : List (String × Expr)) (steps : List SessionStep) :
    Run (List (Except Fault SessionAnswer)) := do
  let refs ← pipelineDialect.buildDefs [] defs
  Session.steps { refs := refs } steps

end SelectiveEffects.Scenario
