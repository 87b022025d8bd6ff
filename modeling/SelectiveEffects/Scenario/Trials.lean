import SelectiveEffects.Fold.Worklist
import SelectiveEffects.Laws
import SelectiveEffects.Scenario.Runs

/-! Trials of contexts: building expressions in them, folding trees into them, and their laws. -/

namespace SelectiveEffects.Scenario

open Builtin (Value)

inductive ContextName where
  | free
  | everyLabel
  | blind
  | reverse
  | doubler
  | bare
  | task
  | eager
  | validation
  | greedy
  deriving DecidableEq, Repr

def ContextName.ofName? : String → Option ContextName
  | "free" => some .free
  | "over" => some .everyLabel
  | "blind" => some .blind
  | "reverse" => some .reverse
  | "doubler" => some .doubler
  | "bare" => some .bare
  | "task" => some .task
  | "eager" => some .eager
  | "validation" => some .validation
  | "greedy" => some .greedy
  | _ => none

/-- One call of a task: its value, what it performed, and what it expanded. -/
structure CallRecord where
  value : Except Fault Value
  performed : List String
  forced : List String

/-- What is seen of a value of a context. -/
inductive Observation where
  | calls (records : List CallRecord)
  | tree (shape : Shape) (effects : List String) (run : RunRecord)
  | verdict (v : Value) (success : Bool)
  | value (v : Value)

/-- How a value is looked at: how often a task is called, and the setting for debugging. -/
structure Viewing where
  times : Nat := 1
  debug : Bool := false

def ContextName.dialect : ContextName → Dialect
  | .free => freeDialect
  | .everyLabel => labelDialect "OverContext" "over" labelCore
  | .blind => labelDialect "BlindContext" "handler-blind" blindLabels
  | .reverse => labelDialect "ReverseContext" "reverse" reversedLabels
  | .doubler => labelDialect "DoublerContext" "doubler" doubledLabels
  | .bare => labelDialect "BareContext" "selective" bareLabels
  | .task => taskDialect false
  | .eager => taskDialect true
  | .validation => verdictDialect "ValidationContext" Context.validation
  | .greedy => verdictDialect "GreedyContext" greedyContext

def payloadRunner (debug : Bool) : Runner :=
  { handlers := [("EffectBase", some (HandlerRule.handler .payload))]
    maxSteps := some 5000
    debug := debug }

def observeTree (gen : Gen → Run Pipeline) (debug : Bool) (t : Pipeline) : Run Observation := do
  let shape ← Action.ofExcept (Shape.ofTree t)
  let labels ← Action.ofExcept (effectLabels t)
  let r ← recordRun (payloadRunner debug) gen .sync t
  return .tree shape labels r

def callOnce (gen : Gen → Run Operand) (t : Job) : Run CallRecord := do
  modify fun w => { w with performed := [] }
  let before ← get
  let value ← Action.outcome (callTask gen t)
  let after ← get
  return {
    value
    performed := after.performed.reverse
    forced := after.forcedSince before.forced.length }

def seenVerdict : Value → Observation
  | .success v => .verdict (.success v) true
  | .failure errors => .verdict (.failure errors) false
  | v => .value v

/-- How an operand is looked at depends on what it is, not on the context it was built in. -/
def Operand.observe (gen : Gen → Run Operand) (viewing : Viewing) : Operand → Run Observation
  | value v => return seenVerdict v
  | tree _ t => observeTree (treesOf gen) viewing.debug t
  | task t => .calls <$> (List.range viewing.times).mapM fun _ => callOnce gen t

structure ContextRequest where
  context : ContextName
  defs : List (String × Expr) := []
  expr : Expr
  viewing : Viewing := {}

structure ContextReport where
  built : List String
  seen : Observation

def ContextRequest.report (r : ContextRequest) : Run ContextReport := do
  let d := r.context.dialect
  let refs ← d.buildDefs [] r.defs
  let x ← d.build refs {} r.expr
  let built := (← get).performed.reverse
  let seen ← x.observe (regenerate d refs noUnfolding) r.viewing
  return { built, seen }

structure FoldRequest where
  context : ContextName
  defs : List (String × Expr) := []
  tree : Expr
  unroll : Option Int := some 0
  onUnbounded : Option Expr := none
  twice : Bool := false
  viewing : Viewing := {}

/-- Labels given to the meaning of effects and what was expanded, while folding and afterwards. -/
structure FoldReport where
  visited : List String
  forced : List String
  outcome : Except Fault (Observation × List String)

/-- An effect becomes a leaf with its label and payload. -/
def leafOf (d : Dialect) (twice : Bool) (e : Effect Builtin) : Run Operand := do
  let label ← Action.ofExcept e.label
  World.noteVisited label
  let x := d.leaf label e.payload
  return if twice then x.doubled else x

def FoldRequest.folding (r : FoldRequest) (d : Dialect) (gen : Gen → Run Pipeline) :
    Folding World Builtin Gen Gen Operand where
  context := d.context.inAction
  interpret := leafOf d r.twice
  gen := gen
  onUnbounded := r.onUnbounded.map fun x => d.build [] {} x
  suspend := .refold

def FoldRequest.fold (r : FoldRequest) (I : Folding World Builtin Gen Gen Operand)
    (t : Pipeline) : Run Operand := do
  let unroll ← Action.ofExcept (Fault.Limit.optional Fault.Limit.foldUnroll.natural r.unroll)
  match ← I.foldByWork depthLimit unroll t with
  | some x => return x
  | none => throw endless

/-- The observation after a fold, where what is expanded counts apart. -/
def Observation.withoutForced : Observation → Observation
  | .calls records => .calls (records.map fun c => { c with forced := [] })
  | .tree shape effects run => .tree shape effects { run with forced := [] }
  | seen => seen

def FoldRequest.report (r : FoldRequest) : Run FoldReport := do
  let (t, refs) ← buildPipeline r.defs r.tree
  let d := r.context.dialect
  let I := r.folding d (pipelineGen refs)
  let folded ← Action.outcome (r.fold I t)
  let w ← get
  let visited := w.visited.reverse
  let forced := w.forced.reverse
  match folded with
  | .error e => return { visited, forced, outcome := .error e }
  | .ok x => do
    let seen ← x.observe (regenerate d [] I.unfold) r.viewing
    let later := (← get).forcedSince w.forced.length
    return { visited, forced, outcome := .ok (seen.withoutForced, later) }

end SelectiveEffects.Scenario
