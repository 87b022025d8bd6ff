import SelectiveEffects.Possibilities
import SelectiveEffects.Scenario.Trials

/-! Trying the laws of a context on samples. -/

namespace SelectiveEffects.Scenario

open Builtin (Value)

/-- How values of a context are compared: as they are, by running a tree under the setting for
debugging, by the labels of a tree, or by calling a task. -/
inductive Lens where
  | asIs
  | execute (debug : Bool)
  | labels
  | call
  deriving DecidableEq, Repr

inductive Seen where
  | value (v : Value)
  | tree (mark : Option Nat) (shape : Shape)

namespace Seen

/-- A tree that both sides of a law pass on has one mark. Other trees that are not literal values
hold functions made for one side alone, so no two of them are equal. -/
def same : Seen → Seen → Bool
  | value v, value w => v.same w
  | tree _ (.pure v), tree _ (.pure w) => v.same w
  | tree (some m) _, tree (some n) _ => m == n
  | _, _ => false

instance : BEq Seen := ⟨same⟩

def render : Seen → String
  | value v => v.render
  | tree _ (.pure v) => "Pure(value=" ++ v.render ++ ")"
  | tree _ _ => "<tree>"

end Seen

namespace Seen

def pairedWith (v : Value) (ls : List String) : Seen :=
  .value (.tuple [v, .tuple (ls.map .text)])

def ofRun (debug : Bool) (gen : Gen → Run Pipeline) (t : Pipeline) : Run Seen := do
  let r ← recordRun { payloadRunner debug with maxSteps := none } gen .sync t
  let r ← Action.ofExcept r.outcome
  let v ← Action.ofExcept r.result
  return pairedWith v r.trace

def ofLabels (gen : Gen → Run Pipeline) (t : Pipeline) : Run Seen := do
  let I := { Analysis.labelFolding gen with onUnbounded := none }
  let ls ← I.foldUpTo 1 t
  return .value (.tuple (ls.map .text))

def ofCall (gen : Gen → Run Operand) (t : Job) : Run Seen := do
  let r ← callOnce gen t
  let v ← Action.ofExcept r.value
  return pairedWith v r.performed

end Seen

/-- A task that is compared as it is has nothing to compare until it is called. -/
def Operand.look (gen : Gen → Run Operand) : Lens → Operand → Run Seen
  | .execute debug, x => Seen.ofRun debug (treesOf gen) x.asTree
  | .labels, x => Seen.ofLabels (treesOf gen) x.asTree
  | .call, x => Seen.ofCall gen x.asTask
  | .asIs, value v => return .value v
  | .asIs, tree mark t => .tree mark <$> Action.ofExcept (Shape.ofTree t)
  | .asIs, task t => Seen.ofCall gen t

structure SampleExprs where
  x : Expr
  y : Expr
  c : Expr
  choice : Expr
  z : Expr
  g : Value
  curried : Value
  value : Value

/-- Both sides of a law take what was made while building a sample from that sample. -/
def SampleExprs.build (d : Dialect) (refs : List (String × Operand)) (s : SampleExprs) :
    Run (LawSamples Builtin Operand) := do
  let make (x : Expr) : Run Operand := do
    let x ← d.build refs {} x
    x.withMarks
  let x ← make s.x
  let y ← make s.y
  let c ← make s.c
  let choice ← make s.choice
  let z ← make s.z
  let g ← World.made s.g.withMarks
  let curried ← World.made s.curried.withMarks
  let value ← World.made s.value.withMarks
  return { x, y, c, choice, z, g, curried, value }

inductive LawMode where
  | check
  | require
  | single (law : Law)

structure LawRequest where
  context : ContextName
  defs : List (String × Expr) := []
  samples : List SampleExprs
  lens : Lens := .asIs
  skip : List String := []
  mode : LawMode := .check

/-- When laws are required, the checks that failed come with the fault. -/
structure LawReport where
  checks : List (LawCheck Seen)
  fault : Option Fault := none

def LawRequest.report (r : LawRequest) : Run LawReport := do
  let d := { r.context.dialect with settle := Operand.withMarks }
  let defs ← d.buildDefs [] r.defs
  let refs ← defs.mapM fun (name, x) => do
    let x ← x.withMarks
    return (name, x)
  let samples ← r.samples.mapM fun s => s.build d refs
  let suite : LawSuite World Builtin Gen Operand Seen :=
    { context := d.context
      handleM := d.handleM
      observe := Operand.look (regenerate d refs noUnfolding) r.lens }
  match r.mode with
  | .check => return { checks := ← suite.checkAll samples r.skip }
  | .single law => return { checks := ← (samples.take 1).mapM fun s => suite.check s law }
  | .require => do
    let checks ← suite.checkAll samples r.skip
    let verdict := LawVerdict.of Seen.render d.context.name checks
    verdict.lines.forM World.noteLine
    match verdict.fault? Seen.render with
    | none => return { checks }
    | some e => return { checks := verdict.failures, fault := some e }

end SelectiveEffects.Scenario
