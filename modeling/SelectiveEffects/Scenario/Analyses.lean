import SelectiveEffects.Possibilities
import SelectiveEffects.Scenario.Shape

/-! Analysing trees, and path expressions built by hand. -/

namespace SelectiveEffects.Scenario

open Builtin (Value)

structure AnalysisRequest where
  defs : List (String × Expr) := []
  tree : Expr
  unroll : Int := 0
  strict : Bool := false
  maxSequences : Int := Analysis.defaultMaxSequences
  withPath : Bool := true

/-- Everything that analysis says of a tree, each answer or its fault by itself. `forced` counts
what the first analysis expanded, and the path comes from another one. -/
structure AnalysisReport where
  possibilities : Except Fault PossibilitySet
  forced : Nat
  path : Option (Except Fault Path)
  necessary : Except Fault (List String)
  dependencies : Except Fault (List String)
  effects : Except Fault (List String)

def noteWarnings (warnings : List AnalysisWarning) : Run Unit :=
  warnings.forM fun w =>
    World.noteLine ("WARNING doselect.analysis.possibilities " ++ w.line)

def analyseTree (gen : Gen → Run Pipeline) (t : Pipeline) (unroll : Int) (strict : Bool)
    (maxSequences : Int) : Run PossibilitySet := do
  let S ← Analysis.possibilities gen t unroll strict maxSequences
  noteWarnings (Analysis.warnings S unroll maxSequences)
  return S

def AnalysisRequest.report (r : AnalysisRequest) : Run AnalysisReport := do
  let (t, refs) ← buildPipeline r.defs r.tree
  let gen := pipelineGen refs
  let analysis := analyseTree gen t r.unroll r.strict r.maxSequences
  let possibilities ← Action.outcome analysis
  let forced := (← get).forced.length
  let path ← if r.withPath then
      some <$> Action.outcome ((fun S => S.path.getD .nothing) <$> analysis)
    else pure none
  let necessary ← Action.outcome (Analysis.necessary gen t r.unroll)
  let dependencies ← Action.outcome (Analysis.dependencies gen t r.unroll)
  return { possibilities, forced, path, necessary, dependencies, effects := effectLabels t }

/-- The sequence that a value stands for: a text is the sequence of its characters. -/
def sequenceOf? : Value → Option (List Value)
  | .text s => some (s.toList.map fun c => .text c.toString)
  | .tuple vs => some vs
  | _ => none

def textOf? : Value → Option String
  | .text s => some s
  | _ => none

/-- Whether a value is one of the sequences. One that holds anything but labels is none of them. -/
def isPossible (S : PossibilitySet) (v : Value) : Except Fault Bool :=
  match sequenceOf? v with
  | some vs => .ok ((vs.mapM textOf?).any S.contains)
  | none => .error (.notIterable v.typeName)

/-- A path as it is written. The lower forms keep their parts as they stand. -/
inductive PathExpr where
  | empty
  | newEmpty
  | step (label : String)
  | seq (parts : List PathExpr)
  | alt (options : List PathExpr)
  | rawSeq (parts : List PathExpr)
  | rawAlt (options : List PathExpr)
  | ref (name : String)

namespace PathExpr

/-- A new tag, above that of the shared empty path. -/
def newTag : StateM Nat Nat :=
  modifyGet fun next => (next, next + 1)

mutual

def build (refs : List (String × Path)) : PathExpr → StateM Nat Path
  | empty => return .nothing
  | newEmpty => return .empty (← newTag)
  | step label => return .step (← newTag) label
  | seq ps => do
    let ps ← buildAll refs ps
    return .seqOf (← newTag) ps
  | alt ps => do
    let ps ← buildAll refs ps
    return .altOf (← newTag) ps
  | rawSeq ps => do
    let ps ← buildAll refs ps
    return .seq (← newTag) ps
  | rawAlt ps => do
    let ps ← buildAll refs ps
    return .alt (← newTag) ps
  | ref name => return (refs.lookup name).getD .nothing

def buildAll (refs : List (String × Path)) : List PathExpr → StateM Nat (List Path)
  | [] => return []
  | p :: ps => do
    let p ← build refs p
    let ps ← buildAll refs ps
    return p :: ps

end

def buildDefs (refs : List (String × Path)) :
    List (String × PathExpr) → StateM Nat (List (String × Path))
  | [] => return refs
  | (name, p) :: rest => do
    let p ← p.build refs
    buildDefs (refs ++ [(name, p)]) rest

def toPath (defs : List (String × PathExpr)) (p : PathExpr) : Path :=
  let build : StateM Nat Path := do
    let refs ← buildDefs [] defs
    p.build refs
  (build.run 1).1

end PathExpr

end SelectiveEffects.Scenario
