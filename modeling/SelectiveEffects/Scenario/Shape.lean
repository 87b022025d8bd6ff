import SelectiveEffects.Machine
import SelectiveEffects.Scenario.Dialects

/-! What can be seen of a tree without running it. -/

namespace SelectiveEffects.Scenario

open Builtin (Value)

/-- A node is mapped when something other than the identity is done to its value. -/
inductive Shape where
  | pure (v : Value)
  | lift (label : String) (mapped : Bool)
  | select (disjunction handler : Shape) (route : Route) (mapped : Bool)
  | defer (mapped : Bool)
  | foreign (typeName : String)

/-- The labels of effects must be readable. -/
def Shape.ofTree {G : Type} : Tree Builtin G → Except Fault Shape
  | .pure v => .ok (.pure v)
  | .lifted e k => e.label.map fun label => .lift label k.isSome
  | .selection d h k route => do
    let x ← ofTree d
    let y ← ofTree h
    return .select x y route k.isSome
  | .deferred _ k | .loop _ k => .ok (.defer k.isSome)
  | .foreign typeName | .unknown typeName => .ok (.foreign typeName)

def effectLabels {G : Type} (t : Tree Builtin G) : Except Fault (List String) :=
  t.effects.mapM fun e => e.label

/-- What a node does to a value last. Only some nodes do anything. -/
def probe {G : Type} (t : Tree Builtin G) (v : Value) : Except Fault Value :=
  match t with
  | .lifted _ k | .selection _ _ k _ | .deferred _ k | .loop _ k => k.apply v
  | t => .error (.noMember t.typeName "k")

/-- Expands a deferred node once. -/
def expandRoot (gen : Gen → Run Pipeline) (t : Pipeline) : Run Pipeline :=
  match t with
  | .deferred g _ => (Source.host g).expand gen
  | .loop action _ => (Source.loop action).expand gen
  | t => throw (.noMember t.typeName "force")

structure TreeReport where
  shape : Shape
  effects : List String
  probes : List (Except Fault Value)
  expansions : List (Except Fault Shape)

/-- Builds a tree among named operands. -/
def buildPipeline (defs : List (String × Expr)) (x : Expr) :
    Run (Pipeline × List (String × Operand)) := do
  let refs ← pipelineDialect.buildDefs [] defs
  let x ← pipelineDialect.build refs {} x
  return (x.asTree, refs)

def pipelineGen (refs : List (String × Operand)) : Gen → Run Pipeline :=
  treesOf (regenerate pipelineDialect refs noUnfolding)

def expansionShape (gen : Gen → Run Pipeline) (t : Pipeline) : Run Shape := do
  let inner ← expandRoot gen t
  Action.ofExcept (Shape.ofTree inner)

def treeReport (defs : List (String × Expr)) (x : Expr) (probes : List Value)
    (expansions : Nat) : Run TreeReport := do
  let (t, refs) ← buildPipeline defs x
  let shape ← Action.ofExcept (Shape.ofTree t)
  let effects ← Action.ofExcept (effectLabels t)
  let shapes ← (List.range expansions).mapM fun _ =>
    Action.outcome (expansionShape (pipelineGen refs) t)
  return { shape, effects, probes := probes.map (probe t), expansions := shapes }

end SelectiveEffects.Scenario
