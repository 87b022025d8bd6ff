import SelectiveEffects.Context.Labels
import SelectiveEffects.Effect.Catalogue
import SelectiveEffects.Scenario.Build

/-! The contexts that scenarios are told in. -/

namespace SelectiveEffects.Scenario

open Builtin (Value)

/-- Trees built by the operations of the tree context. -/
def freeDialect : Dialect where
  context := Context.free.among .ofTree Operand.asTree
  typeName := "FreeSelective"
  leaf label v := .ofTree (.lift (.token label v))
  deferValue _ := .error .notDeferrable

/-- Trees built by the control flow on trees, where a conditional action has no value. -/
def pipelineDialect : Dialect :=
  { freeDialect with whenS := fun c a => .ofTree <$> Tree.whenS c.asTree a.asTree }

def labelCore : Selective (Except Fault) Builtin Operand :=
  Context.collecting (.labels []) Operand.join

def blindLabels : Selective (Except Fault) Builtin Operand :=
  { labelCore with handle := fun x _ => .ok x }

def reversedLabels : Selective (Except Fault) Builtin Operand :=
  { labelCore with handle := fun x y => y.join x }

def doubledLabels : Selective (Except Fault) Builtin Operand :=
  { labelCore with map := fun _ x => x.join x }

def bareLabels : Selective (Except Fault) Builtin Operand :=
  { labelCore with unit := fun _ => .ok (.labels ["pure"]) }

def refusal (name : String) : Fault :=
  .unboundedTree (Fault.contextReason name)

def labelDialect (typeName name : String)
    (S : Selective (Except Fault) Builtin Operand) : Dialect where
  context := .strict name S
  typeName := typeName
  leaf label _ := .labels [label]
  deferValue _ := .error (refusal name)

/-- A value that already is a verdict is one, and any other succeeds. -/
def verdictOf : Value → Value
  | .success v => .success v
  | .failure errors => .failure errors
  | v => .success v

/-- A choice that reports the errors of both operands when both failed. -/
def greedyHandle (x y : Value) : Except Fault Value :=
  match x, y with
  | .failure es, .failure fs => .ok (.failure (es ++ fs))
  | x, y => Validation.handle x y

def greedyContext : Context (Except Fault) Builtin Gen Value :=
  { Context.strict "greedy" ⟨fun v => .ok (.success v), Validation.map, greedyHandle⟩ with
    ap := Validation.ap }

/-- Mapping leaves what is not a verdict as it is, and so does handling with a handler that is
none. An absent value stands for it there, since it passes unchanged as well. -/
def verdictCore (S : Selective (Except Fault) Builtin Value) :
    Selective (Except Fault) Builtin Operand where
  unit v := .value <$> S.unit v
  map f
    | .value v => .value <$> S.map f v
    | x => .ok x
  handle x y := do
    let v ← x.asVerdict
    match ← S.handle v y.verdictOrNull with
    | .null => return y
    | w => return .value w

/-- A failure on either side is the outcome of an application, whatever the other side is. -/
def verdictContext (C : Context (Except Fault) Builtin Gen Value) :
    Context (Except Fault) Builtin Gen Operand :=
  { Context.strict C.name (verdictCore C.toSelective) with
    ap := fun f x =>
      if f.isFailure || x.isFailure then .value <$> C.ap f.verdictOrNull x.verdictOrNull
      else do
        let g ← f.asVerdict
        let v ← x.asVerdict
        .value <$> C.ap g v }

def verdictDialect (typeName : String) (C : Context (Except Fault) Builtin Gen Value) :
    Dialect where
  context := verdictContext C
  typeName := typeName
  leaf _ v := .value (verdictOf v)
  deferValue _ := .error (refusal C.name)

/-- Runs the handler whatever the tag, and applies it on a left one. -/
def eagerHandle (x y : Job) : Job :=
  x.bind fun tagged => y.bind fun f =>
    match tagged with
    | .left a => .done (f.call a)
    | v => .done v.payload?

def eagerCore : Selective (Except Fault) Builtin Job :=
  { Context.taskCore with handle := fun x y => .ok (eagerHandle x y) }

def taskContext (eager : Bool) : MonadicContext (Except Fault) Builtin Gen Job :=
  if eager then Context.taskOf "eager-task" eagerCore (.again true)
  else Context.task (.again false)

def taskDialect (eager : Bool) : Dialect where
  context := (taskContext eager).toContext.among .task Operand.asTask
  typeName := if eager then "EagerContext" else "TaskContext"
  bind := some fun x f =>
    .task <$> (taskContext eager).bind x.asTask fun v => Operand.asTask <$> f v
  handleM := some fun x y => .task <$> (taskContext eager).handleM x.asTask y.asTask
  leaf label v := .task (leafTask label v)
  deferValue v := .ok (.task (Operand.value v).asTask)

/-- A loop runs its action and, on a true value, starts over. -/
def againTask (eager : Bool) (action : Job) : Run Job :=
  let C := (taskContext eager).toContext
  Action.ofExcept (C.whenS action (.ofDeferred (.again eager action)))

/-- What generators stand for, given the named operands and the meaning of nodes that a fold hands
over. -/
def regenerate (d : Dialect) (refs : List (String × Operand))
    (unfold : Deferral Builtin Gen → Run Operand) : Gen → Run Operand
  | .closure c => d.resume refs c
  | .refold d => unfold d
  | .again eager action => .task <$> againTask eager action

/-- What generates something other than a tree is seen when the node that holds it is expanded. -/
def treesOf (gen : Gen → Run Operand) (g : Gen) : Run Pipeline :=
  Operand.asTree <$> gen g

/-- The meaning of handed over nodes where there is no fold. -/
def noUnfolding (_ : Deferral Builtin Gen) : Run Operand :=
  throw .notDeferrable

/-- Calls a task within a depth no scenario reaches. -/
def depthLimit : Nat := 1000000000000

/-- A call that never ends has no value to report. -/
def endless : Fault := .raised .runtime "the computation does not end"

def callTask (gen : Gen → Run Operand) (t : Job) : Run Value := do
  match ← t.call (fun g => Operand.asTask <$> gen g) depthLimit with
  | some v => return v
  | none => throw endless

end SelectiveEffects.Scenario
