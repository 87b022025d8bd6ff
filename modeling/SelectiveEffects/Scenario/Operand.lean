import SelectiveEffects.Context.Task
import SelectiveEffects.Context.Validation
import SelectiveEffects.Fold.Basic
import SelectiveEffects.Scenario.Expr
import SelectiveEffects.Scenario.World

/-! What expressions build: trees, tasks and other values, whatever the context. -/

namespace SelectiveEffects.Scenario

open Builtin (Value)

mutual

/-- A construction put off, a deferred node handed over by a fold, or the repetition of a loop. -/
inductive Gen where
  | closure (c : Closure Operand)
  | refold (d : Deferral Builtin Gen)
  | again (eager : Bool) (action : Task Builtin World Gen)

/-- A tree may carry a mark, which every operation that makes a tree of it drops. -/
inductive Operand where
  | value (v : Value)
  | tree (mark : Option Nat) (t : Tree Builtin Gen)
  | task (t : Task Builtin World Gen)

end

abbrev Pipeline := Tree Builtin Gen

abbrev Job := Task Builtin World Gen

namespace Operand

def ofTree (t : Pipeline) : Operand :=
  tree none t

def typeName : Operand → String
  | value v => v.typeName
  | tree _ t => t.typeName
  | task _ => "Task"

def asTree : Operand → Pipeline
  | tree _ t => t
  | x => .foreign x.typeName

/-- Only tasks can be called. -/
def asTask : Operand → Job
  | task t => t
  | x => .done (.error (.notCallable x.typeName))

/-- A literal tree exposes its value as a success does. -/
def asVerdict : Operand → Except Fault Value
  | value v => .ok v
  | tree _ (.pure v) => .ok (.success v)
  | x => .error (.noMember x.typeName "value")

/-- The verdict that a value is. Nothing else is one. -/
def verdictOrNull : Operand → Value
  | value v => v
  | _ => .null

def isFailure : Operand → Bool
  | value (.failure _) => true
  | _ => false

/-- Trees and tags know how to map themselves. -/
def mapByMethod (f : Value) : Operand → Except Fault Operand
  | value v => value <$> (Val.mapRight f).call v
  | tree _ t => ofTree <$> t.fmap f.call
  | task _ => .error (.noMember "Task" "map")

def labels (ls : List String) : Operand :=
  value (.tuple (ls.map .text))

def joinFault (x y : Operand) : Fault :=
  match x with
  | value (.tuple _) =>
    typeFault ("can only concatenate tuple (not \"" ++ y.typeName ++ "\") to tuple")
  | value (.text _) =>
    typeFault ("can only concatenate str (not \"" ++ y.typeName ++ "\") to str")
  | x =>
    typeFault ("unsupported operand type(s) for +: '" ++ x.typeName ++ "' and '" ++ y.typeName ++ "'")

/-- Tuples and texts are appended, and numbers are added. -/
def join : Operand → Operand → Except Fault Operand
  | value (.tuple vs), value (.tuple ws) => .ok (value (.tuple (vs ++ ws)))
  | value (.text s), value (.text t) => .ok (value (.text (s ++ t)))
  | value v, value w =>
    match v.number?, w.number? with
    | some m, some n => .ok (value (.int (m + n)))
    | _, _ => .error (joinFault (value v) (value w))
  | x, y => .error (joinFault x y)

/-- Labels, each listed twice. -/
def doubled : Operand → Operand
  | value (.tuple vs) => value (.tuple (vs ++ vs))
  | x => x

/-- Marks what an operation on trees may have worked out: the value of a literal tree, and that of
a literal disjunction. -/
def markInTree : Pipeline → Run Pipeline
  | .pure v => .pure <$> World.made v.withMarks
  | .selection (.pure v) h k route => do
    let v ← World.made v.withMarks
    return .selection (.pure v) h k route
  | t => return t

/-- Marks what an operation on marked operands made before anything runs. -/
def withMarks : Operand → Run Operand
  | value v => value <$> World.made v.withMarks
  | tree (some mark) t => return tree mark t
  | tree none t => do
    let t ← markInTree t
    let mark ← World.newNumber
    return tree mark t
  | task t => return task t

end Operand

/-- Raises a fault given as a value. -/
def release (v : Value) : Run Value :=
  match v.fault? with
  | some e => throw e
  | none => return v

/-- A task that logs its label, and raises its value or returns it. -/
def leafTask (label : String) (v : Value) : Job :=
  .ofAction do
    World.notePerformed label
    release v

end SelectiveEffects.Scenario
