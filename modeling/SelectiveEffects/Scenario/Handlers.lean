import SelectiveEffects.Interpreter.Run
import SelectiveEffects.Scenario.Dialects

/-! Handlers described by what they answer. -/

namespace SelectiveEffects.Scenario

open Builtin (Value)

/-- A script is given by its answers; once made, by its number. -/
inductive HandlerRule (S : Type) where
  | payload
  | label
  | className
  | const (v : Value)
  | apply (f : Value)
  | script (s : S)
  | async (h : HandlerRule S)
  | awaitable (h : HandlerRule S)
  | mixed (labels : List String) (h other : HandlerRule S)

abbrev ScenarioHandler := Handler Builtin World

namespace HandlerRule

def prepare : HandlerRule Script → Run (HandlerRule Nat)
  | payload => return payload
  | label => return label
  | className => return className
  | const v => return const v
  | apply f => return apply f
  | script s => script <$> World.newScript s
  | async h => async <$> h.prepare
  | awaitable h => awaitable <$> h.prepare
  | mixed labels h other => do
    let h ← h.prepare
    let other ← other.prepare
    return mixed labels h other

def exhausted (label : String) : Fault :=
  .raised .lookup ("script exhausted: " ++ label)

/-- Awaits a reply at once. -/
def settle : Reply Builtin World → Run Value
  | .value v => return v
  | .later action => action

/-- What a handler answers to an effect. An asynchronous one does nothing until it is awaited. -/
def answer (e : Effect Builtin) : HandlerRule Nat → Run (Reply Builtin World)
  | payload => .value <$> release e.payload
  | label => (fun l => .value (.text l)) <$> Action.ofExcept e.label
  | className => return .value (.text e.className)
  | const v => .value <$> release v
  | apply f => .value <$> Action.ofExcept (f.call e.payload)
  | script number => do
    let l ← Action.ofExcept e.label
    match ← World.pop number l with
    | .unlisted => .value <$> release e.payload
    | .exhausted => throw (exhausted l)
    | .value v => .value <$> release v
  | async h => return .later (do settle (← h.answer e))
  | awaitable h => do
    let v ← settle (← h.answer e)
    return .later (pure v)
  | mixed labels h other => do
    let l ← Action.ofExcept e.label
    if labels.contains l then h.answer e else other.answer e

def handler (h : HandlerRule Nat) : ScenarioHandler := fun e => do
  World.noteCall
  h.answer e

end HandlerRule

/-- Rules by class name. A class may be entered without a rule. -/
abbrev HandlerRules := List (String × Option (HandlerRule Script))

def prepareHandler : Option (HandlerRule Script) → Run (Option ScenarioHandler)
  | some h => do
    let h ← h.prepare
    return some h.handler
  | none => return none

def prepareHandlers (rules : HandlerRules) : Run (HandlerTable Builtin World) :=
  rules.mapM fun rule => do
    let h ← prepareHandler rule.2
    return (rule.1, h)

end SelectiveEffects.Scenario
