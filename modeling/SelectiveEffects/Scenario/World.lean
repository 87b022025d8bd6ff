import SelectiveEffects.Action
import SelectiveEffects.Scenario.Builtin

/-! What a scenario's runs leave behind: logs, counters and the state of scripted handlers. -/

namespace SelectiveEffects.Scenario

/-- Answers still to be given, by label. -/
abbrev Script := List (String × List Builtin.Value)

/-- Logs are newest first. Counters and scripts are numbered by the order of their creation. -/
structure World where
  forced : List String := []
  performed : List String := []
  visited : List String := []
  calls : Nat := 0
  lines : List String := []
  counters : List (Nat × Nat) := []
  scripts : List (Nat × Script) := []
  fresh : Nat := 0

abbrev Run (α : Type) := Action World α

/-- Replaces the entry of a key, or adds one. -/
def assign {κ α : Type} [BEq κ] (key : κ) (a : α) : List (κ × α) → List (κ × α)
  | [] => [(key, a)]
  | (k, b) :: rest => if k == key then (k, a) :: rest else (k, b) :: assign key a rest

namespace World

def noteForced (name : String) : Run Unit :=
  modify fun w => { w with forced := name :: w.forced }

def notePerformed (label : String) : Run Unit :=
  modify fun w => { w with performed := label :: w.performed }

def noteVisited (label : String) : Run Unit :=
  modify fun w => { w with visited := label :: w.visited }

def noteCall : Run Unit :=
  modify fun w => { w with calls := w.calls + 1 }

def noteLine (line : String) : Run Unit :=
  modify fun w => { w with lines := line :: w.lines }

def newNumber : Run Nat :=
  modifyGet fun w => (w.fresh, { w with fresh := w.fresh + 1 })

/-- Makes anew what carries marks. -/
def made {α : Type} (make : StateM Nat α) : Run α :=
  modifyGet fun w =>
    let (a, fresh) := make.run w.fresh
    (a, { w with fresh })

/-- Counts up and returns the count before. -/
def tick (counter : Nat) : Run Nat :=
  modifyGet fun w =>
    let n := (w.counters.lookup counter).getD 0
    (n, { w with counters := assign counter (n + 1) w.counters })

def newScript (script : Script) : Run Nat := do
  let number ← newNumber
  modify fun w => { w with scripts := (number, script) :: w.scripts }
  return number

/-- A pop of a label that the script does not list yields nothing. -/
inductive Pop where
  | unlisted
  | exhausted
  | value (v : Builtin.Value)

def popFrom (script : Script) (label : String) : Pop × Script :=
  match script.lookup label with
  | none => (.unlisted, script)
  | some [] => (.exhausted, script)
  | some (v :: vs) => (.value v, assign label vs script)

def pop (number : Nat) (label : String) : Run Pop :=
  modifyGet fun w =>
    let (popped, script) := popFrom ((w.scripts.lookup number).getD []) label
    (popped, { w with scripts := assign number script w.scripts })

/-- The names forced since the log had a given length, oldest first. -/
def forcedSince (w : World) (length : Nat) : List String :=
  (w.forced.take (w.forced.length - length)).reverse

end World

end SelectiveEffects.Scenario
