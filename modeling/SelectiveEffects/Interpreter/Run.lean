import SelectiveEffects.Interpreter.Handlers
import SelectiveEffects.Machine

/-! Running a tree: the machine is stepped, and each effect it yields goes to its handler. -/

namespace SelectiveEffects

structure Interpreter (P σ : Type) where
  handlers : HandlerTable P σ := []
  fallback : Option (Handler P σ) := none
  maxSteps : Option Nat := none
  maxTrace : Option Nat := none
  debug : Bool := false

structure RunResult (P : Type) where
  result : Except Fault (Val P)
  trace : List String := []
  steps : Nat := 0

namespace RunResult

variable {P : Type}

def isOk (r : RunResult P) : Bool :=
  r.result.isOk

def error? (r : RunResult P) : Except Fault Fault :=
  match r.result with
  | .ok _ => .error .noError
  | .error e => .ok e

end RunResult

/-- What a run reports while it goes on. -/
inductive RunEvent where
  | stepped (number : Nat) (control : String)
  | performing (label : String)
  | effectFailed (origin : String) (e : Fault)
  | runFailed (e : Fault)
  deriving DecidableEq

def RunEvent.line : RunEvent → String
  | .stepped number control => s!"step {number}: {control}"
  | .performing label => s!"performing effect {label}"
  | .effectFailed origin e => s!"effect {origin} failed: " ++ e.render
  | .runFailed e => "run failed: " ++ e.render

/-- A finished run. The outcome is a fault only when the run itself was cut short by one. -/
structure RunReport (P : Type) where
  outcome : Except Fault (RunResult P)
  events : List RunEvent

/-- How far a run has come. Labels and events are newest first. -/
structure Progress where
  steps : Nat := 0
  recent : List String := []
  events : List RunEvent := []

namespace Progress

def report (p : Progress) (e : RunEvent) : Progress :=
  { p with events := e :: p.events }

def stepped (p : Progress) (debug : Bool) (control : String) : Progress :=
  let p := { p with steps := p.steps + 1 }
  if debug then p.report (.stepped p.steps control) else p

def performing (p : Progress) (label : String) : Progress :=
  { p with recent := label :: p.recent, events := .performing label :: p.events }

/-- The labels performed last, oldest first; all of them without a bound. -/
def trace (p : Progress) (bound : Option Nat) : List String :=
  match bound with
  | none => p.recent.reverse
  | some b => (p.recent.take b).reverse

@[simp] theorem report_steps (p : Progress) (e : RunEvent) : (p.report e).steps = p.steps := rfl

@[simp] theorem report_recent (p : Progress) (e : RunEvent) :
    (p.report e).recent = p.recent := rfl

@[simp] theorem stepped_steps (p : Progress) (debug : Bool) (control : String) :
    (p.stepped debug control).steps = p.steps + 1 := by
  unfold stepped
  split <;> rfl

@[simp] theorem stepped_recent (p : Progress) (debug : Bool) (control : String) :
    (p.stepped debug control).recent = p.recent := by
  unfold stepped
  split <;> rfl

end Progress

namespace Interpreter

variable {P G σ : Type}

/-- The limit on steps is checked first. -/
def make (handlers : HandlerTable P σ) (fallback : Option (Handler P σ))
    (maxSteps maxTrace : Option Int) (debug : Bool) : Except Fault (Interpreter P σ) := do
  let maxSteps ← Fault.Limit.optional Fault.Limit.maxSteps.positive maxSteps
  let maxTrace ← Fault.Limit.optional Fault.Limit.maxTrace.natural maxTrace
  return { handlers := HandlerTable.layer [] handlers, fallback, maxSteps, maxTrace, debug }

/-- A copy with further handlers layered over the table. -/
def withHandlers (I : Interpreter P σ) (handlers : HandlerTable P σ) : Interpreter P σ :=
  { I with handlers := HandlerTable.layer I.handlers handlers }

def resolve (I : Interpreter P σ) (e : Effect P) : Option (Handler P σ) :=
  HandlerTable.find? I.handlers e.lineage <|> I.fallback

/-- Whether the limit on steps leaves none to take. -/
def exhausted (I : Interpreter P σ) (p : Progress) : Option Nat :=
  I.maxSteps.filter fun limit => decide (limit ≤ p.steps)

def finish (I : Interpreter P σ) (p : Progress) (result : Except Fault (Val P)) : RunReport P :=
  { outcome := .ok { result := result, trace := p.trace I.maxTrace, steps := p.steps }
    events := p.events.reverse }

def failed (I : Interpreter P σ) (p : Progress) (e : Fault) : RunReport P :=
  I.finish (p.report (.runFailed e)) (.error e)

/-- A run that a fault cut short. -/
def aborted (p : Progress) (e : Fault) : RunReport P :=
  { outcome := .error e, events := p.events.reverse }

/-- Whether handlers may answer later. -/
inductive Mode where
  | sync
  | async
  deriving DecidableEq, Repr

/-- The value that a reply comes to. Only an asynchronous run awaits. A synchronous one also closes a
coroutine that it refuses, which is left out: closing does nothing to one that has not started. One
that its handler had already started may raise when it is closed, and that would pass the run. -/
def await (mode : Mode) (label : String) : Reply P σ → Action σ (Except Fault (Val P))
  | .value v => return .ok v
  | .later action =>
    match mode with
    | .sync => return .error (.awaitableReply label)
    | .async => Except.ok <$> action

/-- Notes why an effect failed. A reply that cannot be awaited is not such a failure. -/
def noteFailure (p : Progress) (e : Effect P) (label : String) (f : Fault) : Progress :=
  p.report (.effectFailed (e.origin label) f)

/-- Hands an effect to its handler: the next control, or the fault that cuts the run short.
An unreadable label cuts it short before any handler is called. -/
def perform (I : Interpreter P σ) (mode : Mode) (e : Effect P) (p : Progress) :
    Action σ (Except Fault (Machine.Control P G) × Progress) :=
  match e.label with
  | .error f => return (.error f, p)
  | .ok label =>
    match I.resolve e with
    | none => return (.ok (.fault e.unhandled), noteFailure p e label e.unhandled)
    | some h => do
      let p := p.performing label
      match ← Action.outcome (do await mode label (← h e)) with
      | .ok (.ok v) => return (.ok (.value v), p)
      | .ok (.error f) => return (.ok (.fault f), p)
      | .error f =>
        if f.escapes then return (.error f, p)
        return (.ok (.fault f), noteFailure p e label f)

variable [Primitives P]

/-- Drives the machine from a state. No report means that the fuel ran out. -/
def drive (I : Interpreter P σ) (gen : G → Action σ (Tree P G)) (mode : Mode) :
    Nat → Machine.State P G → Progress → Action σ (Option (RunReport P))
  | 0, _, _ => return none
  | fuel + 1, s, p =>
    match I.exhausted p with
    | some limit => return some (I.failed p (.stepLimit limit))
    | none => do
      match ← Action.outcome (Machine.step gen s) with
      | .error e => return some (aborted p e)
      | .ok r =>
        let p := p.stepped I.debug s.control.name
        match r with
        | .done v => return some (I.finish p (.ok v))
        | .failed e => return some (I.failed p e)
        | .unchanged => I.drive gen mode fuel s p
        | .next { control := .effect e, stack } => do
          match ← I.perform mode e p with
          | (.ok control, p) => I.drive gen mode fuel { control := control, stack := stack } p
          | (.error e, p) => return some (aborted p e)
        | .next s => I.drive gen mode fuel s p

def run (I : Interpreter P σ) (gen : G → Action σ (Tree P G)) (mode : Mode) (fuel : Nat)
    (t : Tree P G) : Action σ (Option (RunReport P)) :=
  I.drive gen mode fuel (.initial t) {}

end Interpreter

end SelectiveEffects
