import SelectiveEffects.Scenario.Shape

/-! Stepping the machine by hand, from any state. -/

namespace SelectiveEffects.Scenario

open Builtin (Value)

inductive ControlExpr where
  | tree (x : Expr)
  | value (v : Value)
  | fault (e : Fault)
  | effect (e : Effect Builtin)
  | unknown

inductive FrameExpr where
  | apply (f : Value)
  | select (handler : Expr)
  | argument (v : Value)
  | unknown

inductive Command where
  | step
  | steps (count : Nat)
  | resume (v : Value)
  | fail (e : Fault)

inductive ControlView where
  | tree (shape : Shape)
  | value (v : Value)
  | fault (e : Fault)
  | effect (label : String)
  | unknown

inductive FrameView where
  | apply
  | select (shape : Shape)
  | argument (v : Value)
  | unknown

/-- A running state, or how the machine ended. -/
inductive Position where
  | running (s : Machine.State Builtin Gen)
  | done (v : Value)
  | failed (e : Fault)

inductive PositionView where
  | running (control : ControlView) (frames : List FrameView)
  | done (v : Value)
  | failed (e : Fault)

/-- What a command shows. Nothing but `terminal` follows an end. -/
inductive CommandView where
  | start (p : PositionView)
  | stepped (p : PositionView) (same : Bool)
  | counted (p : PositionView) (count : Nat)
  | fault (e : Fault)
  | terminal

namespace Position

def viewControl : Machine.Control Builtin Gen → Except Fault ControlView
  | .tree t => (Shape.ofTree t).map .tree
  | .value v => .ok (.value v)
  | .fault e => .ok (.fault e)
  | .effect e => e.label.map .effect
  | .unknown => .ok .unknown

def viewFrame : Machine.Frame Builtin Gen → Except Fault FrameView
  | .apply _ => .ok .apply
  | .select h => (Shape.ofTree h).map .select
  | .argument v => .ok (.argument v)
  | .unknown => .ok .unknown

def view : Position → Except Fault PositionView
  | running s => do
    let control ← viewControl s.control
    let frames ← s.stack.mapM viewFrame
    return .running control frames
  | done v => .ok (.done v)
  | failed e => .ok (.failed e)

/-- The position after a step, and whether the state stayed as it was. -/
def after (s : Machine.State Builtin Gen) :
    Machine.Step Builtin Gen → Position × Bool
  | .next s' => (running s', false)
  | .unchanged => (running s, true)
  | .done v => (done v, false)
  | .failed e => (failed e, false)

def isEffect (s : Machine.State Builtin Gen) : Bool :=
  match s.control with
  | .effect _ => true
  | _ => false

/-- Steps until the count is used up, the machine ends, or an effect is pending. -/
def advance (gen : Gen → Run Pipeline) : Nat → Position → Nat → Run (Position × Nat)
  | 0, p, taken => return (p, taken)
  | count + 1, running s, taken =>
    if isEffect s then return (running s, taken)
    else do
      let r ← Machine.step gen s
      advance gen count (after s r).1 (taken + 1)
  | _ + 1, p, taken => return (p, taken)

/-- Carries out a command. A fault that escapes a single step leaves the state as it is. -/
def command (gen : Gen → Run Pipeline) (s : Machine.State Builtin Gen) :
    Command → Run (Position × CommandView)
  | .step => do
    match ← Action.outcome (Machine.step gen s) with
    | .error e => return (running s, .fault e)
    | .ok r =>
      let (p, same) := after s r
      return (p, .stepped (← Action.ofExcept p.view) same)
  | .steps count => do
    let (p, taken) ← advance gen count (running s) 0
    return (p, .counted (← Action.ofExcept p.view) taken)
  | .resume v => do
    let p := running (s.resume v)
    return (p, .start (← Action.ofExcept p.view))
  | .fail e => do
    let p := running (s.fail e)
    return (p, .start (← Action.ofExcept p.view))

def commands (gen : Gen → Run Pipeline) : Position → List Command → Run (List CommandView)
  | _, [] => return []
  | running s, c :: rest => do
    let (p, view) ← command gen s c
    let views ← commands gen p rest
    return view :: views
  | p, _ :: rest => do
    let views ← commands gen p rest
    return .terminal :: views

end Position

def buildControl : ControlExpr → Run (Machine.Control Builtin Gen)
  | .tree x => (fun x => .tree x.asTree) <$> pipelineDialect.build [] {} x
  | .value v => return .value v
  | .fault e => return .fault e
  | .effect e => return .effect e
  | .unknown => return .unknown

def buildFrame : FrameExpr → Run (Machine.Frame Builtin Gen)
  | .apply f => return .apply (some f.call)
  | .select x => (fun x => .select x.asTree) <$> pipelineDialect.build [] {} x
  | .argument v => return .argument v
  | .unknown => return .unknown

def stepByHand (control : ControlExpr) (frames : List FrameExpr) (commands : List Command) :
    Run (List CommandView) := do
  let control ← buildControl control
  let stack ← frames.mapM buildFrame
  let start := Position.running { control, stack }
  let view ← Action.ofExcept start.view
  let views ← Position.commands (pipelineGen []) start commands
  return .start view :: views

end SelectiveEffects.Scenario
