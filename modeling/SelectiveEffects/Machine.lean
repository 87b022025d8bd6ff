import SelectiveEffects.Context.Free

/-! The stepping machine: a control, a stack of frames, and one step at a time. -/

namespace SelectiveEffects.Machine

variable {P G σ : Type}

/-- What the machine works on. An `effect` waits to be performed from outside. -/
inductive Control (P G : Type) where
  | tree (t : Tree P G)
  | value (v : Val P)
  | fault (e : Fault)
  | effect (e : Effect P)
  | unknown

/-- What is left to do with a value: apply a continuation, choose whether to run a handler, or
apply it as a handler to an argument. -/
inductive Frame (P G : Type) where
  | apply (k : Post P)
  | select (handler : Tree P G)
  | argument (a : Val P)
  | unknown

/-- The top of the stack comes first. -/
structure State (P G : Type) where
  control : Control P G
  stack : List (Frame P G) := []

inductive Step (P G : Type) where
  | next (s : State P G)
  | unchanged
  | done (v : Val P)
  | failed (e : Fault)

def Control.name : Control P G → String
  | .tree _ => "TreeControl"
  | .value _ => "Value"
  | .fault _ => "Error"
  | .effect _ => "EffectYield"
  | .unknown => "Unknown"

namespace State

def initial (t : Tree P G) : State P G :=
  { control := .tree t }

/-- Continues after the pending effect produced a value. -/
def resume (s : State P G) (v : Val P) : State P G :=
  { s with control := .value v }

def fail (s : State P G) (e : Fault) : State P G :=
  { s with control := .fault e }

def depth (s : State P G) : Nat :=
  s.stack.length

@[simp] theorem resume_stack (s : State P G) (v : Val P) : (s.resume v).stack = s.stack := rfl

@[simp] theorem fail_stack (s : State P G) (e : Fault) : (s.fail e).stack = s.stack := rfl

end State

/-- The identity leaves no frame behind. -/
def push (k : Post P) (stack : List (Frame P G)) : List (Frame P G) :=
  match k with
  | none => stack
  | some _ => .apply k :: stack

/-- A value, or an ordinary fault, as the next control. -/
def ofResult (stack : List (Frame P G)) : Except Fault (Val P) → State P G
  | .ok v => { control := .value v, stack := stack }
  | .error e => { control := .fault e, stack := stack }

variable [Primitives P]

def expandStep (gen : G → Action σ (Tree P G)) (source : Source P G) (k : Post P)
    (stack : List (Frame P G)) : Action σ (Step P G) := do
  match ← Action.attempt (source.expand gen) with
  | .ok t => return .next { control := .tree t, stack := push k stack }
  | .error e => return .next { control := .fault e, stack := stack }

def treeStep (gen : G → Action σ (Tree P G)) (stack : List (Frame P G)) :
    Tree P G → Action σ (Step P G)
  | .pure v => return .next { control := .value v, stack := stack }
  | .lifted e k => return .next { control := .effect e, stack := .apply k :: stack }
  | .selection d h k _ =>
    return .next { control := .tree d, stack := .select h :: push k stack }
  | .deferred g k => expandStep gen (.host g) k stack
  | .loop action k => expandStep gen (.loop action) k stack
  | .foreign typeName | .unknown typeName =>
    return .next { control := .fault (.notInterpretable typeName), stack := stack }

def valueStep (v : Val P) (frame : Frame P G) (rest : List (Frame P G)) :
    Action σ (Step P G) :=
  match frame with
  | .apply k => do return .next (ofResult rest (← Action.attemptResult (k.apply v)))
  | .select h =>
    match v with
    | .left a => return .next { control := .tree h, stack := .argument a :: rest }
    | .right b => return .next { control := .value b, stack := rest }
    | v => return .next { control := .fault (.untaggedDisjunction v.typeName), stack := rest }
  | .argument a => do return .next (ofResult rest (← Action.attemptResult (v.call a)))
  | .unknown => return .unchanged

/-- One step. A fault ends the run at once, and a pending effect is not stepped over. -/
def step (gen : G → Action σ (Tree P G)) (s : State P G) : Action σ (Step P G) :=
  match s.control, s.stack with
  | .tree t, stack => treeStep gen stack t
  | .effect _, _ => return .unchanged
  | .fault e, _ => return .failed e
  | .value v, [] => return .done v
  | .value v, frame :: rest => valueStep v frame rest
  | .unknown, _ => return .unchanged

end SelectiveEffects.Machine
