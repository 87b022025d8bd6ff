import SelectiveEffects.Context.Basic
import SelectiveEffects.Scenario.Operand

/-! Building what an expression describes in a context. -/

namespace SelectiveEffects.Scenario

open Builtin (Value)

/-- What expressions mean in a context. `typeName` is what missing operations are blamed on, and
`settle` is done to the outcome of every operation. -/
structure Dialect where
  context : Context (Except Fault) Builtin Gen Operand
  typeName : String
  bind : Option (Operand → (Value → Except Fault Operand) → Except Fault Operand) := none
  handleM : Option (Operand → Operand → Except Fault Operand) := none
  whenS : Operand → Operand → Except Fault Operand := context.whenS
  leaf : String → Value → Operand
  deferValue : Value → Except Fault Operand
  settle : Operand → Run Operand := fun x => return x

/-- The text that a test appends to its label. -/
def itemLabel (check : String) (item : Value) : Except Fault String :=
  (Builtin.shown item).map (check ++ ·)

/-- Without a function, or with the identity, a node keeps its value as it is. -/
def postOf : Option Value → Post Builtin
  | none | some .identity => none
  | some f => some f.call

namespace Dialect

def missing {α : Type} (d : Dialect) (operation : String) : Run α :=
  throw (.noMember d.typeName operation)

def testItem (d : Dialect) (t : ItemTest) (item : Value) : Except Fault Operand := do
  match t.check with
  | some check =>
    let label ← itemLabel check item
    let v ← t.test.call item
    return d.leaf label v
  | none =>
    let v ← t.test.call item
    d.context.unit v

/-- Applies an operation to its operands. -/
def combine (d : Dialect) (op : Operator) (xs : List Operand) : Run Operand :=
  let C := d.context
  match op, xs with
  | .handle, [x, y] => Action.ofExcept (C.handle x y)
  | .select, [x, l, r] => Action.ofExcept (C.select x l r)
  | .ap, [f, x] => Action.ofExcept (C.ap f x)
  | .ifS, [c, t, e] => Action.ofExcept (C.ifS c t e)
  | .whenS, [c, a] => Action.ofExcept (d.whenS c a)
  | .orS, [x, y] => Action.ofExcept (C.orS x y)
  | .andS, [x, y] => Action.ofExcept (C.andS x y)
  | .fromMaybe, [fallback, x] => Action.ofExcept (C.fromMaybe fallback x)
  | .whileS, [x] => Action.ofExcept (C.whileS x)
  | .handleM, [x, y] =>
    match d.handleM with
    | some f => Action.ofExcept (f x y)
    | none => d.missing "handle_m"
  | .basicSelect, [x, l, r] => Action.ofExcept (C.toSelective.select x l r)
  | .basicAp, [f, x] => Action.ofExcept (C.toSelective.ap f x)
  | .orAll, xs => Action.ofExcept (C.orAll xs)
  | .andAll, xs => Action.ofExcept (C.andAll xs)
  | _, _ => d.missing "operands"

def operate (d : Dialect) (outcome : Except Fault Operand) : Run Operand := do
  let x ← Action.ofExcept outcome
  d.settle x

def deferClosure (d : Dialect) (c : Closure Operand) : Run Operand :=
  Action.ofExcept (d.context.defer (.closure c))

/-- The expression that a continuation builds for a value. -/
def chosen (cases : List (Value × Expr)) (otherwise : Expr) (v : Value) : Expr :=
  match cases.find? fun c => v.same c.1 with
  | some c => c.2
  | none => otherwise

mutual

/-- Builds operands before the operation on them, from left to right. The values that an expression
is written with are made anew each time. -/
def build (d : Dialect) (refs : List (String × Operand)) (env : Env Operand) : Expr → Run Operand
  | .pure v => do
    let v ← World.made v.withMarks
    Action.ofExcept (d.context.unit v)
  | .leaf label v => d.leaf label <$> World.made v.withMarks
  | .leafAt labelStart v =>
    d.leaf (labelStart ++ toString env.index) <$> World.made v.withMarks
  | .lift e => do
    let e ← World.made e.withMarks
    return .ofTree (.lift e)
  | .liftValue v => throw (.notLiftable v.typeName)
  | .foreign v => .value <$> World.made v.withMarks
  | .oddNode => return .ofTree (.unknown "OddTree")
  | .map f x => do
    let f ← World.made f.withMarks
    let x ← build d refs env x
    d.operate (d.context.map f.call x)
  | .methodMap f x => do
    let f ← World.made f.withMarks
    let x ← build d refs env x
    d.operate (x.mapByMethod f)
  | .combine op operands => do
    let xs ← buildAll d refs env operands
    let x ← d.combine op xs
    d.settle x
  | .liftA2 b x y => do
    let x ← build d refs env x
    let y ← build d refs env y
    d.operate (d.context.liftA2 (.binary b) x y)
  | .anyS t => Action.ofExcept (d.context.anyS (d.testItem t) t.items)
  | .allS t => Action.ofExcept (d.context.allS (d.testItem t) t.items)
  | .bind x cases otherwise =>
    match d.bind with
    | none => do
      let _ ← build d refs env x
      d.missing "bind"
    | some bind => do
      let x ← build d refs env x
      Action.ofExcept <| bind x fun v =>
        d.context.defer (.closure { name := none, bodies := [chosen cases otherwise v], env })
  | .defer name body => d.deferClosure { name := some name, bodies := [body], env }
  | .deferSeq name bodies => do
    let counter ← World.newNumber
    d.deferClosure { name := some name, bodies, counter := some counter, env }
  | .deferValue v => Action.ofExcept (d.deferValue v)
  | .fix name body =>
    build d refs
      { env with bindings := { name, body, hole := env.hole, index := env.index } :: env.bindings }
      body
  | .var name =>
    match Env.bindingOf name env.bindings with
    | some (body, env) => d.deferClosure { name := some name, bodies := [body], env }
    | none => d.missing name
  | .nest count template base => do
    let base ← build d refs env base
    (List.range count).foldlM
      (fun x i => build d refs { env with hole := some x, index := i } template) base
  | .hole =>
    match env.hole with
    | some x => return x
    | none => d.missing "hole"
  | .ref name =>
    match refs.lookup name with
    | some x => return x
    | none => d.missing name
  | .rawPure v => do
    let v ← World.made v.withMarks
    return .ofTree (.pure v)
  | .rawLifted e k => do
    let e ← World.made e.withMarks
    let k ← k.mapM fun f => World.made f.withMarks
    return .ofTree (.lifted e (postOf k))
  | .rawSelection x y k route => do
    let x ← build d refs env x
    let y ← build d refs env y
    let k ← k.mapM fun f => World.made f.withMarks
    return .ofTree (.selection x.asTree y.asTree (postOf k) route)
  | .rawDeferred body k => do
    let k ← k.mapM fun f => World.made f.withMarks
    return .ofTree (.deferred (.closure { name := none, bodies := [body], env }) (postOf k))
  | .labels ls => return .labels ls
  | .task label v => (fun v => .task (leafTask label v)) <$> World.made v.withMarks

def buildAll (d : Dialect) (refs : List (String × Operand)) (env : Env Operand) :
    List Expr → Run (List Operand)
  | [] => return []
  | x :: xs => do
    let x ← build d refs env x
    let xs ← buildAll d refs env xs
    return x :: xs

end

/-- Builds named expressions in order, each seeing those before it. -/
def buildDefs (d : Dialect) (refs : List (String × Operand)) :
    List (String × Expr) → Run (List (String × Operand))
  | [] => return refs
  | (name, x) :: rest => do
    let x ← d.build refs {} x
    d.buildDefs (assign name x refs) rest

/-- Carries out a deferred construction. -/
def resume (d : Dialect) (refs : List (String × Operand)) (c : Closure Operand) : Run Operand := do
  if let some name := c.name then World.noteForced name
  let i ← match c.counter with
    | some counter => World.tick counter
    | none => pure 0
  match c.bodies[i]? <|> c.bodies.getLast? with
  | some body => d.build refs c.env body
  | none => d.missing "body"

end Dialect

end SelectiveEffects.Scenario
