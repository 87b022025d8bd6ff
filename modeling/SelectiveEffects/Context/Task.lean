import SelectiveEffects.Context.Basic

/-! Tasks: computations that do nothing until they are called. -/

namespace SelectiveEffects

/-- A finished task, an action to perform first, or a deferred computation to expand first. -/
inductive Task (P σ D : Type) where
  | done (result : Except Fault (Val P))
  | perform (action : Action σ (Val P)) (next : Val P → Task P σ D)
  | expand (d : D) (next : Val P → Task P σ D)

namespace Task

variable {P σ D : Type}

instance : Inhabited (Task P σ D) := ⟨done (.ok .null)⟩

def bind : Task P σ D → (Val P → Task P σ D) → Task P σ D
  | done (.ok v), f => f v
  | done (.error e), _ => done (.error e)
  | perform action next, f => perform action fun v => (next v).bind f
  | expand d next, f => expand d fun v => (next v).bind f

def ofExcept : Except Fault (Task P σ D) → Task P σ D
  | .ok t => t
  | .error e => done (.error e)

def ofAction (action : Action σ (Val P)) : Task P σ D :=
  perform action fun v => done (.ok v)

def ofDeferred (d : D) : Task P σ D :=
  expand d fun v => done (.ok v)

def map (f : Fun P) (t : Task P σ D) : Task P σ D :=
  t.bind fun v => done (f v)

/-- Calls a task whose deferred computations are valued by `force`. No value means that a budget
ran out. -/
def callWith (force : D → Action σ (Option (Val P))) :
    Task P σ D → Action σ (Option (Val P))
  | done result => some <$> Action.ofExcept result
  | perform action next => do
    let v ← action
    (next v).callWith force
  | expand d next => do
    match ← force d with
    | some v => (next v).callWith force
    | none => return none

/-- Calls a task, expanding deferred computations inside one another up to a depth. -/
def call (gen : D → Action σ (Task P σ D)) : Nat → Task P σ D → Action σ (Option (Val P))
  | 0, t => t.callWith fun _ => pure none
  | depth + 1, t =>
    t.callWith fun d => do
      let inner ← gen d
      inner.call gen depth

theorem bind_done (t : Task P σ D) : t.bind (fun v => done (.ok v)) = t := by
  induction t with
  | done result => cases result <;> rfl
  | perform action next ih => simp only [bind, ih]
  | expand d next ih => simp only [bind, ih]

theorem bind_assoc (t : Task P σ D) (f g : Val P → Task P σ D) :
    (t.bind f).bind g = t.bind fun v => (f v).bind g := by
  induction t with
  | done result => cases result <;> rfl
  | perform action next ih => simp only [bind, ih]
  | expand d next ih => simp only [bind, ih]

variable [Primitives P]

def handle (x y : Task P σ D) : Task P σ D :=
  x.bind fun
    | .left a => y.bind fun f => done (f.call a)
    | tagged => done tagged.payload?

end Task

namespace Context

variable {P σ D : Type} [Primitives P]

def taskCore : Selective (Except Fault) P (Task P σ D) where
  unit v := .ok (.done (.ok v))
  map f t := .ok (t.map f)
  handle x y := .ok (x.handle y)

/-- `again` names the deferred repetition of a loop. -/
def taskOf (name : String) (S : Selective (Except Fault) P (Task P σ D))
    (again : Task P σ D → D) : MonadicContext (Except Fault) P D (Task P σ D) where
  toSelective := S
  name := name
  select := S.select
  ap := S.ap
  defer d := .ok (.ofDeferred d)
  whileS action := .ok (.ofDeferred (again action))
  bind t f := .ok (t.bind fun v => Task.ofExcept (f v))

def task (again : Task P σ D → D) : MonadicContext (Except Fault) P D (Task P σ D) :=
  taskOf "task" taskCore again

end Context

end SelectiveEffects
