import SelectiveEffects.Action
import SelectiveEffects.Tree.Basic

/-! Selective contexts: three operations, and the control flow that follows from them. -/

namespace SelectiveEffects

/-- `handle x y` applies the function of `y` only when `x` yields a left tag. -/
structure Selective (m : Type → Type) (P F : Type) where
  unit : Val P → m F
  map : Fun P → F → m F
  handle : F → F → m F

namespace Selective

variable {m : Type → Type} [Monad m] {P F : Type} [Primitives P]

def select (S : Selective m P F) (x left right : F) : m F := do
  let tagged ← S.map Fun.retag x
  let viaLeft ← S.map Fun.thenRight left
  let inner ← S.handle tagged viaLeft
  S.handle inner right

def ap (S : Selective m P F) (f x : F) : m F := do
  let disjunction ← S.map Val.toLeft.call f
  let handler ← S.map Fun.applying x
  S.handle disjunction handler

end Selective

/-- A named context. It may have its own selection and application, and says what becomes of a
deferred value and of a loop. `D` names deferred computations. -/
structure Context (m : Type → Type) (P D F : Type) extends Selective m P F where
  name : String
  select : F → F → F → m F
  ap : F → F → m F
  defer : D → m F
  whileS : F → m F

/-- A context that can also choose what to run from a value. -/
structure MonadicContext (m : Type → Type) (P D F : Type) extends Context m P D F where
  bind : F → (Val P → Except Fault F) → m F

namespace Context

/-- A context that refuses to defer. Selection and application are the derived ones. -/
def strict {P D F : Type} [Primitives P] (name : String)
    (S : Selective (Except Fault) P F) : Context (Except Fault) P D F where
  toSelective := S
  name := name
  select := S.select
  ap := S.ap
  defer _ := .error (.unboundedTree (Fault.contextReason name))
  whileS _ := .error (.unboundedTree (Fault.contextReason name))

/-- The same context among actions. -/
def inAction {σ P D F : Type} (C : Context (Except Fault) P D F) :
    Context (Action σ) P D F where
  name := C.name
  unit v := Action.ofExcept (C.unit v)
  map f x := Action.ofExcept (C.map f x)
  handle x y := Action.ofExcept (C.handle x y)
  select x l r := Action.ofExcept (C.select x l r)
  ap f x := Action.ofExcept (C.ap f x)
  defer d := Action.ofExcept (C.defer d)
  whileS x := Action.ofExcept (C.whileS x)

/-- The same context among values of a wider type. -/
def among {m : Type → Type} [Monad m] {P D F E : Type} (into : F → E) (within : E → F)
    (C : Context m P D F) : Context m P D E where
  name := C.name
  unit v := into <$> C.unit v
  map f x := into <$> C.map f (within x)
  handle x y := into <$> C.handle (within x) (within y)
  select x l r := into <$> C.select (within x) (within l) (within r)
  ap f x := into <$> C.ap (within f) (within x)
  defer d := into <$> C.defer d
  whileS x := into <$> C.whileS (within x)

variable {m : Type → Type} [Monad m] {P D F : Type}

/-- Applies a curried function of the host to two values. -/
def liftA2 (C : Context m P D F) (fn : P) (x y : F) : m F := do
  let partially ← C.map (fun a => .ok (.prim fn [a])) x
  C.ap partially y

def ifS (C : Context m P D F) (condition onTrue onFalse : F) : m F := do
  let tagged ← C.map Fun.truthToTag condition
  let left ← C.map Fun.constantly onTrue
  let right ← C.map Fun.constantly onFalse
  C.select tagged left right

def whenS (C : Context m P D F) (condition action : F) : m F := do
  let skip ← C.unit .null
  C.ifS condition action skip

def orS (C : Context m P D F) (x y : F) : m F := do
  let yes ← C.unit (.bool true)
  C.ifS x yes y

def andS (C : Context m P D F) (x y : F) : m F := do
  let no ← C.unit (.bool false)
  C.ifS x y no

def orAll (C : Context m P D F) (xs : List F) : m F := do
  let no ← C.unit (.bool false)
  xs.foldrM C.orS no

def andAll (C : Context m P D F) (xs : List F) : m F := do
  let yes ← C.unit (.bool true)
  xs.foldrM C.andS yes

def anyS {α : Type} (C : Context m P D F) (predicate : α → m F) (items : List α) : m F := do
  let no ← C.unit (.bool false)
  let xs ← items.mapM predicate
  xs.foldrM C.orS no

def allS {α : Type} (C : Context m P D F) (predicate : α → m F) (items : List α) : m F := do
  let yes ← C.unit (.bool true)
  let xs ← items.mapM predicate
  xs.foldrM C.andS yes

/-- Uses the value of `x` unless it is absent, in which case the fallback runs. -/
def fromMaybe (C : Context m P D F) (fallback x : F) : m F := do
  let tagged ← C.map Fun.absentToTag x
  let handler ← C.map Fun.constantly fallback
  C.handle tagged handler

end Context

namespace MonadicContext

variable {P D F : Type} [Primitives P]

/-- Handling that inspects the tag before it chooses what to run. -/
def handleM (C : MonadicContext (Except Fault) P D F) (x y : F) : Except Fault F :=
  C.bind x fun
    | .left a => C.map (Val.applyTo a).call y
    | .right b => C.unit b
    | v => .error (.noMember v.typeName "either")

end MonadicContext

end SelectiveEffects
