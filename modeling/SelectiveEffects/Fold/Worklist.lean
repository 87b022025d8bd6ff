import SelectiveEffects.Fold.Basic

/-! The fold on a stack of jobs and a stack of values, whatever the depth of the tree. -/

namespace SelectiveEffects.Folding

variable {σ P G D F : Type}

/-- A tree to visit within a budget of expansions, or an operation on the topmost values. -/
inductive Job (P G : Type) where
  | visit (t : Tree P G) (budget : Option Nat)
  | handle (k : Post P)
  | map (k : Post P)

/-- Both stacks have their top first. -/
structure Worklist (P G F : Type) where
  jobs : List (Job P G)
  values : List F := []

variable [Primitives P]

def visitDeferral (I : Folding σ P G D F) (d : Deferral P G) (budget : Option Nat)
    (w : Worklist P G F) : Action σ (Worklist P G F) :=
  match budget with
  | none => do
    let x ← I.context.defer (I.suspend d)
    return { w with values := x :: w.values }
  | some 0 => do
    let x ← I.cut
    return { w with values := x :: w.values }
  | some (n + 1) => do
    let inner ← d.source.expand I.gen
    return { w with jobs := .visit inner (some n) :: .map d.k :: w.jobs }

def visit (I : Folding σ P G D F) (budget : Option Nat) (w : Worklist P G F) :
    Tree P G → Action σ (Worklist P G F)
  | .pure v => do
    let x ← I.context.unit v
    return { w with values := x :: w.values }
  | .lifted e k => do
    let x ← I.interpret e
    let y ← I.context.map k.apply x
    return { w with values := y :: w.values }
  | .selection d h k _ =>
    return { w with jobs := .visit d budget :: .visit h budget :: .handle k :: w.jobs }
  | .deferred g k => visitDeferral I ⟨.host g, k⟩ budget w
  | .loop action k => visitDeferral I ⟨.loop action, k⟩ budget w
  | .foreign typeName => throw (.notFoldable typeName)
  | .unknown typeName => throw (.notFoldable typeName)

/-- Takes the next job. No worklist means that none was left, or too few values for it. -/
def work (I : Folding σ P G D F) (w : Worklist P G F) :
    Action σ (Option (Worklist P G F)) :=
  match w.jobs, w.values with
  | .visit t budget :: jobs, values => some <$> visit I budget { jobs, values } t
  | .handle k :: jobs, y :: x :: values => do
    let z ← I.context.handle x y
    let mapped ← I.context.map k.apply z
    return some { jobs, values := mapped :: values }
  | .map k :: jobs, x :: values => do
    let y ← I.context.map k.apply x
    return some { jobs, values := y :: values }
  | _, _ => return none

/-- Works until no job is left and returns the values. No values mean that the fuel ran out. -/
def exhaust (I : Folding σ P G D F) : Nat → Worklist P G F → Action σ (Option (List F))
  | 0, _ => return none
  | fuel + 1, w => do
    match ← I.work w with
    | some w => I.exhaust fuel w
    | none => return some w.values

/-- The fold by worklist. -/
def foldByWork (I : Folding σ P G D F) (fuel : Nat) (unroll : Option Nat) (t : Tree P G) :
    Action σ (Option F) := do
  let values ← I.exhaust fuel { jobs := [.visit t unroll] }
  return values.bind List.head?

end SelectiveEffects.Folding
