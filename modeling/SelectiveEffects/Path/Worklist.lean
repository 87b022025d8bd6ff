import SelectiveEffects.Path.OfTree

/-! The path of a tree on a stack of jobs and a stack of paths, whatever the depth of the tree. -/

namespace SelectiveEffects.Survey

variable {P G σ : Type}

/-- A tree to visit within a budget of expansions, or a way to join the topmost paths. -/
inductive Job (P G : Type) where
  | visit (t : Tree P G) (budget : Nat)
  | inOrder
  | maybe
  | oneOf

/-- Both stacks have their top first. -/
structure Worklist (P G : Type) where
  jobs : List (Job P G)
  built : List Survey := []

variable [Primitives P]

def visitDeferral (gen : G → Action σ (Tree P G)) (strict : Bool) (source : Source P G)
    (budget : Nat) (w : Worklist P G) : Action σ (Worklist P G) :=
  match budget with
  | 0 => do
    let x ← leaveOut strict
    return { w with built := x :: w.built }
  | n + 1 => do
    let inner ← source.expand gen
    return { w with jobs := .visit inner n :: w.jobs }

def visit (gen : G → Action σ (Tree P G)) (strict : Bool) (budget : Nat) (w : Worklist P G) :
    Tree P G → Action σ (Worklist P G)
  | .pure _ => return { w with built := nothing :: w.built }
  | .lifted e _ => do
    let label ← Action.ofExcept e.label
    return { w with built := { path := .step 0 label } :: w.built }
  | .selection (.selection t l _ _) r _ .exclusive =>
    return { w with
      jobs := .visit t budget :: .visit l budget :: .visit r budget :: .oneOf :: w.jobs }
  | .selection d h _ .always =>
    return { w with jobs := .visit d budget :: .visit h budget :: .inOrder :: w.jobs }
  | .selection d h _ _ =>
    return { w with jobs := .visit d budget :: .visit h budget :: .maybe :: w.jobs }
  | .deferred g _ => visitDeferral gen strict (.host g) budget w
  | .loop action _ => visitDeferral gen strict (.loop action) budget w
  | .foreign typeName => throw (.notTraversable typeName)
  | .unknown typeName => throw (.notTraversable typeName)

/-- Takes the next job. No worklist means that none was left, or too few paths for it. -/
def work (gen : G → Action σ (Tree P G)) (strict : Bool) (w : Worklist P G) :
    Action σ (Option (Worklist P G)) :=
  match w.jobs, w.built with
  | .visit t budget :: jobs, built => some <$> visit gen strict budget { jobs, built } t
  | .inOrder :: jobs, y :: x :: built => return some { jobs, built := x.inOrder y :: built }
  | .maybe :: jobs, y :: x :: built => return some { jobs, built := x.maybe y :: built }
  | .oneOf :: jobs, r :: l :: x :: built => return some { jobs, built := x.oneOf l r :: built }
  | _, _ => return none

/-- Works until no job is left and returns the paths. No paths mean that the fuel ran out. -/
def exhaust (gen : G → Action σ (Tree P G)) (strict : Bool) :
    Nat → Worklist P G → Action σ (Option (List Survey))
  | 0, _ => return none
  | fuel + 1, w => do
    match ← work gen strict w with
    | some w => exhaust gen strict fuel w
    | none => return some w.built

/-- The survey by worklist. -/
def ofTreeByWork (gen : G → Action σ (Tree P G)) (strict : Bool) (fuel n : Nat) (t : Tree P G) :
    Action σ (Option Survey) := do
  let built ← exhaust gen strict fuel { jobs := [.visit t n] }
  return built.bind List.head?

end SelectiveEffects.Survey
