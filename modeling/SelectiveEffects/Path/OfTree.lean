import SelectiveEffects.Context.Free
import SelectiveEffects.Path.Basic

/-! The path expression of a tree. -/

namespace SelectiveEffects

/-- A path, and whether a deferred subtree was left out of it. -/
structure Survey where
  path : Path
  cut : Bool := false

namespace Survey

def nothing : Survey :=
  { path := .nothing }

def inOrder (x y : Survey) : Survey :=
  { path := .seqOf 0 [x.path, y.path], cut := x.cut || y.cut }

def maybe (x y : Survey) : Survey :=
  { path := .seqOf 0 [x.path, .altOf 0 [.nothing, y.path]], cut := x.cut || y.cut }

def oneOf (x left right : Survey) : Survey :=
  { path := .seqOf 0 [x.path, .altOf 0 [left.path, right.path]]
    cut := x.cut || left.cut || right.cut }

variable {P G σ : Type}

/-- An exclusive node takes one of its own handler and the handler of the selection below it. -/
def ofTreeWith (deferral : Source P G → Action σ Survey) : Tree P G → Action σ Survey
  | .pure _ => return nothing
  | .lifted e _ => do
    let label ← Action.ofExcept e.label
    return { path := .step 0 label }
  | .selection (.selection t l _ _) r _ .exclusive => do
    let x ← ofTreeWith deferral t
    let left ← ofTreeWith deferral l
    let right ← ofTreeWith deferral r
    return x.oneOf left right
  | .selection d h _ .always => do
    let x ← ofTreeWith deferral d
    let y ← ofTreeWith deferral h
    return x.inOrder y
  | .selection d h _ _ => do
    let x ← ofTreeWith deferral d
    let y ← ofTreeWith deferral h
    return x.maybe y
  | .deferred g _ => deferral (.host g)
  | .loop action _ => deferral (.loop action)
  | .foreign typeName => throw (.notTraversable typeName)
  | .unknown typeName => throw (.notTraversable typeName)

/-- A deferred subtree past the bound is left out, or refused. -/
def leaveOut (strict : Bool) : Action σ Survey :=
  if strict then throw (.unboundedTree Fault.loopReason)
  else return { path := .nothing, cut := true }

variable [Primitives P]

/-- Expands deferred nodes at most so many times inside one another. -/
def ofTree (gen : G → Action σ (Tree P G)) (strict : Bool) : Nat → Tree P G → Action σ Survey
  | 0, t => ofTreeWith (fun _ => leaveOut strict) t
  | n + 1, t =>
    ofTreeWith (fun source => do
      let inner ← source.expand gen
      ofTree gen strict n inner) t

end Survey

end SelectiveEffects
