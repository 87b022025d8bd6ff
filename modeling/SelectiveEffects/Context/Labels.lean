import SelectiveEffects.Context.Basic

/-! The context that collects the labels of every effect that might run. -/

namespace SelectiveEffects.Context

variable {P D F : Type}

/-- Values are forgotten, and what a handler collects counts whether or not it would run. -/
def collecting (nothing : F) (join : F → F → Except Fault F) : Selective (Except Fault) P F where
  unit _ := .ok nothing
  map _ x := .ok x
  handle := join

def everyLabelCore : Selective (Except Fault) P (List String) :=
  collecting [] fun x y => .ok (x ++ y)

def everyLabel [Primitives P] : Context (Except Fault) P D (List String) :=
  strict "over" everyLabelCore

end SelectiveEffects.Context
