import SelectiveEffects.Scenario.Builtin

/-! The methods of tagged values, and applying functions to several arguments. -/

namespace SelectiveEffects.Scenario

open Builtin (Value)

inductive TagMethod where
  | isLeft
  | isRight
  | map (f : Value)
  | mapLeft (f : Value)
  | either (f g : Value)

namespace TagMethod

def flag (name : String) (test : Value → Bool) : Value → Except Fault Value
  | .left v => .ok (.bool (test (.left v)))
  | .right v => .ok (.bool (test (.right v)))
  | v => .error (.noMember v.typeName name)

def invoke (v : Value) : TagMethod → Except Fault Value
  | isLeft => flag "is_left" Val.isLeft v
  | isRight => flag "is_right" Val.isRight v
  | map f => (Val.mapRight f).call v
  | mapLeft f => (Val.mapLeft f).call v
  | either f g => (Val.either f g).call v

/-- The value after a method: mapping replaces it, unless it fails. -/
def next (v : Value) (m : TagMethod) : Value :=
  match m with
  | map _ | mapLeft _ => (m.invoke v).toOption.getD v
  | _ => v

def invokeAll : Value → List TagMethod → List (Except Fault Value)
  | _, [] => []
  | v, m :: ms => m.invoke v :: invokeAll (m.next v) ms

end TagMethod

/-- Applies a function to one argument after another. -/
def applyAll (f : Value) (args : List Value) : Except Fault Value :=
  args.foldlM Val.call f

/-- The qualified names of types, as they are shown when an effect was expected. -/
def qualifiedType : Value → String
  | .left _ => "doselect._vendor.Left"
  | .right _ => "doselect._vendor.Right"
  | .success _ => "doselect.contexts.validation.Success"
  | .failure _ => "doselect.contexts.validation.Failure"
  | v =>
    match v.fault? with
    | some e => if e.kind = .abort then "__main__.Abort" else e.kindName
    | none => v.typeName

end SelectiveEffects.Scenario
