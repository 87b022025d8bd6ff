import SelectiveEffects.Effect.Catalogue
import SelectiveEffects.Scenario.Tags

/-! Capturing where effects are made, from a call stack. -/

namespace SelectiveEffects.Scenario

open Builtin (Value)

/-- What is captured: the site alone, an effect or some other value to give a site, or a token. A
number of frames to skip counts the capturing ones too. -/
inductive CaptureRequest where
  | site (skip : Option Nat)
  | effect (e : Effect Builtin) (skip : Option Nat)
  | value (v : Value)
  | token (name : String) (payload : Value)

/-- The site, and the effect that came back with it. -/
structure Capture where
  site : Option Site
  effect : Option (Effect Builtin × Effect Builtin) := none

/-- The frames left when some are skipped, of which the first `own` capture. Unless told otherwise
the caller is skipped as well. -/
def framesAfter (own : Nat) (skip : Option Nat) (frames : List CallFrame) : List CallFrame :=
  frames.drop (skip.getD (own + 1) - own)

/-- The innermost frame is the caller of the capture itself, and a creation adds one more between
them. -/
def CaptureRequest.capture (debug : Bool) (sources : Sources) (frames : List CallFrame) :
    CaptureRequest → Except Fault Capture
  | .site skip => .ok { site := Site.capture debug sources (framesAfter 1 skip frames) }
  | .effect e skip =>
    let site := Site.capture debug sources (framesAfter 2 skip frames)
    let e := (e.withMarks.run 0).1
    .ok { site := site, effect := some (e, e.withSite site) }
  | .value v => .error (.notEffect (qualifiedType v))
  | .token name payload =>
    let site := Site.capture debug sources frames
    let e := ((Effect.token name payload).withMarks.run 0).1
    .ok { site := site, effect := some (e, e.withSite site) }

end SelectiveEffects.Scenario
