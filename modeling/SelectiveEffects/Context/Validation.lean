import SelectiveEffects.Context.Basic

/-! The context that collects the errors of independent failures. -/

namespace SelectiveEffects

namespace Validation

variable {P : Type}

/-- Values that are not successes pass unchanged. -/
def map (f : Fun P) : Val P → Except Fault (Val P)
  | .success v => (f v).map .success
  | v => .ok v

variable [Primitives P]

/-- A failed disjunction offers no choice, so errors of the handler are not reported. -/
def handle (x y : Val P) : Except Fault (Val P) :=
  match x with
  | .failure errors => .ok (.failure errors)
  | x => do
    match ← x.payload? with
    | .left a => map (Val.applyTo a).call y
    | tagged => tagged.payload?.map .success

def ap (f x : Val P) : Except Fault (Val P) :=
  match f, x with
  | .failure es, .failure fs => .ok (.failure (es ++ fs))
  | .failure es, _ => .ok (.failure es)
  | _, .failure fs => .ok (.failure fs)
  | f, x => do
    let g ← f.payload?
    let v ← x.payload?
    (g.call v).map .success

end Validation

namespace Context

variable {P D : Type} [Primitives P]

def validation : Context (Except Fault) P D (Val P) :=
  { strict "validation" ⟨fun v => .ok (.success v), Validation.map, Validation.handle⟩ with
    ap := Validation.ap }

end Context

end SelectiveEffects
