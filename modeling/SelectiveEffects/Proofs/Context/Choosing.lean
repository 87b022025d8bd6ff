import SelectiveEffects.Proofs.Fold.Applying

/-! Validations that choose report the errors of what was chosen, and of nothing else. -/

namespace SelectiveEffects

open Scenario

namespace Validation

variable {P D : Type}

/-- A search for a value of one truth ends at a validation that failed or that has such a value. -/
def ends (sought : Bool) : Val P → Bool
  | .failure _ => true
  | .success v => v.byTruth (· == sought) fun _ => false
  | _ => false

/-- The fault of testing the truth of a success, if the test raises one. -/
def truthFault? : Val P → Option Fault
  | .success v => v.byTruth (fun _ => none) some
  | _ => none

/-- What the first validation from the left that ends the search comes to. -/
def search (sought : Bool) (xs : List (Val P)) : Val P :=
  match xs.find? (ends sought) with
  | some (.failure errors) => .failure errors
  | some _ => .success (.bool sought)
  | none => .success (.bool !sought)

variable [Primitives P]

end Validation

end SelectiveEffects
