import SelectiveEffects.Fault

/-! Values that pipelines carry: data, tags, and functions represented as data. -/

namespace SelectiveEffects

/-- What an object of one of the host's own classes shows of itself: the name of its class, what
testing its truth comes to, and the fault that reading its payload raises, if it raises one. -/
structure Facade where
  className : String
  truth : Except Fault Bool := .ok true
  refusal : Option Fault := none

/-- The function values from `identity` on are closures over values. `P` names the host's own
functions, which may hold captured arguments. An `object` is of a class of the host's own, and nothing
is asked of it but its truth and its payload. A `marked` value is one function, fault or object, told
apart from others like it by its mark; in all else it is what it marks. -/
inductive Val (P : Type) where
  | null
  | bool (b : Bool)
  | int (n : Int)
  | text (s : String)
  | left (v : Val P)
  | right (v : Val P)
  | tuple (items : List (Val P))
  | fault (e : Fault)
  | success (v : Val P)
  | failure (errors : List (Val P))
  | object (facade : Facade) (payload : Val P)
  | identity
  | toLeft
  | toRight
  | constant (v : Val P)
  | compose (f g : Val P)
  | either (onLeft onRight : Val P)
  | applyTo (v : Val P)
  | flip (f : Val P)
  | flipped (f b : Val P)
  | uncurry (f : Val P)
  | branch (condition f g : Val P)
  | mapRight (f : Val P)
  | mapLeft (f : Val P)
  | pairOrApply (tagged : Val P)
  | prim (p : P) (captured : List (Val P))
  | marked (mark : Nat) (v : Val P)

/-- The host's functions that a name alone stands for. Each is the same wherever it is named. -/
class Named (P : Type) extends BEq P where
  named : P → Bool

namespace Val

variable {P : Type}

instance : Inhabited (Val P) := ⟨null⟩

def isFunction : Val P → Bool
  | null | bool _ | int _ | text _ | left _ | right _ | tuple _ | fault _ | success _
  | failure _ | object _ _ => false
  | marked _ v => v.isFunction
  | _ => true

def typeName : Val P → String
  | null => "NoneType"
  | bool _ => "bool"
  | int _ => "int"
  | text _ => "str"
  | left _ => "Left"
  | right _ => "Right"
  | tuple _ => "tuple"
  | fault e => e.kindName
  | success _ => "Success"
  | failure _ => "Failure"
  | object facade _ => facade.className
  | toLeft | toRight => "type"
  | marked _ v => v.typeName
  | _ => "function"

/-- False are the absent value, false itself, zero, the empty text and the empty tuple. An object of
the host's own answers for itself, and its answer may be a fault. -/
def truth : Val P → Except Fault Bool
  | null => .ok false
  | bool b => .ok b
  | int n => .ok (n != 0)
  | text s => .ok (s != "")
  | tuple items => .ok (!items.isEmpty)
  | object facade _ => facade.truth
  | marked _ v => v.truth
  | _ => .ok true

/-- Goes by the truth of a value, or by the fault of testing it. -/
def byTruth {α : Type} (f : Bool → α) (fails : Fault → α) (v : Val P) : α :=
  match v.truth with
  | .ok b => f b
  | .error e => fails e

def fault? : Val P → Option Fault
  | fault e => some e
  | marked _ v => v.fault?
  | _ => none

def isLeft : Val P → Bool
  | left _ => true
  | _ => false

def isRight : Val P → Bool
  | right _ => true
  | _ => false

/-- Truth values count as the numbers one and zero. -/
def number? : Val P → Option Int
  | bool b => some (if b then 1 else 0)
  | int n => some n
  | _ => none

mutual

/-- Equality of values. Truth values equal the numbers one and zero at any depth. Functions, faults
and objects are equal when they carry one mark, and a function that a name alone stands for is the
same everywhere. Any other function, fault or object was made by a call, and equals nothing. -/
def same [Named P] : Val P → Val P → Bool
  | null, null => true
  | text s, text t => s == t
  | left v, left w | right v, right w | success v, success w => same v w
  | tuple vs, tuple ws | failure vs, failure ws => sameAll vs ws
  | identity, identity | toLeft, toLeft | toRight, toRight => true
  | prim p [], prim q [] => Named.named p && p == q
  | marked m _, marked n _ => m == n
  | v, w =>
    match v.number?, w.number? with
    | some m, some n => m == n
    | _, _ => false

def sameAll [Named P] : List (Val P) → List (Val P) → Bool
  | [], [] => true
  | v :: vs, w :: ws => same v w && sameAll vs ws
  | _, _ => false

end

mutual

/-- How many function layers a value holds. -/
def weight : Val P → Nat
  | left v | right v | success v => v.weight
  | tuple vs | failure vs => weightAll vs
  | null | bool _ | int _ | text _ | fault _ => 0
  | object _ payload => payload.weight
  | identity | toLeft | toRight => 1
  | constant v | applyTo v | flip v | uncurry v | mapRight v | mapLeft v | pairOrApply v =>
    1 + v.weight
  | compose f g | either f g | flipped f g => 1 + f.weight + g.weight
  | branch c f g => 1 + c.weight + f.weight + g.weight
  | prim _ vs => 1 + weightAll vs
  | marked _ v => 1 + v.weight

def weightAll : List (Val P) → Nat
  | [] => 0
  | v :: vs => v.weight + weightAll vs

end

mutual

def render : Val P → String
  | null => "None"
  | bool b => if b then "True" else "False"
  | int n => toString n
  | text s => Quoted.text s
  | left v => "Left(value=" ++ v.render ++ ")"
  | right v => "Right(value=" ++ v.render ++ ")"
  | tuple [] => "()"
  | tuple [v] => "(" ++ v.render ++ ",)"
  | tuple (v :: w :: vs) => "(" ++ v.render ++ renderRest (w :: vs) ++ ")"
  | fault e => e.render
  | success v => "Success(value=" ++ v.render ++ ")"
  | failure [] => "Failure(errors=())"
  | failure [v] => "Failure(errors=(" ++ v.render ++ ",))"
  | failure (v :: w :: vs) => "Failure(errors=(" ++ v.render ++ renderRest (w :: vs) ++ "))"
  | object facade _ => "<" ++ facade.className ++ " object>"
  | marked _ v => v.render
  | _ => "<function>"

def renderRest : List (Val P) → String
  | [] => ""
  | v :: vs => ", " ++ v.render ++ renderRest vs

end

/-- The payload that tags, successes and objects of the host's own expose. -/
def payload? : Val P → Except Fault (Val P)
  | left v | right v | success v => .ok v
  | object facade payload =>
    match facade.refusal with
    | some e => .error e
    | none => .ok payload
  | marked _ v => v.payload?
  | v => .error (.noMember v.typeName "value")

@[simp] theorem isLeft_left (v : Val P) : (left v).isLeft = true := rfl

@[simp] theorem isRight_right (v : Val P) : (right v).isRight = true := rfl

@[simp] theorem truth_bool (b : Bool) : (bool b : Val P).truth = .ok b := rfl

@[simp] theorem truth_object (facade : Facade) (v : Val P) :
    (object facade v).truth = facade.truth := rfl

theorem byTruth_of_ok {α : Type} {f : Bool → α} {fails : Fault → α} {v : Val P} {b : Bool}
    (h : v.truth = .ok b) : v.byTruth f fails = f b := by
  rw [byTruth, h]

theorem byTruth_of_error {α : Type} {f : Bool → α} {fails : Fault → α} {v : Val P} {e : Fault}
    (h : v.truth = .error e) : v.byTruth f fails = fails e := by
  rw [byTruth, h]

@[simp] theorem payload?_left (v : Val P) : (left v).payload? = .ok v := rfl

@[simp] theorem payload?_right (v : Val P) : (right v).payload? = .ok v := rfl

@[simp] theorem payload?_success (v : Val P) : (success v).payload? = .ok v := rfl

end Val

end SelectiveEffects
