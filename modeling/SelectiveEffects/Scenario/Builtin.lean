import SelectiveEffects.Value.Call

/-! The functions that scenarios may name. -/

namespace SelectiveEffects.Scenario

inductive Binary where
  | add
  | sub
  | mul
  | div
  | pair
  | first
  | second
  | boom
  deriving DecidableEq, Repr

/-- `withRight` fixes the second argument of a binary function and `binary` its first; both capture
that argument, as `greater`, `equals` and `pairWith` do with theirs. -/
inductive Builtin where
  | inc
  | dec
  | double
  | triple
  | square
  | neg
  | even
  | inverse
  | tagEven
  | absentIfNegative
  | negate
  | tagLeft
  | tagRight
  | absent
  | showText
  | first
  | second
  | size
  | greater
  | equals
  | raise (kind : Fault.Kind) (text : String)
  | prefixed (s : String)
  | pairWith
  | curry (b : Binary)
  | binary (b : Binary)
  | withRight (b : Binary)
  deriving DecidableEq, Repr

namespace Builtin

/-- Whether a name alone stands for the function, with nothing captured or chosen. -/
def isNamed : Builtin → Bool
  | greater | equals | raise _ _ | prefixed _ | pairWith | curry _ | binary _ | withRight _ => false
  | _ => true

end Builtin

instance : Named Builtin where
  named := Builtin.isNamed

def divisionFault : Fault :=
  .raised .zeroDivision "div: division by zero"

def typeFault (message : String) : Fault :=
  .raised .type message

namespace Binary

def arithmetic? : Binary → Option (String × (Int → Int → Except Fault Int))
  | .add => some ("add", fun a b => .ok (a + b))
  | .sub => some ("sub", fun a b => .ok (a - b))
  | .mul => some ("mul", fun a b => .ok (a * b))
  | .div => some ("div", fun a b => if b = 0 then .error divisionFault else .ok (Int.fdiv a b))
  | _ => none

def ofName? : String → Option Binary
  | "add" => some .add
  | "sub" => some .sub
  | "mul" => some .mul
  | "div" => some .div
  | "pair" => some .pair
  | "first" => some .first
  | "second" => some .second
  | "boom" => some .boom
  | _ => none

/-- Arithmetic takes numbers only, not truth values. -/
def run (b : Binary) (x y : Val Builtin) : Except Fault (Val Builtin) :=
  match b.arithmetic? with
  | some (name, f) =>
    match x, y with
    | .int m, .int n => (f m n).map .int
    | x, y => .error (typeFault (name ++ ": expected ints, got " ++ x.typeName ++ ", " ++ y.typeName))
  | none =>
    match b with
    | .pair => .ok (.tuple [x, y])
    | .first => .ok x
    | .second => .ok y
    | _ => .error (.raised .value "boom")

theorem weight_run {b : Binary} {x y v : Val Builtin} (h : b.run x y = .ok v) :
    v.weight ≤ x.weight + y.weight := by
  unfold run at h
  split at h
  · split at h
    · obtain ⟨n, -, rfl⟩ := exists_of_map_eq_ok h
      simp [Val.weight]
    · cases h
  · split at h <;> cases h <;> simp [Val.weight, Val.weightAll]

end Binary

namespace Builtin

abbrev Value := Val Builtin

def needsInt (name : String) (x : Value) (f : Int → Except Fault Value) : Except Fault Value :=
  match x with
  | .int n => f n
  | x => .error (typeFault (name ++ ": expected int, got " ++ x.typeName))

def onInt (name : String) (f : Int → Int) (x : Value) : Except Fault Value :=
  needsInt name x fun n => .ok (.int (f n))

/-- Numbers and texts as they are written, and truth values in small letters. -/
def shown : Value → Except Fault String
  | .int n => .ok (toString n)
  | .text s => .ok s
  | .bool b => .ok (if b then "true" else "false")
  | v => .error (typeFault ("show: cannot show " ++ v.typeName))

def pairParts (name : String) : Value → Except Fault (Value × Value)
  | .tuple [a, b] => .ok (a, b)
  | v => .error (typeFault (name ++ ": expected pair, got " ++ v.typeName))

def sizeOf : Value → Except Fault Value
  | .text s => .ok (.int s.length)
  | .tuple vs => .ok (.int vs.length)
  | v => .error (typeFault ("len: expected str or tuple, got " ++ v.typeName))

def inverseOf (n : Int) : Except Fault Value :=
  if n = 0 then .error divisionFault else .ok (.int (Int.fdiv 100 n))

def exceeds (x bound : Value) : Except Fault Value :=
  needsInt "gt" x fun n => .ok (.bool (decide ((bound.number?.getD 0) < n)))

/-- A function is only ever made with the arguments it captures. -/
def unsaturated : Fault := typeFault "missing captured argument"

def run (p : Builtin) (captured : List Value) (x : Value) : Except Fault Value :=
  match p, captured with
  | .inc, _ => onInt "inc" (· + 1) x
  | .dec, _ => onInt "dec" (· - 1) x
  | .double, _ => onInt "double" (2 * ·) x
  | .triple, _ => onInt "triple" (3 * ·) x
  | .square, _ => onInt "square" (fun n => n * n) x
  | .neg, _ => onInt "neg" (- ·) x
  | .even, _ => needsInt "even" x fun n => .ok (.bool (n % 2 == 0))
  | .inverse, _ => needsInt "inv" x inverseOf
  | .tagEven, _ =>
    needsInt "tag_even" x fun n => .ok (if n % 2 == 0 then .left (.int n) else .right (.int n))
  | .absentIfNegative, _ =>
    needsInt "null_if_neg" x fun n => .ok (if n < 0 then .null else .int n)
  | .negate, _ => x.truth.map fun b => .bool !b
  | .tagLeft, _ => .ok (.left x)
  | .tagRight, _ => .ok (.right x)
  | .absent, _ => .ok .null
  | .showText, _ => (shown x).map .text
  | .first, _ => (pairParts "fst" x).map (·.1)
  | .second, _ => (pairParts "snd" x).map (·.2)
  | .size, _ => sizeOf x
  | .greater, [bound] => exceeds x bound
  | .equals, [v] => .ok (.bool (x.same v))
  | .raise kind text, _ => .error (.raised kind text)
  | .prefixed s, _ => (shown x).map fun t => .text (s ++ t)
  | .pairWith, [v] => .ok (.tuple [x, v])
  | .curry b, _ => .ok (.prim (.binary b) [x])
  | .binary b, [a] => b.run a x
  | .withRight b, [n] => b.run x n
  | _, _ => .error unsaturated

/-- The functions that a name alone stands for. -/
def named? : String → Option Value
  | "id" => some .identity
  | "inc" => some (.prim .inc [])
  | "dec" => some (.prim .dec [])
  | "double" => some (.prim .double [])
  | "triple" => some (.prim .triple [])
  | "square" => some (.prim .square [])
  | "neg" => some (.prim .neg [])
  | "even" => some (.prim .even [])
  | "inv" => some (.prim .inverse [])
  | "tag_even" => some (.prim .tagEven [])
  | "null_if_neg" => some (.prim .absentIfNegative [])
  | "not" => some (.prim .negate [])
  | "left" => some (.prim .tagLeft [])
  | "right" => some (.prim .tagRight [])
  | "none" => some (.prim .absent [])
  | "show" => some (.prim .showText [])
  | "fst" => some (.prim .first [])
  | "snd" => some (.prim .second [])
  | "len" => some (.prim .size [])
  | _ => none

theorem weight_needsInt {name : String} {x v : Value} {f : Int → Except Fault Value}
    (h : needsInt name x f = .ok v) (hf : ∀ n w, f n = .ok w → w.weight = 0) : v.weight = 0 := by
  unfold needsInt at h
  split at h
  · exact hf _ _ h
  · cases h

theorem weight_onInt {name : String} {x v : Value} {f : Int → Int}
    (h : onInt name f x = .ok v) : v.weight = 0 :=
  weight_needsInt h fun _ _ hw => by cases hw; simp [Val.weight]

theorem weight_pairParts {name : String} {x : Value} {p : Value × Value}
    (h : pairParts name x = .ok p) : p.1.weight + p.2.weight ≤ x.weight := by
  unfold pairParts at h
  split at h
  · cases h
    simp [Val.weight, Val.weightAll]
  · cases h

theorem weight_sizeOf {x v : Value} (h : sizeOf x = .ok v) : v.weight = 0 := by
  unfold sizeOf at h
  split at h <;> cases h <;> simp [Val.weight]

theorem weight_inverseOf {n : Int} {v : Value} (h : inverseOf n = .ok v) : v.weight = 0 := by
  unfold inverseOf at h
  split at h <;> cases h
  simp [Val.weight]

theorem weight_run (p : Builtin) (captured : List Value) (x v : Value)
    (h : p.run captured x = .ok v) : v.weight ≤ 1 + Val.weightAll captured + x.weight := by
  suffices hs : v.weight = 0 ∨ v.weight ≤ 1 + Val.weightAll captured + x.weight by omega
  unfold run at h
  split at h
  · exact .inl (weight_onInt h)
  · exact .inl (weight_onInt h)
  · exact .inl (weight_onInt h)
  · exact .inl (weight_onInt h)
  · exact .inl (weight_onInt h)
  · exact .inl (weight_onInt h)
  · exact .inl (weight_needsInt h fun _ _ hw => by cases hw; simp [Val.weight])
  · exact .inl (weight_needsInt h fun _ _ hw => weight_inverseOf hw)
  · exact .inl (weight_needsInt h fun _ _ hw => by cases hw; split <;> simp [Val.weight])
  · exact .inl (weight_needsInt h fun _ _ hw => by cases hw; split <;> simp [Val.weight])
  · obtain ⟨_, -, rfl⟩ := exists_of_map_eq_ok h
    simp [Val.weight]
  · cases h
    simp only [Val.weight]
    omega
  · cases h
    simp only [Val.weight]
    omega
  · cases h
    simp [Val.weight]
  · obtain ⟨_, -, rfl⟩ := exists_of_map_eq_ok h
    simp [Val.weight]
  · obtain ⟨_, hp, rfl⟩ := exists_of_map_eq_ok h
    have := weight_pairParts hp
    omega
  · obtain ⟨_, hp, rfl⟩ := exists_of_map_eq_ok h
    have := weight_pairParts hp
    omega
  · exact .inl (weight_sizeOf h)
  · exact .inl (weight_needsInt h fun _ _ hw => by cases hw; simp [Val.weight])
  · cases h
    simp [Val.weight]
  · cases h
  · obtain ⟨_, -, rfl⟩ := exists_of_map_eq_ok h
    simp [Val.weight]
  · cases h
    simp only [Val.weight, Val.weightAll]
    omega
  · cases h
    simp only [Val.weight, Val.weightAll]
    omega
  · have := Binary.weight_run h
    simp only [Val.weightAll]
    omega
  · have := Binary.weight_run h
    simp only [Val.weightAll]
    omega
  · cases h

end Builtin

instance : Primitives Builtin where
  run := Builtin.run
  weight_run := Builtin.weight_run

end SelectiveEffects.Scenario
