import SelectiveEffects.Value.Basic

/-! Applying a value to an argument. Every call ends, because it uses up function layers. -/

namespace SelectiveEffects

/-- The host's own functions. A call may drop or rearrange the functions it was given but makes no
more of them than it consumes, which is why every call ends. Left out is a function whose result has
more function layers than it, what it has captured and its argument hold together. One whose results
have boundedly many is among these when it has captured enough. -/
class Primitives (P : Type) where
  run : P → List (Val P) → Val P → Except Fault (Val P)
  weight_run : ∀ p captured x v, run p captured x = .ok v →
    v.weight ≤ 1 + Val.weightAll captured + x.weight

namespace Val

variable {P : Type}

abbrev Bounded (P : Type) (n : Nat) := { v : Val P // v.weight ≤ n }

/-- The two components of a value that unpacks into a pair: a tuple of two, or a text of two
characters. -/
def components (x : Val P) :
    Except Fault { p : Val P × Val P // p.1.weight + p.2.weight ≤ x.weight } :=
  match x with
  | tuple [a, b] => .ok ⟨(a, b), by simp only [weight, weightAll]; omega⟩
  | tuple [] => .error (.tooFewParts 0)
  | tuple [_] => .error (.tooFewParts 1)
  | tuple (_ :: _ :: _ :: _) => .error .tooManyParts
  | text s =>
    match s.toList with
    | [a, b] => .ok ⟨(text a.toString, text b.toString), by simp only [weight]; omega⟩
    | [] => .error (.tooFewParts 0)
    | [_] => .error (.tooFewParts 1)
    | _ :: _ :: _ :: _ => .error .tooManyParts
  | v => .error (.notUnpackable v.typeName)

variable [Primitives P]

def callWithin (f x : Val P) : Except Fault (Bounded P (f.weight + x.weight)) :=
  match f, x with
  | identity, x => .ok ⟨x, by omega⟩
  | toLeft, x => .ok ⟨left x, by simp only [weight]; omega⟩
  | toRight, x => .ok ⟨right x, by simp only [weight]; omega⟩
  | constant v, x => .ok ⟨v, by simp only [weight]; omega⟩
  | compose f g, x => do
    let ⟨y, hy⟩ ← callWithin g x
    let ⟨z, hz⟩ ← callWithin f y
    pure ⟨z, by simp only [weight]; omega⟩
  | either f _, left a => do
    let ⟨z, hz⟩ ← callWithin f a
    pure ⟨z, by simp only [weight]; omega⟩
  | either _ g, right b => do
    let ⟨z, hz⟩ ← callWithin g b
    pure ⟨z, by simp only [weight]; omega⟩
  | either _ _, x => .error (.noMember x.typeName "either")
  | applyTo v, x => do
    let ⟨z, hz⟩ ← callWithin x v
    pure ⟨z, by simp only [weight]; omega⟩
  | flip f, x => .ok ⟨flipped f x, by simp only [weight]; omega⟩
  | flipped f b, x => do
    let ⟨g, hg⟩ ← callWithin f x
    let ⟨z, hz⟩ ← callWithin g b
    pure ⟨z, by simp only [weight]; omega⟩
  | uncurry f, x => do
    let ⟨(a, b), hp⟩ ← components x
    let ⟨g, hg⟩ ← callWithin f a
    let ⟨z, hz⟩ ← callWithin g b
    pure ⟨z, by simp only [weight] at *; omega⟩
  | branch c f g, x => do
    let ⟨t, _⟩ ← callWithin c x
    if ← t.truth then
      let ⟨z, hz⟩ ← callWithin f x
      pure ⟨z, by simp only [weight]; omega⟩
    else
      let ⟨z, hz⟩ ← callWithin g x
      pure ⟨z, by simp only [weight]; omega⟩
  | mapRight f, right b => do
    let ⟨z, hz⟩ ← callWithin f b
    pure ⟨right z, by simp only [weight]; omega⟩
  | mapRight _, left a => .ok ⟨left a, by omega⟩
  | mapRight _, x => .error (.noMember x.typeName "map")
  | mapLeft f, left a => do
    let ⟨z, hz⟩ ← callWithin f a
    pure ⟨left z, by simp only [weight]; omega⟩
  | mapLeft _, right b => .ok ⟨right b, by omega⟩
  | mapLeft _, x => .error (.noMember x.typeName "map_left")
  | pairOrApply (left c), x =>
    .ok ⟨left (tuple [c, x]), by simp only [weight, weightAll]; omega⟩
  | pairOrApply (right f), x => do
    let ⟨z, hz⟩ ← callWithin f x
    pure ⟨right z, by simp only [weight]; omega⟩
  | pairOrApply t, _ => .error (.noMember t.typeName "either")
  | prim p captured, x =>
    match h : Primitives.run p captured x with
    | .ok v => .ok ⟨v, by simpa only [weight] using Primitives.weight_run p captured x v h⟩
    | .error e => .error e
  | marked _ f, x => do
    let ⟨z, hz⟩ ← callWithin f x
    pure ⟨z, by simp only [weight]; omega⟩
  | v, _ => .error (.notCallable v.typeName)
termination_by f.weight + x.weight
decreasing_by all_goals simp only [weight] at *; omega

def call (f x : Val P) : Except Fault (Val P) :=
  (callWithin f x).map (·.1)

@[simp] theorem call_identity (x : Val P) : identity.call x = .ok x := by
  simp [call, callWithin, Except.map]

@[simp] theorem call_toLeft (x : Val P) : toLeft.call x = .ok (left x) := by
  simp [call, callWithin, Except.map]

@[simp] theorem call_toRight (x : Val P) : toRight.call x = .ok (right x) := by
  simp [call, callWithin, Except.map]

@[simp] theorem call_constant (v x : Val P) : (constant v).call x = .ok v := by
  simp [call, callWithin, Except.map]

@[simp] theorem call_flip (f x : Val P) : (flip f).call x = .ok (flipped f x) := by
  simp [call, callWithin, Except.map]

@[simp] theorem call_either_left (f g a : Val P) : (either f g).call (left a) = f.call a := by
  simp only [call, callWithin, bind, pure, Except.bind, Except.pure, Except.map]
  cases callWithin f a <;> rfl

@[simp] theorem call_either_right (f g b : Val P) : (either f g).call (right b) = g.call b := by
  simp only [call, callWithin, bind, pure, Except.bind, Except.pure, Except.map]
  cases callWithin g b <;> rfl

@[simp] theorem call_applyTo (v f : Val P) : (applyTo v).call f = f.call v := by
  simp only [call, callWithin, bind, pure, Except.bind, Except.pure, Except.map]
  cases callWithin f v <;> rfl

theorem call_compose (f g x : Val P) : (compose f g).call x = g.call x >>= f.call := by
  simp only [call, callWithin, bind, pure, Except.bind, Except.pure, Except.map]
  cases callWithin g x with
  | error e => rfl
  | ok y => cases h : callWithin f y.1 <;> simp [h]

theorem call_flipped (f b x : Val P) :
    (flipped f b).call x = f.call x >>= fun g => g.call b := by
  simp only [call, callWithin, bind, pure, Except.bind, Except.pure, Except.map]
  cases callWithin f x with
  | error e => rfl
  | ok g => cases h : callWithin g.1 b <;> simp [h]

theorem call_mapRight_right (f b : Val P) :
    (mapRight f).call (right b) = (f.call b).map right := by
  simp only [call, callWithin, bind, pure, Except.bind, Except.pure, Except.map]
  cases callWithin f b <;> rfl

@[simp] theorem call_mapRight_left (f a : Val P) :
    (mapRight f).call (left a) = .ok (left a) := by
  simp [call, callWithin, Except.map]

theorem call_mapLeft_left (f a : Val P) :
    (mapLeft f).call (left a) = (f.call a).map left := by
  simp only [call, callWithin, bind, pure, Except.bind, Except.pure, Except.map]
  cases callWithin f a <;> rfl

@[simp] theorem call_mapLeft_right (f b : Val P) :
    (mapLeft f).call (right b) = .ok (right b) := by
  simp [call, callWithin, Except.map]

@[simp] theorem call_pairOrApply_left (c a : Val P) :
    (pairOrApply (left c)).call a = .ok (left (tuple [c, a])) := by
  simp [call, callWithin, Except.map]

theorem call_pairOrApply_right (f a : Val P) :
    (pairOrApply (right f)).call a = (f.call a).map right := by
  simp only [call, callWithin, bind, pure, Except.bind, Except.pure, Except.map]
  cases callWithin f a <;> rfl

theorem call_uncurry_tuple (f a b : Val P) :
    (uncurry f).call (tuple [a, b]) = f.call a >>= fun g => g.call b := by
  simp only [call, callWithin, components, bind, pure, Except.bind, Except.pure, Except.map]
  cases callWithin f a with
  | error e => rfl
  | ok g => cases h : callWithin g.1 b <;> simp [h]

@[simp] theorem call_marked (mark : Nat) (f x : Val P) : (marked mark f).call x = f.call x := by
  simp only [call, callWithin, bind, pure, Except.bind, Except.pure, Except.map]
  cases callWithin f x <;> rfl

theorem call_prim (p : P) (captured : List (Val P)) (x : Val P) :
    (prim p captured).call x = Primitives.run p captured x := by
  simp only [call, callWithin]
  split <;> simp_all [Except.map]

end Val

end SelectiveEffects
