import SelectiveEffects.Value.Basic

/-! Marks on values, which tell apart functions, faults and objects that look alike. -/

namespace SelectiveEffects.Val

variable {P : Type}

/-- Takes the next number as the mark of a value. -/
def mark (v : Val P) : StateM Nat (Val P) :=
  modifyGet fun next => (marked next v, next + 1)

def markUnlessNamed [Named P] (p : P) (captured : List (Val P)) : StateM Nat (Val P) :=
  if captured.isEmpty && Named.named p then pure (prim p []) else mark (prim p captured)

mutual

/-- Marks every function, fault and object within a value, each with a number of its own. A mark
already there stays, and a function that a name alone stands for needs none. -/
def withMarks [Named P] : Val P → StateM Nat (Val P)
  | null => pure null
  | bool b => pure (bool b)
  | int n => pure (int n)
  | text s => pure (text s)
  | left v => left <$> v.withMarks
  | right v => right <$> v.withMarks
  | tuple vs => tuple <$> withMarksAll vs
  | fault e => mark (fault e)
  | success v => success <$> v.withMarks
  | failure vs => failure <$> withMarksAll vs
  | object facade payload => do mark (object facade (← payload.withMarks))
  | identity => pure identity
  | toLeft => pure toLeft
  | toRight => pure toRight
  | constant v => do mark (constant (← v.withMarks))
  | compose f g => do mark (compose (← f.withMarks) (← g.withMarks))
  | either f g => do mark (either (← f.withMarks) (← g.withMarks))
  | applyTo v => do mark (applyTo (← v.withMarks))
  | flip f => do mark (flip (← f.withMarks))
  | flipped f b => do mark (flipped (← f.withMarks) (← b.withMarks))
  | uncurry f => do mark (uncurry (← f.withMarks))
  | branch c f g => do mark (branch (← c.withMarks) (← f.withMarks) (← g.withMarks))
  | mapRight f => do mark (mapRight (← f.withMarks))
  | mapLeft f => do mark (mapLeft (← f.withMarks))
  | pairOrApply tagged => do mark (pairOrApply (← tagged.withMarks))
  | prim p vs => do markUnlessNamed p (← withMarksAll vs)
  | marked n v => pure (marked n v)

def withMarksAll [Named P] : List (Val P) → StateM Nat (List (Val P))
  | [] => pure []
  | v :: vs => do
    let v ← v.withMarks
    let vs ← withMarksAll vs
    return v :: vs

end

theorem mark_run (v : Val P) (next : Nat) : (mark v).run next = (marked next v, next + 1) := rfl

@[simp] theorem same_marked [Named P] (m n : Nat) (v w : Val P) :
    (marked m v).same (marked n w) = (m == n) := by
  simp [same]

@[simp] theorem withMarks_marked [Named P] (n : Nat) (v : Val P) :
    (marked n v).withMarks = pure (marked n v) := by
  simp [withMarks]

@[simp] theorem same_mark [Named P] (v : Val P) (next : Nat) :
    ((mark v).run next).1.same ((mark v).run next).1 = true := by
  simp [mark_run]

theorem same_markUnlessNamed [Named P] [ReflBEq P] (p : P) (captured : List (Val P))
    (next : Nat) :
    ((markUnlessNamed p captured).run next).1.same ((markUnlessNamed p captured).run next).1 =
      true := by
  unfold markUnlessNamed
  split
  · rename_i h
    exact Bool.and_eq_true_iff.mpr ⟨(Bool.and_eq_true_iff.mp h).2, beq_self_eq_true p⟩
  · exact same_mark _ _

mutual

/-- A value made with marks equals itself, though functions, faults and objects without them do
not. -/
theorem same_withMarks [Named P] [ReflBEq P] (v : Val P) (next : Nat) :
    (v.withMarks.run next).1.same (v.withMarks.run next).1 = true := by
  cases v with
  | null | identity | toLeft | toRight => rfl
  | bool b => cases b <;> rfl
  | int n => exact beq_self_eq_true n
  | text s => exact beq_self_eq_true s
  | left v | right v | success v =>
    rw [withMarks]
    exact same_withMarks v next
  | tuple vs | failure vs =>
    rw [withMarks]
    exact sameAll_withMarksAll vs next
  | marked n v => exact beq_self_eq_true n
  | prim p vs =>
    rw [withMarks]
    exact same_markUnlessNamed p _ _
  | _ =>
    rw [withMarks]
    exact same_mark _ _

theorem sameAll_withMarksAll [Named P] [ReflBEq P] (vs : List (Val P)) (next : Nat) :
    sameAll ((withMarksAll vs).run next).1 ((withMarksAll vs).run next).1 = true := by
  cases vs with
  | nil => rfl
  | cons v vs =>
    rw [withMarksAll]
    exact Bool.and_eq_true_iff.mpr ⟨same_withMarks v next, sameAll_withMarksAll vs _⟩

end

end SelectiveEffects.Val
