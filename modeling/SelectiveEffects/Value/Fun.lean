import SelectiveEffects.Value.Call

/-! Functions of the host on values, and what a node does to its value last. -/

namespace SelectiveEffects

/-- A function of the host, which may fail. -/
abbrev Fun (P : Type) := Val P → Except Fault (Val P)

namespace Fun

variable {P : Type}

/-- `f` after `g`. -/
def comp (f g : Fun P) : Fun P :=
  fun v => g v >>= f

def constantly : Fun P :=
  fun v => .ok (.constant v)

def applying : Fun P :=
  fun v => .ok (.applyTo v)

def thenRight : Fun P :=
  fun f => .ok (.compose .toRight f)

/-- What is true goes left. The test of truth may fail. -/
def truthToTag : Fun P :=
  fun v => v.truth.map fun b => if b then .left .null else .right .null

def absentToTag : Fun P
  | .null => .ok (.left .null)
  | v => .ok (.right v)

def forget : Fun P :=
  fun _ => .ok .null

/-- Wraps a right payload once more, so that a second handler can tell it apart. -/
def retag [Primitives P] : Fun P :=
  (Val.mapRight .toLeft).call

def Total (f : Fun P) : Prop :=
  ∀ v, ∃ w, f v = .ok w

theorem truthToTag_eq_ok {v u : Val P} (h : truthToTag v = .ok u) :
    ∃ b, v.truth = .ok b ∧ u = if b then .left .null else .right .null := by
  obtain ⟨b, hb, rfl⟩ := exists_of_map_eq_ok h
  exact ⟨b, hb, rfl⟩

theorem truthToTag_of_ok {v : Val P} {b : Bool} (h : v.truth = .ok b) :
    truthToTag v = .ok (if b then .left .null else .right .null) := by
  rw [truthToTag, h]
  rfl

theorem truthToTag_eq_error_iff {v : Val P} {e : Fault} :
    truthToTag v = .error e ↔ v.truth = .error e := by
  cases h : v.truth <;> simp [truthToTag, h, Except.map]

@[simp] theorem retag_left [Primitives P] (a : Val P) : retag (.left a) = .ok (.left a) := by
  simp [retag]

@[simp] theorem retag_right [Primitives P] (b : Val P) :
    retag (.right b) = .ok (.right (.left b)) := by
  simp [retag, Val.call_mapRight_right, Except.map]

theorem retag_eq_ok [Primitives P] {v u : Val P} (h : retag v = .ok u) :
    (∃ a, v = .left a ∧ u = .left a) ∨ ∃ b, v = .right b ∧ u = .right (.left b) := by
  cases v with
  | left a =>
    rw [retag_left] at h
    cases h
    exact .inl ⟨a, rfl, rfl⟩
  | right b =>
    rw [retag_right] at h
    cases h
    exact .inr ⟨b, rfl, rfl⟩
  | _ => simp [retag, Val.call, Val.callWithin, Except.map] at h

end Fun

/-- What a node does to its value last. `none` is the identity itself, which every composition
differs from. -/
abbrev Post (P : Type) := Option (Fun P)

namespace Post

variable {P : Type}

def apply : Post P → Fun P
  | none => .ok
  | some f => f

def after (f : Fun P) (k : Post P) : Post P :=
  some (f.comp k.apply)

@[simp] theorem apply_none (v : Val P) : apply (none : Post P) v = .ok v := rfl

@[simp] theorem apply_some (f : Fun P) (v : Val P) : apply (some f) v = f v := rfl

@[simp] theorem apply_after (f : Fun P) (k : Post P) (v : Val P) :
    (after f k).apply v = k.apply v >>= f := rfl

end Post

end SelectiveEffects
