import SelectiveEffects.Context.Basic

/-! The context of effect trees, the control flow on trees, and the expansion of deferred nodes. -/

namespace SelectiveEffects

namespace Context

variable {P G : Type} [Primitives P]

def free : Context (Except Fault) P G (Tree P G) where
  name := "free"
  unit v := .ok (.pure v)
  map := Tree.fmap
  handle := Tree.handle
  select := Tree.select
  ap := Tree.ap
  defer g := .ok (.deferred g none)
  whileS action := .ok (.loop action none)

@[simp] theorem free_unit (v : Val P) : (free (G := G)).unit v = .ok (.pure v) := rfl

@[simp] theorem free_map (f : Fun P) (t : Tree P G) : free.map f t = t.fmap f := rfl

@[simp] theorem free_handle (x y : Tree P G) : free.handle x y = x.handle y := rfl

@[simp] theorem free_select (x l r : Tree P G) : free.select x l r = x.select l r := rfl

@[simp] theorem free_ap (f x : Tree P G) : free.ap f x = f.ap x := rfl

@[simp] theorem free_whileS (t : Tree P G) : free.whileS t = .ok (.loop t none) := rfl

end Context

namespace Tree

variable {P G : Type} [Primitives P]

/-- A conditional is the selection between constant functions. -/
theorem ifS_cases {condition onTrue onFalse t : Tree P G}
    (h : Context.free.ifS condition onTrue onFalse = .ok t) :
    ∃ tags left right, condition.fmap Fun.truthToTag = .ok tags ∧
      onTrue.fmap Fun.constantly = .ok left ∧ onFalse.fmap Fun.constantly = .ok right ∧
      tags.select left right = .ok t := by
  obtain ⟨tags, htags, h⟩ := exists_of_bind_eq_ok h
  obtain ⟨left, hleft, h⟩ := exists_of_bind_eq_ok h
  obtain ⟨right, hright, h⟩ := exists_of_bind_eq_ok h
  exact ⟨tags, left, right, htags, hleft, hright, h⟩

theorem whenS_eq_ifS (condition action : Tree P G) :
    Context.free.whenS condition action =
      Context.free.ifS condition action (.pure .null) := rfl

/-- Runs the action when the condition holds; the value is absent either way. -/
def whenS (condition action : Tree P G) : Except Fault (Tree P G) := do
  let t ← Context.free.whenS condition action
  t.fmap Fun.forget

end Tree

namespace Source

variable {P G σ : Type} [Primitives P]

/-- The subtree that a deferred node stands for, made anew at each expansion. -/
def expand (gen : G → Action σ (Tree P G)) : Source P G → Action σ (Tree P G)
  | .host g => do
    let t ← gen g
    if t.isNode then return t
    throw (.notExpanded t.typeName)
  | .loop action => Action.ofExcept (Context.free.whenS action (.loop action none))

variable {gen : G → Action σ (Tree P G)} {t : Tree P G} {w w' : σ}

theorem expand_host_eq_ok_iff {g : G} :
    expand gen (.host g) w = .ok t w' ↔ gen g w = .ok t w' ∧ t.isNode = true := by
  rw [expand, Action.bind_eq_ok_iff]
  constructor
  · rintro ⟨u, w₁, hu, h⟩
    by_cases hnode : u.isNode = true
    · rw [if_pos hnode] at h
      cases h
      exact ⟨hu, hnode⟩
    · rw [if_neg hnode] at h
      cases h
  · rintro ⟨hu, hnode⟩
    exact ⟨t, w', hu, by rw [if_pos hnode]; rfl⟩

theorem expand_loop_eq_ok_iff {action : Tree P G} :
    expand gen (.loop action) w = .ok t w' ↔
      Context.free.whenS action (.loop action none) = .ok t ∧ w = w' :=
  Action.ofExcept_eq_ok_iff

end Source

end SelectiveEffects
