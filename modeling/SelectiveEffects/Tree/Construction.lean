import SelectiveEffects.Context.Free

/-! Trees made by the operations of the tree context alone. -/

namespace SelectiveEffects

variable {P G σ : Type} [Primitives P]

/-- A tree that came out of building operations, each of which succeeded. -/
inductive Tree.Built : Tree P G → Prop where
  | pure (v : Val P) : Built (.pure v)
  | lift (e : Effect P) : Built (.lift e)
  | defer (g : G) : Built (.deferred g none)
  | whileS {action : Tree P G} : Built action → Built (.loop action none)
  | fmap {f : Fun P} {t u : Tree P G} : Built t → t.fmap f = .ok u → Built u
  | handle {x y t : Tree P G} : Built x → Built y → x.handle y = .ok t → Built t
  | select {x l r t : Tree P G} : Built x → Built l → Built r → x.select l r = .ok t → Built t
  | ap {f x t : Tree P G} : Built f → Built x → f.ap x = .ok t → Built t

/-- A generator that gives the same tree whenever it is asked. It may leave its mark on the
world. -/
def Generates (gen : G → Action σ (Tree P G)) (g : G) (t : Tree P G) : Prop :=
  ∀ w, ∃ w', gen g w = .ok t w'

omit [Primitives P] in
theorem Generates.unique {gen : G → Action σ (Tree P G)} {g : G} {t u : Tree P G}
    (ht : Generates gen g t) (hu : Generates gen g u) (w : σ) : t = u := by
  obtain ⟨w₁, h₁⟩ := ht w
  obtain ⟨w₂, h₂⟩ := hu w
  rw [h₁] at h₂
  cases h₂
  rfl

end SelectiveEffects
