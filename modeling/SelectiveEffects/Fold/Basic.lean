import SelectiveEffects.Context.Free

/-! Folding a tree into a context: every node becomes the operation of the context it stands for. -/

namespace SelectiveEffects

/-- A deferred node: what generates its subtree, and what is done to the value. -/
structure Deferral (P G : Type) where
  source : Source P G
  k : Post P

/-- What a fold needs: the context, the meaning of effects, of deferred nodes beyond the bound, and
of deferred nodes handed to the context as they are. -/
structure Folding (σ P G D F : Type) where
  context : Context (Action σ) P D F
  interpret : Effect P → Action σ F
  gen : G → Action σ (Tree P G)
  onUnbounded : Option (Action σ F) := none
  suspend : Deferral P G → D

namespace Folding

variable {σ P G D F : Type}

def foldWith (I : Folding σ P G D F) (deferral : Deferral P G → Action σ F) :
    Tree P G → Action σ F
  | .pure v => I.context.unit v
  | .lifted e k => do
    let x ← I.interpret e
    I.context.map k.apply x
  | .selection d h k _ => do
    let x ← I.foldWith deferral d
    let y ← I.foldWith deferral h
    let z ← I.context.handle x y
    I.context.map k.apply z
  | .deferred g k => deferral ⟨.host g, k⟩
  | .loop action k => deferral ⟨.loop action, k⟩
  | .foreign typeName => throw (.notFoldable typeName)
  | .unknown typeName => throw (.notFoldable typeName)

/-- The value of a deferred node past the bound. -/
def cut (I : Folding σ P G D F) : Action σ F :=
  I.onUnbounded.getD (throw (.unboundedTree Fault.loopReason))

variable [Primitives P]

/-- Expands deferred nodes at most so many times inside one another. -/
def foldUpTo (I : Folding σ P G D F) : Nat → Tree P G → Action σ F
  | 0, t => I.foldWith (fun _ => I.cut) t
  | n + 1, t =>
    I.foldWith (fun d => do
      let inner ← d.source.expand I.gen
      let x ← I.foldUpTo n inner
      I.context.map d.k.apply x) t

/-- Leaves deferred nodes to the context. -/
def foldLazily (I : Folding σ P G D F) : Tree P G → Action σ F :=
  I.foldWith fun d => I.context.defer (I.suspend d)

/-- What a deferred node handed to the context folds to when the context expands it. -/
def unfold (I : Folding σ P G D F) (d : Deferral P G) : Action σ F := do
  let inner ← d.source.expand I.gen
  let x ← I.foldLazily inner
  I.context.map d.k.apply x

/-- Without a bound deferred nodes are left to the context. -/
def fold (I : Folding σ P G D F) : Option Nat → Tree P G → Action σ F
  | some n => I.foldUpTo n
  | none => I.foldLazily

/-- Folding into a context whose operations do not touch the world, with no value past the bound. -/
def into (C : Context (Except Fault) P D F) (interpret : Effect P → Action σ F)
    (gen : G → Action σ (Tree P G)) (suspend : Deferral P G → D) : Folding σ P G D F where
  context := C.inAction
  interpret := interpret
  gen := gen
  suspend := suspend

end Folding

end SelectiveEffects
