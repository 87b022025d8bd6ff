import SelectiveEffects.Context.Labels
import SelectiveEffects.Proofs.Fold.Worklist
import SelectiveEffects.Proofs.Tree.WellMade
import SelectiveEffects.Scenario.Builtin

/-! The fold on stacks of jobs and values is the fold by recursion on trees, call by call. -/

namespace SelectiveEffects.Folding

variable {σ P G D F : Type} [Primitives P]

/-- What a deferred node folds to within a budget. -/
def deferral (I : Folding σ P G D F) : Option Nat → Deferral P G → Action σ F
  | none, d => I.context.defer (I.suspend d)
  | some 0, _ => I.cut
  | some (n + 1), d => do
    let inner ← d.source.expand I.gen
    let x ← I.foldUpTo n inner
    I.context.map d.k.apply x

theorem fold_eq (I : Folding σ P G D F) (unroll : Option Nat) :
    I.fold unroll = I.foldWith (I.deferral unroll) := by
  match unroll with
  | none => rfl
  | some 0 => rfl
  | some (n + 1) => rfl

theorem fold_pure (I : Folding σ P G D F) (unroll : Option Nat) (v : Val P) :
    I.fold unroll (.pure v) = I.context.unit v := by
  rw [fold_eq]
  rfl

theorem fold_selection (I : Folding σ P G D F) (unroll : Option Nat) (d h : Tree P G)
    (k : Post P) (route : Route) :
    I.fold unroll (.selection d h k route) = (do
      let x ← I.fold unroll d
      let y ← I.fold unroll h
      let z ← I.context.handle x y
      I.context.map k.apply z) := by
  simp only [fold_eq, foldWith]

/-- Folding by recursion on trees. A node stands for an operation, which follows what its parts
stand for from left to right. A deferred node is forced and folded with one expansion less before
its own function is mapped; where none is left, the value past the bound stands for it as it is. -/
structure Recurses (I : Folding σ P G D F) (R : Option Nat → Tree P G → Action σ F) : Prop where
  pure : ∀ budget v, R budget (.pure v) = I.context.unit v
  lifted : ∀ budget e k, R budget (.lifted e k) = (do
    let x ← I.interpret e
    I.context.map k.apply x)
  selection : ∀ budget d h k route, R budget (.selection d h k route) = (do
    let x ← R budget d
    let y ← R budget h
    let z ← I.context.handle x y
    I.context.map k.apply z)
  expanded : ∀ n source k, R (some (n + 1)) (.ofSource source k) = (do
    let inner ← source.expand I.gen
    let x ← R (some n) inner
    I.context.map k.apply x)
  past : ∀ source k, R (some 0) (.ofSource source k) =
    I.onUnbounded.getD (throw (.unboundedTree Fault.loopReason))
  left : ∀ source k, R none (.ofSource source k) = I.context.defer (I.suspend ⟨source, k⟩)
  foreign : ∀ budget typeName, R budget (.foreign typeName) = throw (.notFoldable typeName)
  unknown : ∀ budget typeName, R budget (.unknown typeName) = throw (.notFoldable typeName)

theorem fold_ofSource (I : Folding σ P G D F) (unroll : Option Nat) (source : Source P G)
    (k : Post P) : I.fold unroll (.ofSource source k) = I.deferral unroll ⟨source, k⟩ := by
  rw [fold_eq]
  cases source <;> rfl

theorem recurses_fold (I : Folding σ P G D F) : I.Recurses I.fold where
  pure := I.fold_pure
  lifted budget e k := by
    rw [fold_eq]
    rfl
  selection := I.fold_selection
  expanded n := I.fold_ofSource (some (n + 1))
  past := I.fold_ofSource (some 0)
  left := I.fold_ofSource none
  foreign budget typeName := by
    rw [fold_eq]
    rfl
  unknown budget typeName := by
    rw [fold_eq]
    rfl

namespace Recurses

variable {I : Folding σ P G D F} {R R' : Option Nat → Tree P G → Action σ F}
  {budget : Option Nat}

/-- Two folds by recursion agree where they agree on deferred nodes. -/
theorem agree (hR : I.Recurses R) (hR' : I.Recurses R')
    (h : ∀ source k, R budget (.ofSource source k) = R' budget (.ofSource source k))
    (t : Tree P G) : R budget t = R' budget t := by
  induction t with
  | pure v => rw [hR.pure, hR'.pure]
  | lifted e k => rw [hR.lifted, hR'.lifted]
  | selection d h k route ihd ihh => rw [hR.selection, hR'.selection, ihd, ihh]
  | deferred g k => exact h (.host g) k
  | loop action k _ => exact h (.loop action) k
  | foreign typeName => rw [hR.foreign, hR'.foreign]
  | unknown typeName => rw [hR.unknown, hR'.unknown]

/-- There is one fold by recursion only. -/
theorem eq (hR : I.Recurses R) (hR' : I.Recurses R') : R = R' := by
  funext budget
  cases budget with
  | none =>
    funext t
    exact hR.agree hR' (fun source k => by rw [hR.left, hR'.left]) t
  | some n =>
    induction n with
    | zero =>
      funext t
      exact hR.agree hR' (fun source k => by rw [hR.past, hR'.past]) t
    | succ n ih =>
      funext t
      exact hR.agree hR' (fun source k => by rw [hR.expanded, hR'.expanded, ih]) t

end Recurses

/-- What a context that was handed a deferred node does to expand it, by worklist. -/
def unfoldByWork (I : Folding σ P G D F) (fuel : Nat) (d : Deferral P G) :
    Action σ (Option F) := do
  let inner ← d.source.expand I.gen
  match ← I.foldByWork fuel none inner with
  | some x => some <$> I.context.map d.k.apply x
  | none => return none

theorem exists_unfoldByWork (I : Folding σ P G D F) (d : Deferral P G) (w : σ) :
    ∃ enough, ∀ fuel, enough ≤ fuel → I.unfoldByWork fuel d w = (some <$> I.unfold d) w := by
  cases hx : d.source.expand I.gen w with
  | error e w₁ =>
    refine ⟨0, fun fuel _ => ?_⟩
    simp only [unfoldByWork, unfold, map_eq_pure_bind, Action.bind_apply, hx]
  | ok inner w₁ =>
    obtain ⟨enough, hwork⟩ := I.exists_foldByWork none inner w₁
    refine ⟨enough, fun fuel hfuel => ?_⟩
    have hfold : I.fold none inner w₁ = I.foldLazily inner w₁ := rfl
    simp only [unfoldByWork, unfold, map_eq_pure_bind, Action.bind_apply, hx, hwork fuel hfuel,
      hfold]
    cases I.foldLazily inner w₁ with
    | error e w₂ => rfl
    | ok x w₂ => simp only [Action.pure_apply, Action.bind_apply]

/-- The worklist does what the recursion on trees does, and so do deferred nodes handed to the
context when they are expanded. The operations, the meaning of effects and the generators all act
on the world, which may well be the record of their calls, and each of them may fail: what they do
to every world is the same, and so are the calls, their order and the failure that ends them. -/
theorem folds_as_recursion (I : Folding σ P G D F) :
    ∃ R, I.Recurses R ∧ (∀ R', I.Recurses R' → R' = R) ∧
      (∀ unroll t, I.FoldsAs unroll t (R unroll t)) ∧
      ∀ d w, ∃ enough, ∀ fuel, enough ≤ fuel → I.unfoldByWork fuel d w = (some <$> do
        let inner ← d.source.expand I.gen
        let x ← R none inner
        I.context.map d.k.apply x) w := by
  refine ⟨I.fold, I.recurses_fold, fun R hR => hR.eq I.recurses_fold, ?_, I.exists_unfoldByWork⟩
  intro unroll t
  exact foldsAs_iff.mpr rfl

/-- A world that records the calls tells in which order they were made, the failing one last. -/
example :
    let records (call : String) : Action (List String) (List String) := fun calls =>
      .ok [] (calls ++ [call])
    let effect (name : String) : Effect Scenario.Builtin :=
      { className := name, lineage := [name], fields := [], label := .ok name }
    let I : Folding (List String) Scenario.Builtin Unit Unit (List String) :=
      { context := { Context.everyLabel.inAction with
          map := fun _ _ => records "map"
          handle := fun _ _ => records "handle" *> throw .noError }
        interpret := fun e => records e.className
        gen := fun _ => records "generate" *> pure (.lifted (effect "Tell") none)
        suspend := fun _ => () }
    I.foldByWork 7 (some 1) (.selection (.lifted (effect "Ask") none) (.deferred () none) none
        .optional) [] =
      .error .noError ["Ask", "map", "generate", "Tell", "map", "map", "handle"] := by
  rfl

end SelectiveEffects.Folding
