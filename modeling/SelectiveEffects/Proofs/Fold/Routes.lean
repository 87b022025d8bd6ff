import SelectiveEffects.Proofs.Fold.Tasks
import SelectiveEffects.Proofs.Tree.Routes

/-! Folds do not read routes. Within a bound, trees that differ at most in them fold to the same; without
one, to values that no context tells apart by expanding what it was left to expand. -/

namespace SelectiveEffects

/-- Deferred nodes that differ at most in the routes of what they generate. -/
structure Deferral.Rerouted {P G : Type} (R : G → G → Prop) (d d' : Deferral P G) : Prop where
  source : d.source.Rerouted R d'.source
  k : d.k = d'.k

theorem Deferral.Rerouted.refl {P G : Type} {R : G → G → Prop} (hR : ∀ g, R g g)
    (d : Deferral P G) : d.Rerouted R d := by
  obtain ⟨source, k⟩ := d
  cases source with
  | host g => exact ⟨.host (hR g), rfl⟩
  | loop action => exact ⟨.loop (.refl hR action), rfl⟩

namespace Folding

variable {σ P G D F : Type} {I : Folding σ P G D F} {R : G → G → Prop}

/-- A relation between values that the operations of a context keep. -/
structure Keeps (I : Folding σ P G D F) (E : F → F → Prop) : Prop where
  refl : ∀ x, E x x
  map : ∀ f {x x'}, E x x' → Action.Relates E (I.context.map f x) (I.context.map f x')
  handle : ∀ {x x' y y'}, E x x' → E y y' →
    Action.Relates E (I.context.handle x y) (I.context.handle x' y')

theorem keeps_eq (I : Folding σ P G D F) : I.Keeps (· = ·) where
  refl _ := rfl
  map _ _ _ h := Action.relates_of_eq (by rw [h])
  handle hx hy := Action.relates_of_eq (by rw [hx, hy])

variable {E : F → F → Prop}

/-- Trees fold to related values, whatever their routes, when their deferred nodes do. -/
theorem Keeps.foldWith (hE : I.Keeps E) {deferral : Deferral P G → Action σ F}
    (hd : ∀ d d', d.Rerouted R d' → Action.Relates E (deferral d) (deferral d')) {t t' : Tree P G}
    (h : t.Rerouted R t') :
    Action.Relates E (I.foldWith deferral t) (I.foldWith deferral t') := by
  induction h with
  | pure v => exact Action.relates_refl hE.refl _
  | lifted e k => exact Action.relates_refl hE.refl _
  | selection k route route' _ _ ihd ihh =>
    refine ihd.bind fun x x' hx => ihh.bind fun y y' hy => ?_
    exact (hE.handle hx hy).bind fun z z' hz => hE.map k.apply hz
  | deferred k hg => exact hd _ _ ⟨.host hg, rfl⟩
  | loop k haction => exact hd _ _ ⟨.loop haction, rfl⟩
  | foreign typeName => exact Action.relatesIn_throw _
  | unknown typeName => exact Action.relatesIn_throw _

/-- A context that makes the same of all deferred nodes, as one that refuses them does, makes the same
of the trees. -/
theorem foldLazily_rerouted (hdefer : ∀ d d', I.context.defer d = I.context.defer d')
    {t t' : Tree P G} (h : t.Rerouted R t') : I.foldLazily t = I.foldLazily t' := by
  refine Action.Relates.eq ((keeps_eq I).foldWith (fun d d' _ => ?_) h)
  exact Action.relates_of_eq (hdefer (I.suspend d) (I.suspend d'))

variable [Primitives P]

/-- What deferred nodes are expanded to is folded alike when trees are. -/
theorem Keeps.expansion (hE : I.Keeps E) (hgen : Tree.Reroutes I.gen R)
    {fold : Tree P G → Action σ F}
    (hfold : ∀ t t', t.Rerouted R t' → Action.Relates E (fold t) (fold t')) {d d' : Deferral P G}
    (h : d.Rerouted R d') :
    Action.Relates E
      (do
        let inner ← d.source.expand I.gen
        let x ← fold inner
        I.context.map d.k.apply x)
      (do
        let inner ← d'.source.expand I.gen
        let x ← fold inner
        I.context.map d'.k.apply x) := by
  rw [← h.k]
  exact (h.source.expand hgen).bind fun t t' ht => (hfold t t' ht).bind fun x x' hx =>
    hE.map d.k.apply hx

/-- Within a bound, folding trees that differ at most in their routes does the same. -/
theorem foldUpTo_rerouted (hgen : Tree.Reroutes I.gen R) (n : Nat) {t t' : Tree P G}
    (h : t.Rerouted R t') : I.foldUpTo n t = I.foldUpTo n t' := by
  refine Action.Relates.eq ?_
  induction n generalizing t t' with
  | zero => exact (keeps_eq I).foldWith (fun _ _ _ => Action.relates_of_eq rfl) h
  | succ n ih =>
    exact (keeps_eq I).foldWith (fun _ _ => (keeps_eq I).expansion hgen fun _ _ ht => ih ht) h

/-- The relations are of values that cannot be told apart by expanding deferred nodes inside one another
up to a depth: the operations keep each of them, and the context makes related values of deferred nodes
that fold, wherever less depth is left, to related values. -/
structure Respects (I : Folding σ P G D F) (E : Nat → F → F → Prop) : Prop where
  keeps : ∀ depth, I.Keeps (E depth)
  defer : ∀ depth d d', (∀ m < depth, Action.Relates (E m) (I.unfold d) (I.unfold d')) →
    Action.Relates (E depth) (I.context.defer (I.suspend d)) (I.context.defer (I.suspend d'))

/-- Folds without a bound cannot be told apart at any depth. -/
theorem Respects.foldLazily {E : Nat → F → F → Prop} (hE : I.Respects E)
    (hgen : Tree.Reroutes I.gen R) {t t' : Tree P G} (h : t.Rerouted R t') :
    Action.Relates (fun x x' => ∀ depth, E depth x x') (I.foldLazily t) (I.foldLazily t') := by
  refine Action.relatesIn_forall fun depth => ?_
  -- By induction on the depth, since nodes are compared by what is left of it below them.
  induction depth using Nat.strongRecOn generalizing t t' with
  | ind depth ih =>
    refine (hE.keeps depth).foldWith (fun d d' hd => hE.defer depth d d' fun m hm => ?_) h
    exact (hE.keeps m).expansion hgen (fun _ _ ht => ih m hm ht) hd

/-- With enough fuel both trees are folded, and come to what is related. -/
def FoldsAlike (I : Folding σ P G D F) (unroll : Option Nat) (Q : F → F → Prop) (t t' : Tree P G) :
    Prop :=
  ∃ a a', I.FoldsAs unroll t a ∧ I.FoldsAs unroll t' a' ∧ Action.Relates Q a a'

theorem foldsAlike_of_relates {unroll : Option Nat} {Q : F → F → Prop} {t t' : Tree P G}
    (h : Action.Relates Q (I.fold unroll t) (I.fold unroll t')) : I.FoldsAlike unroll Q t t' :=
  ⟨_, _, foldsAs_iff.mpr rfl, foldsAs_iff.mpr rfl, h⟩

section Tasks

variable {gen : G → Action σ (Tree P G)} (again : Task P σ (Deferral P G) → Deferral P G)
  (interpret : Effect P → Action σ (Task P σ (Deferral P G)))

/-- Calls are all that a task is good for, and they need no more depth than they have. -/
theorem respects_task :
    let I := into (Context.task again).toContext interpret gen id
    I.Respects fun depth x x' => ∀ m ≤ depth, x.call I.unfold m = x'.call I.unfold m := by
  intro I
  refine ⟨fun depth => ⟨fun x m _ => rfl, fun f x x' h => ?map, fun {x x' y y'} hx hy => ?handle⟩,
    fun depth d d' h => ?defer⟩
  case map =>
    refine Action.relatesIn_pure fun m hm => ?_
    have hm := h m hm
    rw [Task.call_eq, Task.call_eq] at hm ⊢
    rw [Task.evaluateWith_map, Task.evaluateWith_map, hm]
  case handle =>
    refine Action.relatesIn_pure fun m hm => ?_
    have hx := hx m hm
    have hy := hy m hm
    rw [Task.call_eq, Task.call_eq] at hx hy ⊢
    rw [Task.evaluateWith_handle, Task.evaluateWith_handle, hx, hy]
  case defer =>
    refine Action.relatesIn_pure fun m hm => ?_
    change (Task.ofDeferred d).call I.unfold m = (Task.ofDeferred d').call I.unfold m
    rw [Task.call_eq, Task.call_eq, Task.evaluateWith_ofDeferred, Task.evaluateWith_ofDeferred]
    cases m with
    | zero => rfl
    | succ m =>
      refine Action.Relates.eq ((h m hm).bind fun x x' hx => ?_)
      exact Action.relates_of_eq (hx m (Nat.le_refl m))

theorem relates_foldLazily_task {R : G → G → Prop} (hgen : Tree.Reroutes gen R) {t t' : Tree P G}
    (h : t.Rerouted R t') :
    let I := into (Context.task again).toContext interpret gen id
    Action.Relates (fun x x' => ∀ depth, x.call I.unfold depth = x'.call I.unfold depth)
      (I.foldLazily t) (I.foldLazily t') := by
  intro I
  refine ((respects_task again interpret).foldLazily hgen h).imp fun x x' hx depth => ?_
  exact hx depth depth (Nat.le_refl depth)

end Tasks

section Trees

variable {gen : G → Action σ (Tree P G)}
  (interpret : Effect P → Action σ (Tree P (Deferral P G)))

theorem keeps_free {R : G → G → Prop} (hR : ∀ g, R g g) :
    (into .free interpret gen id).Keeps (Tree.Rerouted (Deferral.Rerouted R)) where
  refl := .refl (Deferral.Rerouted.refl hR)
  map f _ _ h := Action.relatesIn_ofExcept (h.fmap f)
  handle hx hy := Action.relatesIn_ofExcept (hx.handle hy)

/-- In the tree context the folds differ again at most in their routes, and in what deferred nodes are
folded to when they are expanded. -/
theorem exists_reroutes_free (hgen : Tree.Reroutes gen R) {t t' : Tree P G} (h : t.Rerouted R t') :
    let I := into .free interpret gen id
    ∃ S, Tree.Reroutes I.unfold S ∧
      Action.Relates (Tree.Rerouted S) (I.foldLazily t) (I.foldLazily t') := by
  intro I
  have hkeeps : I.Keeps (Tree.Rerouted (Deferral.Rerouted fun g g' => g = g' ∨ R g g')) :=
    keeps_free interpret fun _ => .inl rfl
  have hfold (t t' : Tree P G) (ht : t.Rerouted (fun g g' => g = g' ∨ R g g') t') :
      Action.Relates (Tree.Rerouted (Deferral.Rerouted _)) (I.foldLazily t) (I.foldLazily t') :=
    hkeeps.foldWith (fun _ _ hd => Action.relatesIn_pure (.deferred none hd)) ht
  exact ⟨_, fun d d' hd => hkeeps.expansion hgen.orEq hfold hd,
    hfold t t' (h.imp fun _ _ => .inr)⟩

end Trees

end Folding

end SelectiveEffects
