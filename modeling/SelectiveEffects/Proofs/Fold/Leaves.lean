import SelectiveEffects.Context.Labels
import SelectiveEffects.Laws
import SelectiveEffects.Proofs.Fold.Homomorphism
import SelectiveEffects.Proofs.Path.Stacks

/-! What the operations on trees keep of their operands: every leaf, once, and in order. A fold that
only collects is determined by the leaves. -/

namespace SelectiveEffects

open Scenario

/-- What the values of a context hold passes through its operations unchanged and in order. -/
structure Context.Collects {P D F α : Type} (C : Context (Except Fault) P D F)
    (collect : F → List α) : Prop where
  unit : ∀ {v x}, C.unit v = .ok x → collect x = []
  map : ∀ {f x y}, C.map f x = .ok y → collect y = collect x
  handle : ∀ {x y z}, C.handle x y = .ok z → collect z = collect x ++ collect y
  select : ∀ {x l r z}, C.select x l r = .ok z → collect z = collect x ++ collect l ++ collect r
  ap : ∀ {f x z}, C.ap f x = .ok z → collect z = collect f ++ collect x

namespace Context.Collects

variable {P D F α : Type} {C : Context (Except Fault) P D F} {collect : F → List α}
variable {x y z d c a t e : F}

theorem filterMap {β : Type} (hC : C.Collects collect) (g : α → Option β) :
    C.Collects fun x => (collect x).filterMap g where
  unit h := by rw [hC.unit h, List.filterMap_nil]
  map h := by rw [hC.map h]
  handle h := by rw [hC.handle h, List.filterMap_append]
  select h := by rw [hC.select h, List.filterMap_append, List.filterMap_append]
  ap h := by rw [hC.ap h, List.filterMap_append]

theorem liftA2 (hC : C.Collects collect) {g : P} (h : C.liftA2 g x y = .ok z) :
    collect z = collect x ++ collect y := by
  obtain ⟨partially, hpartially, hap⟩ := exists_of_bind_eq_ok h
  rw [hC.ap hap, hC.map hpartially]

theorem ifS (hC : C.Collects collect) (h : C.ifS c t e = .ok z) :
    collect z = collect c ++ collect t ++ collect e := by
  obtain ⟨tagged, htagged, h⟩ := exists_of_bind_eq_ok h
  obtain ⟨left, hleft, h⟩ := exists_of_bind_eq_ok h
  obtain ⟨right, hright, h⟩ := exists_of_bind_eq_ok h
  rw [hC.select h, hC.map htagged, hC.map hleft, hC.map hright]

theorem whenS (hC : C.Collects collect) (h : C.whenS c a = .ok z) :
    collect z = collect c ++ collect a := by
  obtain ⟨skip, hskip, h⟩ := exists_of_bind_eq_ok h
  rw [hC.ifS h, hC.unit hskip, List.append_nil]

theorem orS (hC : C.Collects collect) (h : C.orS x y = .ok z) :
    collect z = collect x ++ collect y := by
  obtain ⟨yes, hyes, h⟩ := exists_of_bind_eq_ok h
  rw [hC.ifS h, hC.unit hyes, List.append_nil]

theorem andS (hC : C.Collects collect) (h : C.andS x y = .ok z) :
    collect z = collect x ++ collect y := by
  obtain ⟨no, hno, h⟩ := exists_of_bind_eq_ok h
  rw [hC.ifS h, hC.unit hno, List.append_nil]

theorem fromMaybe (hC : C.Collects collect) (h : C.fromMaybe d x = .ok z) :
    collect z = collect x ++ collect d := by
  obtain ⟨tagged, htagged, h⟩ := exists_of_bind_eq_ok h
  obtain ⟨handler, hhandler, h⟩ := exists_of_bind_eq_ok h
  rw [hC.handle h, hC.map htagged, hC.map hhandler]

/-- A chain of one operation holds what its links hold, the end of the chain last. -/
theorem foldrM {op : F → F → Except Fault F}
    (hop : ∀ x y z, op x y = .ok z → collect z = collect x ++ collect y) (xs : List F)
    (h : xs.foldrM op e = .ok z) : collect z = xs.flatMap collect ++ collect e := by
  refine foldrM_induction (p := fun xs z => collect z = xs.flatMap collect ++ collect e) h rfl
    fun x xs rest z hlinked hrest => ?_
  rw [hop x rest z hlinked, hrest, List.flatMap_cons, List.append_assoc]

theorem orAll (hC : C.Collects collect) {xs : List F} (h : C.orAll xs = .ok z) :
    collect z = xs.flatMap collect := by
  obtain ⟨no, hno, h⟩ := exists_of_bind_eq_ok h
  rw [foldrM (fun _ _ _ => hC.orS) xs h, hC.unit hno, List.append_nil]

theorem andAll (hC : C.Collects collect) {xs : List F} (h : C.andAll xs = .ok z) :
    collect z = xs.flatMap collect := by
  obtain ⟨yes, hyes, h⟩ := exists_of_bind_eq_ok h
  rw [foldrM (fun _ _ _ => hC.andS) xs h, hC.unit hyes, List.append_nil]

end Context.Collects

/-- Both sides of a law hold the same, in the same order. -/
theorem LawSuite.collect_sides {σ P D F O α : Type} [Primitives P] (suite : LawSuite σ P D F O)
    {collect : F → List α} (hC : suite.context.Collects collect) {s : LawSamples P F} {law : Law}
    (hlaw : law ≠ .monadic) {lhs rhs : F} (h : suite.sides s law = .ok (lhs, rhs)) :
    collect lhs = collect rhs := by
  cases law with
  | f1 =>
    obtain ⟨handled, tagged, handler, hhandled, hlhs, htagged, hhandler, hrhs⟩ := Selective.f1_cases h
    rw [hC.map hlhs, hC.handle hhandled, hC.handle hrhs, hC.map htagged, hC.map hhandler]
  | f2 =>
    obtain ⟨tagged, handler, htagged, hlhs, hhandler, hrhs⟩ := Selective.f2_cases h
    rw [hC.handle hlhs, hC.map htagged, hC.handle hrhs, hC.map hhandler]
  | f3 =>
    obtain ⟨applied, tagged, handler, happlied, hlhs, htagged, hhandler, hrhs⟩ := Selective.f3_cases h
    rw [hC.handle hlhs, hC.map happlied, hC.handle hrhs, hC.map htagged, hC.map hhandler]
  | p1 =>
    obtain ⟨known, hknown, hlhs, hrhs⟩ := Selective.p1_cases h
    rw [hC.handle hlhs, hC.unit hknown, hC.map hrhs, List.append_nil]
  | p2 =>
    obtain ⟨known, hknown, hlhs, hrhs⟩ := Selective.p2_cases h
    rw [hC.handle hlhs, hC.unit hknown, hC.map hrhs, List.nil_append]
  | a1 =>
    obtain ⟨handled, nested, paired, inner, handler, hhandled, hlhs, hnested, hpaired, hinner,
      hhandler, hrhs⟩ := Selective.a1_cases h
    rw [hC.handle hlhs, hC.handle hhandled, hC.handle hrhs, hC.handle hinner, hC.map hnested,
      hC.map hpaired, hC.map hhandler, List.append_assoc]
  | monadic => exact absurd rfl hlaw

namespace Tree

variable {P G : Type}

/-- A place of a tree where something may happen, or where something is that is no tree. -/
inductive Leaf (P G : Type) where
  | effect (e : Effect P)
  | source (source : Source P G)
  | other (typeName : String)

def Leaf.effect? : Leaf P G → Option (Effect P)
  | effect e => some e
  | _ => none

def leaves : Tree P G → List (Leaf P G)
  | pure _ => []
  | lifted e _ => [.effect e]
  | selection d h _ _ => d.leaves ++ h.leaves
  | deferred g _ => [.source (.host g)]
  | loop action _ => [.source (.loop action)]
  | foreign typeName | unknown typeName => [.other typeName]

theorem effects_eq_leaves (t : Tree P G) : t.effects = t.leaves.filterMap Leaf.effect? := by
  induction t with
  | selection d h k route ihd ihh =>
    rw [effects_selection, leaves, List.filterMap_append, ihd, ihh]
  | _ => rfl

theorem leaves_withRoute (route : Route) (t : Tree P G) : (t.withRoute route).leaves = t.leaves := by
  cases t <;> rfl

theorem leaves_fmap {f : Fun P} {x t : Tree P G} (h : x.fmap f = .ok t) : t.leaves = x.leaves := by
  cases x with
  | pure v =>
    obtain ⟨u, -, rfl⟩ := exists_of_map_eq_ok h
    rfl
  | foreign typeName => cases h
  | unknown typeName => cases h
  | _ =>
    cases h
    rfl

variable [Primitives P]

/-- A known function and a known tag have no leaves, so that nothing is lost where they are not
kept. -/
theorem leaves_handle {x y t : Tree P G} (h : x.handle y = .ok t) :
    t.leaves = x.leaves ++ y.leaves := by
  obtain ⟨g, rfl, hmap⟩ | ⟨a, rfl, hmap⟩ | ⟨-, rfl⟩ := handle_cases h
  · rw [leaves_fmap hmap]
    exact (List.append_nil _).symm
  · exact leaves_fmap hmap
  · rfl

theorem leaves_select {x l r t : Tree P G} (h : x.select l r = .ok t) :
    t.leaves = x.leaves ++ l.leaves ++ r.leaves := by
  obtain ⟨tagged, viaLeft, inner, outer, htagged, hviaLeft, hinner, houter, rfl⟩ := select_cases h
  have hleaves : outer.leaves = x.leaves ++ l.leaves ++ r.leaves := by
    rw [leaves_handle houter, leaves_handle hinner, leaves_fmap htagged, leaves_fmap hviaLeft]
  split
  · exact hleaves
  · exact (leaves_withRoute .exclusive outer).trans hleaves

theorem leaves_ap {f x t : Tree P G} (h : f.ap x = .ok t) : t.leaves = f.leaves ++ x.leaves := by
  obtain ⟨disjunction, handler, tree, hdisjunction, hhandler, htree, rfl⟩ := ap_cases h
  have hleaves : tree.leaves = f.leaves ++ x.leaves := by
    rw [leaves_handle htree, leaves_fmap hdisjunction, leaves_fmap hhandler]
  split
  · exact hleaves
  · exact (leaves_withRoute .always tree).trans hleaves

theorem collects_leaves : (Context.free (P := P) (G := G)).Collects Tree.leaves where
  unit h := by
    cases h
    rfl
  map h := leaves_fmap h
  handle h := leaves_handle h
  select h := leaves_select h
  ap h := leaves_ap h

theorem collects_effects : (Context.free (P := P) (G := G)).Collects effectsByStack := by
  have heffects : effectsByStack = fun t : Tree P G => t.leaves.filterMap Leaf.effect? :=
    funext fun t => t.effectsByStack_eq.trans t.effects_eq_leaves
  rw [heffects]
  exact collects_leaves.filterMap Leaf.effect?

theorem effectsByStack_whenS {c a t : Tree P G} (h : c.whenS a = .ok t) :
    t.effectsByStack = c.effectsByStack ++ a.effectsByStack := by
  obtain ⟨tree, htree, hforget⟩ := exists_of_bind_eq_ok h
  rw [collects_effects.map hforget, collects_effects.whenS htree]

end Tree

namespace Folding

variable {σ P G D : Type} [Primitives P]

/-- What a fold that collects labels makes of one leaf. -/
def foldLeaf (I : Folding σ P G D (List String)) (unroll : Option Nat) :
    Tree.Leaf P G → Action σ (List String)
  | .effect e => I.interpret e
  | .source source => I.deferral unroll ⟨source, none⟩
  | .other typeName => throw (.notFoldable typeName)

@[simp] theorem everyLabel_map (f : Fun P) (x : List String) :
    (Context.everyLabel.inAction : Context (Action σ) P D (List String)).map f x = pure x := rfl

@[simp] theorem everyLabel_handle (x y : List String) :
    (Context.everyLabel.inAction : Context (Action σ) P D (List String)).handle x y =
      pure (x ++ y) := rfl

variable {I : Folding σ P G D (List String)} (hI : I.context = Context.everyLabel.inAction)
include hI

/-- A function is mapped after the labels are there, and changes none. -/
theorem deferral_everyLabel (unroll : Option Nat) (source : Source P G) (k : Post P) :
    I.deferral unroll ⟨source, k⟩ = I.deferral unroll ⟨source, none⟩ := by
  match unroll with
  | none =>
    simp only [deferral, hI]
    rfl
  | some 0 => rfl
  | some (n + 1) => simp only [deferral, hI, everyLabel_map]

/-- The fold that collects labels goes through the leaves in order. -/
theorem fold_everyLabel (unroll : Option Nat) (t : Tree P G) :
    I.fold unroll t = List.flatten <$> t.leaves.mapM (I.foldLeaf unroll) := by
  rw [fold_eq]
  induction t with
  | pure v =>
    rw [foldWith, hI]
    rfl
  | lifted e k => simp [foldWith, hI, Tree.leaves, foldLeaf]
  | selection d h k route ihd ihh => simp [foldWith, hI, ihd, ihh, Tree.leaves]
  | deferred g k =>
    rw [foldWith, deferral_everyLabel hI]
    simp [Tree.leaves, foldLeaf]
  | loop action k =>
    rw [foldWith, deferral_everyLabel hI]
    simp [Tree.leaves, foldLeaf]
  | foreign typeName => simp [foldWith, Tree.leaves, foldLeaf]
  | unknown typeName => simp [foldWith, Tree.leaves, foldLeaf]

end Folding

namespace Tree

variable {σ τ P G D O : Type} [Primitives P]

/-- No operation on trees drops, duplicates or reorders an effect, whatever it simplifies. Hence
the two sides of a law have the same fold into the context that collects labels: the same labels
in the same order, or the same failure. -/
theorem operations_keep_effects (I : Folding σ P G D (List String))
    (hI : I.context = Context.everyLabel.inAction) (suite : LawSuite τ P G (Tree P G) O)
    (hsuite : suite.context = Context.free) :
    let E : Tree P G → List (Effect P) := effectsByStack
    (∀ (f : Fun P) (x t : Tree P G), Context.free.map f x = .ok t → E t = E x) ∧
    (∀ x y t : Tree P G, Context.free.handle x y = .ok t → E t = E x ++ E y) ∧
    (∀ x l r t : Tree P G, Context.free.select x l r = .ok t → E t = E x ++ E l ++ E r) ∧
    (∀ f x t : Tree P G, Context.free.ap f x = .ok t → E t = E f ++ E x) ∧
    (∀ (g : P) (x y t : Tree P G), Context.free.liftA2 g x y = .ok t → E t = E x ++ E y) ∧
    (∀ c t e z : Tree P G, Context.free.ifS c t e = .ok z → E z = E c ++ E t ++ E e) ∧
    (∀ c a t : Tree P G, Context.free.whenS c a = .ok t ∨ c.whenS a = .ok t → E t = E c ++ E a) ∧
    (∀ x y t : Tree P G, Context.free.orS x y = .ok t ∨ Context.free.andS x y = .ok t →
      E t = E x ++ E y) ∧
    (∀ d x t : Tree P G, Context.free.fromMaybe d x = .ok t → E t = E x ++ E d) ∧
    (∀ (xs : List (Tree P G)) (t : Tree P G),
      Context.free.orAll xs = .ok t ∨ Context.free.andAll xs = .ok t → E t = xs.flatMap E) ∧
    ∀ (s : LawSamples P (Tree P G)) (law : Law), law ≠ .monadic → ∀ lhs rhs,
      suite.sides s law = .ok (lhs, rhs) → ∀ unroll,
        ∃ a, I.FoldsAs unroll lhs a ∧ I.FoldsAs unroll rhs a := by
  have hE : (Context.free (P := P) (G := G)).Collects effectsByStack := collects_effects
  refine ⟨fun f x t => hE.map, fun x y t => hE.handle, fun x l r t => hE.select, fun f x t => hE.ap,
    fun g x y t => hE.liftA2, fun c t e z => hE.ifS, fun c a t h => h.elim hE.whenS
      effectsByStack_whenS, fun x y t h => h.elim hE.orS hE.andS, fun d x t => hE.fromMaybe,
    fun xs t h => h.elim hE.orAll hE.andAll, fun s law hlaw lhs rhs hsides unroll => ?_⟩
  have hleaves : lhs.leaves = rhs.leaves :=
    suite.collect_sides (hsuite ▸ collects_leaves) hlaw hsides
  refine ⟨I.fold unroll lhs, Folding.foldsAs_iff.mpr rfl, Folding.foldsAs_iff.mpr ?_⟩
  rw [Folding.fold_everyLabel hI, Folding.fold_everyLabel hI, hleaves]

/-- A chain that asks for one effect twice, and two nestings of three operands. -/
theorem operations_keep_effects_chain :
    let ask (name : String) : Effect Builtin :=
      { className := name, lineage := [name], fields := [], label := .ok name }
    let I : Folding Nat Builtin Empty (Deferral Builtin Empty) (List String) :=
      { context := Context.everyLabel.inAction
        interpret := fun e => do
          modify (· + 1)
          return [e.className]
        gen := nofun
        suspend := id }
    let x : Tree Builtin Empty := .lift (ask "X")
    let y : Tree Builtin Empty := .lift (ask "Y")
    let suite : LawSuite Unit Builtin Empty (Tree Builtin Empty) Unit :=
      { context := Context.free, observe := fun _ => return () }
    let s : LawSamples Builtin (Tree Builtin Empty) :=
      { x, y, c := y, choice := y, z := x, g := .toLeft, curried := .toLeft, value := .null }
    I.context = Context.everyLabel.inAction ∧ suite.context = Context.free ∧
      (∃ t, Context.free.orAll [x, y, x] = .ok t ∧
        t.effectsByStack = [ask "X", ask "Y", ask "X"]) ∧
      ∃ lhs rhs, suite.sides s .a1 = .ok (lhs, rhs) ∧
        ∃ a, I.FoldsAs (some 0) lhs a ∧ I.FoldsAs (some 0) rhs a ∧ a 0 = .ok ["X", "Y", "X"] 3 := by
  intro ask I x y suite s
  obtain ⟨-, -, -, -, -, -, -, -, -, hchain, hlaws⟩ := operations_keep_effects I rfl suite rfl
  obtain ⟨t, ht⟩ : ∃ t, Context.free.orAll [x, y, x] = .ok t := ⟨_, rfl⟩
  have hwritten (e : Effect Builtin) : effectsByStack (.lift e : Tree Builtin Empty) = [e] :=
    effectsByStack_eq _
  have heffects : t.effectsByStack = [ask "X", ask "Y", ask "X"] := by
    simp [hchain _ t (.inl ht), x, y, hwritten]
  obtain ⟨a, hlhs, hrhs⟩ := hlaws s .a1 (by decide) _ _ rfl (some 0)
  have hlabels : a 0 = .ok ["X", "Y", "X"] 3 := by
    rw [Folding.foldsAs_iff.mp hlhs]
    rfl
  exact ⟨rfl, rfl, ⟨t, ht, heffects⟩, _, _, rfl, a, hlhs, hrhs, hlabels⟩

end Tree

end SelectiveEffects
