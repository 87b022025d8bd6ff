import SelectiveEffects.Possibilities
import SelectiveEffects.Proofs.Fold.Worklist
import SelectiveEffects.Proofs.Path.Stacks
import SelectiveEffects.Proofs.Path.Worklist
import SelectiveEffects.Scenario.Builtin

/-! The labels that a fold lists are those of the path of the tree, in one order. -/

namespace SelectiveEffects

open Scenario

namespace Survey

theorem leaves_inOrder (x y : Survey) :
    (x.inOrder y).path.leaves = x.path.leaves ++ y.path.leaves := by
  simp only [inOrder, Path.leaves_seqOf, Path.leavesAll, List.append_nil]

theorem leaves_maybe (x y : Survey) :
    (x.maybe y).path.leaves = x.path.leaves ++ y.path.leaves := by
  simp only [maybe, Path.leaves_seqOf, Path.leaves_altOf, Path.leavesAll, Path.nothing, Path.leaves,
    List.append_nil, List.nil_append]

theorem leaves_oneOf (x left right : Survey) :
    (x.oneOf left right).path.leaves =
      x.path.leaves ++ left.path.leaves ++ right.path.leaves := by
  simp only [oneOf, Path.leaves_seqOf, Path.leaves_altOf, Path.leavesAll, List.append_nil,
    List.append_assoc]

end Survey

namespace Analysis

variable {P G σ : Type} [Primitives P]

/-- Lists labels, and may refuse deferred nodes past the bound. -/
def listing (gen : G → Action σ (Tree P G)) (strict : Bool) :
    Folding σ P G (Deferral P G) (List String) :=
  { labelFolding gen with onUnbounded := if strict then none else some (pure []) }

theorem listing_false (gen : G → Action σ (Tree P G)) : listing gen false = labelFolding gen := rfl

variable {gen : G → Action σ (Tree P G)} {strict : Bool}

/-- Whatever the route, a selection lists its disjunction and then its handler. -/
theorem foldWith_selection (deferral : Deferral P G → Action σ (List String)) (d h : Tree P G)
    (k : Post P) (route : Route) :
    (listing gen strict).foldWith deferral (.selection d h k route) = (do
      let x ← (listing gen strict).foldWith deferral d
      let y ← (listing gen strict).foldWith deferral h
      return x ++ y) := rfl

theorem foldWith_listing {listed : Deferral P G → Action σ (List String)}
    {deferral : Source P G → Action σ Survey}
    (hd : ∀ source k, source.Runnable →
      listed ⟨source, k⟩ = (fun S => S.path.leaves) <$> deferral source)
    {t : Tree P G} (ht : t.Runnable) :
    (listing gen strict).foldWith listed t =
      (fun S => S.path.leaves) <$> Survey.ofTreeWith deferral t := by
  induction t using Survey.ofTreeWith.induct with
  | case1 v => rfl
  | case2 e k =>
    obtain ⟨label, he⟩ := ht
    simp only [Survey.ofTreeWith, Folding.foldWith, listing, labelFolding, he]
    rfl
  | case3 t l k route r k' iht ihl ihr =>
    rw [foldWith_selection, foldWith_selection, iht ht.1.1, ihl ht.1.2, ihr ht.2, Survey.ofTreeWith]
    simp only [map_eq_pure_bind, bind_assoc, pure_bind, Survey.leaves_oneOf]
  | case4 d h k ihd ihh =>
    rw [foldWith_selection, ihd ht.1, ihh ht.2, Survey.ofTreeWith_always]
    simp only [map_eq_pure_bind, bind_assoc, pure_bind, Survey.leaves_inOrder]
  | case5 d h k route hexclusive halways ihd ihh =>
    rw [foldWith_selection, ihd ht.1, ihh ht.2, Survey.ofTreeWith_maybe hexclusive halways]
    simp only [map_eq_pure_bind, bind_assoc, pure_bind, Survey.leaves_maybe]
  | case6 g k => exact hd (.host g) k trivial
  | case7 action k => exact hd (.loop action) k ht
  | case8 typeName => exact ht.elim
  | case9 typeName => exact ht.elim

/-- At every bound, the fold does what the survey does, and lists the labels of its path. -/
theorem foldUpTo_listing (hgen : ∀ g, ∃ t, t.Runnable ∧ Generates gen g t) (n : Nat)
    {t : Tree P G} (ht : t.Runnable) :
    (listing gen strict).foldUpTo n t =
      (fun S => S.path.leaves) <$> Survey.ofTree gen strict n t := by
  induction n generalizing t with
  | zero =>
    refine foldWith_listing (fun source k _ => ?_) ht
    cases strict <;> rfl
  | succ n ih =>
    refine foldWith_listing (fun source k hs => ?_) ht
    -- Each force may leave another world, but it finds the same subtree.
    obtain ⟨inner, hinner, hexpand⟩ := Source.exists_standsFor hgen hs
    rw [map_bind]
    exact hexpand.bind_congr ((bind_pure _).trans (ih hinner))

theorem dependencies_natCast (gen : G → Action σ (Tree P G)) (n : Nat) (t : Tree P G) :
    dependencies gen t n = Path.distinct <$> (listing gen false).foldUpTo n t := by
  have hn : Fault.Limit.foldUnroll.natural (n : Int) = .ok n := by
    rw [Fault.Limit.natural, if_neg (by omega), Int.toNat_natCast]
  rw [dependencies, hn, Action.ofExcept_ok, pure_bind, map_eq_pure_bind, listing_false]

/-- Without expanding anything, the fold lists the labels of the effects in order. -/
theorem exists_effect_labels (gen : G → Action σ (Tree P G)) {t : Tree P G} (ht : t.Runnable) :
    ∃ all, t.effects.mapM (fun e => e.label) = .ok all ∧
      (listing gen false).foldUpTo 0 t = pure all := by
  induction t with
  | lifted e k =>
    obtain ⟨label, he⟩ := ht
    refine ⟨[label], ?_, ?_⟩
    · simp only [Tree.effects_lifted, List.mapM_cons, he, List.mapM_nil]
      rfl
    · simp only [Folding.foldUpTo, Folding.foldWith, listing, labelFolding, he]
      rfl
  | selection d h k route ihd ihh =>
    obtain ⟨first, hfirst, hd⟩ := ihd ht.1
    obtain ⟨second, hsecond, hh⟩ := ihh ht.2
    refine ⟨first ++ second, ?_, ?_⟩
    · rw [Tree.effects_selection, List.mapM_append, hfirst, hsecond]
      rfl
    · rw [Folding.foldUpTo] at hd hh ⊢
      rw [foldWith_selection, hd, hh, pure_bind, pure_bind]
  | foreign typeName => exact ht.elim
  | unknown typeName => exact ht.elim
  | _ => exact ⟨[], rfl, rfl⟩

/-- The stack-driven fold, the path that the stack-driven survey builds, and at bound zero the
effects that are structurally there, list the same labels in the same order. -/
theorem listings_agree (hgen : ∀ g, ∃ t, t.Runnable ∧ Generates gen g t) {t : Tree P G}
    (ht : t.Runnable) (n : Nat) (w w₀ : σ) :
    ∃ listed w₁ S w₂, (labelFolding gen).Yields (some n) t w listed w₁ ∧
      dependencies gen t n w = .ok (Path.distinct listed) w₁ ∧
      Survey.Yields gen false n t w₀ S w₂ ∧ S.path.labelsByStack = Path.distinct listed ∧
      (n = 0 → ∃ all, t.effectsByStack.mapM (fun e => e.label) = .ok all ∧
        Path.distinct all = Path.distinct listed) := by
  obtain ⟨S, hS⟩ := Survey.exists_settles_ofTree hgen n ht
  have hfold : ((listing gen false).foldUpTo n t).Settles S.path.leaves := by
    rw [foldUpTo_listing hgen n ht]
    exact hS.map fun S => S.path.leaves
  obtain ⟨w₁, hlisted⟩ := hfold w
  obtain ⟨w₂, hsurvey⟩ := hS w₀
  refine ⟨S.path.leaves, w₁, S, w₂, Folding.yields_iff.mpr hlisted, ?_,
    Survey.yields_of_ofTree hsurvey, S.path.labelsByStack_eq, ?_⟩
  · rw [dependencies_natCast, map_eq_pure_bind, Action.bind_apply, hlisted]
    rfl
  · rintro rfl
    obtain ⟨all, hall, hpure⟩ := exists_effect_labels gen ht
    have hleaves : all = S.path.leaves := hfold.unique (congrFun hpure w)
    exact ⟨all, by rw [t.effectsByStack_eq, hall], congrArg Path.distinct hleaves⟩

/-- A choice with a deferred side, before anything is expanded. -/
theorem listings_agree_exclusive :
    let effect (name : String) : Effect Builtin :=
      { className := name, lineage := [name], fields := [], label := .ok name }
    let gen : Unit → Action Nat (Tree Builtin Unit) := fun _ => do
      modify (· + 1)
      return .lift (effect "Right")
    let t : Tree Builtin Unit :=
      .selection (.selection (.lift (effect "Ask")) (.lift (effect "Left")) none .optional)
        (.deferred () none) none .exclusive
    (∀ g, ∃ t, t.Runnable ∧ Generates gen g t) ∧ t.Runnable ∧
      ∃ listed w₁ S w₂, (labelFolding gen).Yields (some 0) t 0 listed w₁ ∧
        dependencies gen t (0 : Nat) 0 = .ok (Path.distinct listed) w₁ ∧
        Survey.Yields gen false 0 t 1 S w₂ ∧ S.path.labelsByStack = Path.distinct listed ∧
        (0 = 0 → ∃ all, t.effectsByStack.mapM (fun e => e.label) = .ok all ∧
          Path.distinct all = Path.distinct listed) := by
  intro effect gen t
  have hgen (g : Unit) : ∃ t, t.Runnable ∧ Generates gen g t :=
    ⟨.lift (effect "Right"), ⟨"Right", rfl⟩, fun w => ⟨w + 1, rfl⟩⟩
  have ht : t.Runnable := ⟨⟨⟨"Ask", rfl⟩, ⟨"Left", rfl⟩⟩, trivial⟩
  exact ⟨hgen, ht, listings_agree hgen ht 0 0 1⟩

end Analysis

end SelectiveEffects
