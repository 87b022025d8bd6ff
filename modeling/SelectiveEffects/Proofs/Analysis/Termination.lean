import SelectiveEffects.Context.Labels
import SelectiveEffects.Proofs.Walk.Fold
import SelectiveEffects.Proofs.Walk.Survey
import SelectiveEffects.Scenario.Builtin

/-! Analysis of infinite loops comes to an end. -/

namespace SelectiveEffects.Analysis

open Scenario

variable {σ P G D F : Type} [Primitives P]

/-- The generators need only give some tree whenever they are asked, which may again hold deferred
nodes and loops; a loop gives none where its action is a known value whose truth cannot be told. `E` is
what is known of the effects. Both walks end with exactly one path or value left, or where something
they ask for is refused: a label, the meaning of an effect, a value past the bound. Neither ever comes
inside more forced subtrees than the bound. -/
theorem bounded_walks_end {I : Folding σ P G D F} (hI : I.context.Total) {E : Effect P → Prop}
    (hgen : ∀ g w, ∃ u w', I.gen g w = .ok u w' ∧ u.Every E Tree.Decides False) {t : Tree P G}
    (ht : t.Every E Tree.Decides False) (strict : Bool) (n : Nat) (w : σ) :
    (Survey.stack I.gen strict).Concludes n (Survey.Refuses strict E)
        (Survey.exhaust I.gen strict) (.visit t n) w ∧
      I.stack.Concludes n (I.Refuses E) I.exhaust (.visit t (some n)) w :=
  ⟨Survey.concludes hgen n ht w, Folding.concludes hI hgen n ht w⟩

/-- A loop over a node that gives another question, and itself again, each time it is forced. -/
theorem bounded_walks_end_questions :
    let ask (number : Nat) : Effect Builtin :=
      { className := "Ask", lineage := ["Ask"], fields := [], label := .ok number.repr }
    let gen : Unit → Action Nat (Tree Builtin Unit) := fun _ number =>
      .ok (.selection (.lift (ask number)) (.deferred () none) none .optional) (number + 1)
    let I : Folding Nat Builtin Unit Unit (List String) :=
      { context := Context.everyLabel.inAction
        interpret := fun e => Action.ofExcept (e.label.map fun label => [label])
        gen := gen
        onUnbounded := some (pure [])
        suspend := fun _ => () }
    let t : Tree Builtin Unit := .loop (.deferred () none) none
    let E : Effect Builtin → Prop := fun e => ∃ label, e.label = .ok label
    I.context.Total ∧ (∀ g w, ∃ u w', I.gen g w = .ok u w' ∧ u.Every E Tree.Decides False) ∧
      t.Every E Tree.Decides False ∧
      (∃ m path w', (Survey.stack gen false).Trail 3 m ⟨[(.visit t 3, 0)], [], 0⟩
        ⟨[], [path], w'⟩) ∧
      ∃ m labels w', I.stack.Trail 3 m ⟨[(.visit t (some 3), 0)], [], 0⟩
        ⟨[], [labels], w'⟩ := by
  intro ask gen I t E
  have hI : I.context.Total :=
    ⟨fun _ w => ⟨[], w, rfl⟩, fun _ labels w => ⟨labels, w, rfl⟩,
      fun labels labels' w => ⟨labels ++ labels', w, rfl⟩⟩
  have hgen (g : Unit) (w : Nat) : ∃ u w', I.gen g w = .ok u w' ∧ u.Every E Tree.Decides False :=
    ⟨_, w + 1, rfl, ⟨w.repr, rfl⟩, trivial⟩
  have ht : t.Every E Tree.Decides False := ⟨rfl, trivial⟩
  have hinterpret (e : Effect Builtin) (he : E e) (w : Nat) :
      ∃ x w', I.interpret e w = .ok x w' := by
    obtain ⟨label, hlabel⟩ := he
    exact ⟨[label], w, by simp only [I, hlabel]; rfl⟩
  have hcut (w : Nat) : ∃ x w', I.cut w = .ok x w' := ⟨[], w, rfl⟩
  obtain ⟨hsurvey, hfold⟩ := bounded_walks_end hI hgen ht false 3 0
  obtain ⟨m, path, w', hpath, -⟩ := hsurvey.exists_value (Survey.not_refuses fun _ he => he)
  obtain ⟨m', labels, w'', hlabels, -⟩ :=
    hfold.exists_value (Folding.not_refuses hinterpret hcut)
  exact ⟨hI, hgen, ht, ⟨m, path, w', hpath⟩, m', labels, w'', hlabels⟩

end SelectiveEffects.Analysis
