import SelectiveEffects.Proofs.Fold.Worklist
import SelectiveEffects.Proofs.Tree.WellMade
import SelectiveEffects.Proofs.Walk.Jobs

/-! A fold within a bound comes to an end, although the tree may go on for ever. -/

namespace SelectiveEffects

/-- The operations give a value in every world, though perhaps another one each time. -/
structure Selective.Total {σ P F : Type} (S : Selective (Action σ) P F) : Prop where
  unit : ∀ v w, ∃ x w', S.unit v w = .ok x w'
  map : ∀ f x w, ∃ y w', S.map f x w = .ok y w'
  handle : ∀ x y w, ∃ z w', S.handle x y w = .ok z w'

namespace Folding

variable {P G : Type}

def Job.defers : Job P G → Bool
  | .visit (.deferred _ _) _ | .visit (.loop _ _) _ => true
  | _ => false

variable {σ D F : Type} [Primitives P]

def stack (I : Folding σ P G D F) : JobStack σ (Job P G) F (Worklist P G F) where
  of := .mk
  work := I.work
  defers := Job.defers

/-- What the fold asks for is refused: the meaning of an effect, or a value past the bound. -/
def Refuses (I : Folding σ P G D F) (E : Effect P → Prop) : Job P G → σ → Prop
  | .visit (.lifted e _) _, w => E e ∧ ∃ f w', I.interpret e w = .error f w'
  | .visit (.deferred _ _) (some 0), w | .visit (.loop _ _) (some 0), w =>
    ∃ f w', I.cut w = .error f w'
  | _, _ => False

variable {I : Folding σ P G D F} {E : Effect P → Prop} {n level budget : Nat}

variable (I) in
theorem exhausts : I.stack.Exhausts I.exhaust where
  step {u v w w'} h fuel := by
    change I.work u w = _ at h
    rw [exhaust, Action.bind_apply, h]
  fails {u w f w'} h fuel := by
    change I.work u w = _ at h
    rw [exhaust, Action.bind_apply, h]
  done values fuel w := rfl

theorem work_visit (I : Folding σ P G D F) (t : Tree P G) (budget : Option Nat)
    (jobs : List (Job P G)) (values : List F) :
    I.work ⟨.visit t budget :: jobs, values⟩ =
      I.visit budget ⟨jobs, values⟩ t >>= fun v => pure (some v) :=
  map_eq_pure_bind _ _

/-- What is refused is raised. -/
theorem Refuses.raises {job : Job P G} {w : σ} (h : I.Refuses E job w) :
    ∃ f w', ∀ jobs values, I.work ⟨job :: jobs, values⟩ w = .error f w' := by
  unfold Refuses at h
  split at h
  · obtain ⟨-, f, w', hf⟩ := h
    refine ⟨f, w', fun jobs values => ?_⟩
    simp only [work_visit, visit, Action.bind_apply, hf]
  · obtain ⟨f, w', hf⟩ := h
    refine ⟨f, w', fun jobs values => ?_⟩
    simp only [work_visit, visit, visitDeferral, Action.bind_apply, hf]
  · obtain ⟨f, w', hf⟩ := h
    refine ⟨f, w', fun jobs values => ?_⟩
    simp only [work_visit, visit, visitDeferral, Action.bind_apply, hf]
  · exact h.elim

omit [Primitives P] in
/-- Nothing is refused when effects and cut subtrees have values. -/
theorem not_refuses (hinterpret : ∀ e, E e → ∀ w, ∃ x w', I.interpret e w = .ok x w')
    (hcut : ∀ w, ∃ x w', I.cut w = .ok x w') (job : Job P G) (w : σ) : ¬ I.Refuses E job w := by
  have hvalued : ¬ ∃ f w', I.cut w = .error f w' := by
    rintro ⟨f, w₁, hf⟩
    obtain ⟨x, w₂, hx⟩ := hcut w
    cases hf.symm.trans hx
  intro h
  unfold Refuses at h
  split at h
  · obtain ⟨he, f, w₁, hf⟩ := h
    obtain ⟨x, w₂, hx⟩ := hinterpret _ he w
    cases hf.symm.trans hx
  · exact hvalued h
  · exact hvalued h
  · exact h

theorem leaves_handle (hI : I.context.Total) (hlevel : level ≤ n) (k : Post P) (x y : F) :
    I.stack.Leaves n (I.Refuses E) [.handle k] level [y, x] := by
  refine JobStack.leaves_of_value hlevel fun w => .inr ?_
  obtain ⟨z, w₁, hz⟩ := hI.handle x y w
  obtain ⟨mapped, w₂, hmapped⟩ := hI.map k.apply z w₁
  refine ⟨mapped, w₂, fun jobs values => ?_⟩
  simp only [stack, work, List.cons_append, List.nil_append, Action.bind_apply, hz, hmapped]
  rfl

theorem leaves_map (hI : I.context.Total) (hlevel : level ≤ n) (k : Post P) (x : F) :
    I.stack.Leaves n (I.Refuses E) [.map k] level [x] := by
  refine JobStack.leaves_of_value hlevel fun w => .inr ?_
  obtain ⟨y, w', hy⟩ := hI.map k.apply x w
  refine ⟨y, w', fun jobs values => ?_⟩
  simp only [stack, work, List.cons_append, List.nil_append, Action.bind_apply, hy]
  rfl

/-- Visiting a tree leaves one value when visiting its deferred nodes does. -/
theorem leaves_visit (hI : I.context.Total) (hlevel : level ≤ n)
    (hdeferral : ∀ source k, (Tree.ofSource source k).Every E Tree.Decides False →
      I.stack.Leaves n (I.Refuses E) [.visit (.ofSource source k) (some budget)] level [])
    {t : Tree P G} (ht : t.Every E Tree.Decides False) :
    I.stack.Leaves n (I.Refuses E) [.visit t (some budget)] level [] := by
  induction t with
  | pure v =>
    refine JobStack.leaves_of_value hlevel fun w => .inr ?_
    obtain ⟨x, w', hx⟩ := hI.unit v w
    refine ⟨x, w', fun jobs values => ?_⟩
    simp only [stack, work_visit, visit, List.nil_append, Action.bind_apply, hx]
    rfl
  | lifted e k =>
    refine JobStack.leaves_of_value hlevel fun w => ?_
    cases he : I.interpret e w with
    | error f w' => exact .inl ⟨ht, f, w', he⟩
    | ok x w₁ =>
      obtain ⟨y, w₂, hy⟩ := hI.map k.apply x w₁
      refine .inr ⟨y, w₂, fun jobs values => ?_⟩
      simp only [stack, work_visit, visit, List.nil_append, Action.bind_apply, he, hy]
      rfl
  | selection d h k route ihd ihh =>
    refine JobStack.leaves_of_jobs hlevel
      [.visit d (some budget), .visit h (some budget), .handle k] rfl (fun jobs values w => rfl) ?_
    exact (ihd ht.1).cons fun x => (ihh ht.2).cons fun y => leaves_handle hI hlevel k x y
  | deferred g k => exact hdeferral (.host g) k ht
  | loop action k => exact hdeferral (.loop action) k ht
  | foreign typeName => exact ht.elim
  | unknown typeName => exact ht.elim

theorem work_ofSource (I : Folding σ P G D F) (source : Source P G) (k : Post P)
    (budget : Option Nat) (jobs : List (Job P G)) (values : List F) :
    I.work ⟨.visit (.ofSource source k) budget :: jobs, values⟩ =
      I.visitDeferral ⟨source, k⟩ budget ⟨jobs, values⟩ >>= fun v => pure (some v) := by
  rw [work_visit]
  cases source <;> rfl

theorem leaves_cut (hlevel : level ≤ n) (source : Source P G) (k : Post P) :
    I.stack.Leaves n (I.Refuses E) [.visit (.ofSource source k) (some 0)] level [] := by
  refine JobStack.leaves_of_value hlevel fun w => ?_
  cases hcut : I.cut w with
  | error f w' => exact .inl (by cases source <;> exact ⟨f, w', hcut⟩)
  | ok x w' =>
    refine .inr ⟨x, w', fun jobs values => ?_⟩
    simp only [stack, work_ofSource, visitDeferral, List.nil_append, Action.bind_apply, hcut]
    rfl

/-- What is left of the budget and the number of enclosing subtrees add up to the bound. -/
theorem leaves_within (hI : I.context.Total)
    (hgen : ∀ g w, ∃ u w', I.gen g w = .ok u w' ∧ u.Every E Tree.Decides False)
    (hlevel : level + budget = n) {t : Tree P G} (ht : t.Every E Tree.Decides False) :
    I.stack.Leaves n (I.Refuses E) [.visit t (some budget)] level [] := by
  -- On the budget before the tree: what a node gives is no part of the tree that holds the node.
  induction budget generalizing level t with
  | zero => exact leaves_visit hI (by omega) (fun source k _ => leaves_cut (by omega) source k) ht
  | succ budget ih =>
    refine leaves_visit hI (by omega) (fun source k hs => ?_) ht
    refine JobStack.leaves_of_forced (by omega) (by cases source <;> rfl) fun w => ?_
    obtain ⟨u, w', hu, hevery⟩ := Source.exists_expand_every hgen hs w
    refine ⟨[.visit u (some budget), .map k], w', fun jobs values => ?_, ?_⟩
    · simp only [stack, work_ofSource, visitDeferral, Action.bind_apply, hu]
      rfl
    · exact (ih (by omega) hevery).cons fun x => leaves_map hI (by omega) k x

/-- Within any bound, a fold into a context whose operations do not fail comes to an end. -/
theorem concludes (hI : I.context.Total)
    (hgen : ∀ g w, ∃ u w', I.gen g w = .ok u w' ∧ u.Every E Tree.Decides False) (n : Nat)
    {t : Tree P G} (ht : t.Every E Tree.Decides False) (w : σ) :
    I.stack.Concludes n (I.Refuses E) I.exhaust (.visit t (some n)) w :=
  (leaves_within hI hgen (Nat.zero_add n) ht).concludes I.exhausts Refuses.raises w

end Folding

end SelectiveEffects
