import SelectiveEffects.Proofs.Path.Worklist
import SelectiveEffects.Proofs.Walk.Jobs

/-! A survey within a bound comes to an end, although the tree may go on for ever. -/

namespace SelectiveEffects.Survey

variable {P G σ : Type}

def Job.defers : Job P G → Bool
  | .visit (.deferred _ _) _ | .visit (.loop _ _) _ => true
  | _ => false

/-- What the survey asks for is refused: a label, or a path past the bound. -/
def Refuses (strict : Bool) (E : Effect P → Prop) : Job P G → σ → Prop
  | .visit (.lifted e _) _, _ => E e ∧ ∃ f, e.label = .error f
  | .visit (.deferred _ _) 0, _ | .visit (.loop _ _) 0, _ => strict = true
  | _, _ => False

variable [Primitives P]

def stack (gen : G → Action σ (Tree P G)) (strict : Bool) :
    JobStack σ (Job P G) Survey (Worklist P G) where
  of := .mk
  work := work gen strict
  defers := Job.defers

variable {gen : G → Action σ (Tree P G)} {strict : Bool} {E : Effect P → Prop}
variable {n level budget : Nat}

variable (gen strict) in
theorem exhausts : (stack gen strict).Exhausts (exhaust gen strict) where
  step {u v w w'} h fuel := by
    change work gen strict u w = _ at h
    rw [exhaust, Action.bind_apply, h]
  fails {u w f w'} h fuel := by
    change work gen strict u w = _ at h
    rw [exhaust, Action.bind_apply, h]
  done built fuel w := rfl

variable (gen strict) in
theorem work_visit (t : Tree P G) (budget : Nat) (jobs : List (Job P G)) (built : List Survey) :
    work gen strict ⟨.visit t budget :: jobs, built⟩ =
      visit gen strict budget ⟨jobs, built⟩ t >>= fun v => pure (some v) :=
  map_eq_pure_bind _ _

variable (gen strict) in
theorem work_ofSource (source : Source P G) (k : Post P) (budget : Nat) (jobs : List (Job P G))
    (built : List Survey) :
    work gen strict ⟨.visit (.ofSource source k) budget :: jobs, built⟩ =
      visitDeferral gen strict source budget ⟨jobs, built⟩ >>= fun v => pure (some v) := by
  rw [work_visit]
  cases source <;> rfl

/-- What is refused is raised. -/
theorem Refuses.raises {job : Job P G} {w : σ} (h : Refuses strict E job w) :
    ∃ f w', ∀ jobs built, work gen strict ⟨job :: jobs, built⟩ w = .error f w' := by
  unfold Refuses at h
  split at h
  · obtain ⟨-, f, hf⟩ := h
    refine ⟨f, w, fun jobs built => ?_⟩
    simp only [work_visit, visit, hf]
    rfl
  · subst h
    exact ⟨_, w, fun jobs built => rfl⟩
  · subst h
    exact ⟨_, w, fun jobs built => rfl⟩
  · exact h.elim

omit [Primitives P] in
/-- Readable labels are not refused, and a lenient survey leaves out what is past the bound. -/
theorem not_refuses (hE : ∀ e, E e → ∃ label, e.label = .ok label) (job : Job P G) (w : σ) :
    ¬ Refuses false E job w := by
  intro h
  unfold Refuses at h
  split at h
  · obtain ⟨he, f, hf⟩ := h
    obtain ⟨label, hlabel⟩ := hE _ he
    cases hf.symm.trans hlabel
  · cases h
  · cases h
  · exact h

/-- A job that joins the topmost paths. -/
theorem leaves_join {job : Job P G} {bs : List Survey} (hlevel : level ≤ n) (x : Survey)
    (hwork : ∀ jobs built, work gen strict ⟨job :: jobs, bs ++ built⟩ =
      pure (some ⟨jobs, x :: built⟩)) :
    (stack gen strict).Leaves n (Refuses strict E) [job] level bs :=
  JobStack.leaves_of_value hlevel fun w =>
    .inr ⟨x, w, fun jobs built => congrFun (hwork jobs built) w⟩

/-- Visiting a selection only leaves other jobs. -/
theorem leaves_selection {d h : Tree P G} {k : Post P} {route : Route} (hlevel : level ≤ n)
    (js : List (Job P G))
    (hvisit : ∀ jobs built, visit gen strict budget ⟨jobs, built⟩ (.selection d h k route) =
      pure ⟨js ++ jobs, built⟩)
    (hjs : (stack gen strict).Leaves n (Refuses strict E) js level []) :
    (stack gen strict).Leaves n (Refuses strict E) [.visit (.selection d h k route) budget]
      level [] := by
  refine JobStack.leaves_of_jobs hlevel js rfl (fun jobs built w => ?_) hjs
  simp only [stack, work_visit, hvisit]
  rfl

/-- Visiting a tree leaves one path when visiting its deferred nodes does. -/
theorem leaves_visit (hlevel : level ≤ n)
    (hdeferral : ∀ source k, (Tree.ofSource source k).Every E Tree.Decides False →
      (stack gen strict).Leaves n (Refuses strict E) [.visit (.ofSource source k) budget] level [])
    {t : Tree P G} (ht : t.Every E Tree.Decides False) :
    (stack gen strict).Leaves n (Refuses strict E) [.visit t budget] level [] := by
  induction t using ofTreeWith.induct with
  | case1 v => exact leaves_join hlevel nothing fun _ _ => rfl
  | case2 e k =>
    cases hlabel : e.label with
    | error f => exact JobStack.leaves_of_value hlevel fun w => .inl ⟨ht, f, hlabel⟩
    | ok label =>
      refine leaves_join hlevel { path := .step 0 label } fun jobs built => ?_
      simp only [work_visit, visit, hlabel]
      rfl
  | case3 t l k route r k' iht ihl ihr =>
    refine leaves_selection hlevel [.visit t budget, .visit l budget, .visit r budget, .oneOf]
      (fun _ _ => rfl) ?_
    exact (iht ht.1.1).cons fun x => (ihl ht.1.2).cons fun left => (ihr ht.2).cons fun right =>
      leaves_join hlevel (x.oneOf left right) fun _ _ => rfl
  | case4 d h k ihd ihh =>
    refine leaves_selection hlevel [.visit d budget, .visit h budget, .inOrder]
      (fun jobs built => visit_always gen strict jobs built budget d h k) ?_
    exact (ihd ht.1).cons fun x => (ihh ht.2).cons fun y =>
      leaves_join hlevel (x.inOrder y) fun _ _ => rfl
  | case5 d h k route hexclusive halways ihd ihh =>
    refine leaves_selection hlevel [.visit d budget, .visit h budget, .maybe]
      (fun jobs built => visit_maybe gen strict hexclusive halways) ?_
    exact (ihd ht.1).cons fun x => (ihh ht.2).cons fun y =>
      leaves_join hlevel (x.maybe y) fun _ _ => rfl
  | case6 g k => exact hdeferral (.host g) k ht
  | case7 action k => exact hdeferral (.loop action) k ht
  | case8 typeName => exact ht.elim
  | case9 typeName => exact ht.elim

theorem leaves_cut (hlevel : level ≤ n) (source : Source P G) (k : Post P) :
    (stack gen strict).Leaves n (Refuses strict E) [.visit (.ofSource source k) 0] level [] := by
  cases strict with
  | true =>
    refine JobStack.leaves_of_value hlevel fun w => .inl ?_
    cases source <;> rfl
  | false =>
    refine leaves_join hlevel { path := .nothing, cut := true } fun jobs built => ?_
    rw [work_ofSource]
    rfl

/-- What is left of the budget and the number of enclosing subtrees add up to the bound. -/
theorem leaves_within (hgen : ∀ g w, ∃ u w', gen g w = .ok u w' ∧ u.Every E Tree.Decides False)
    (hlevel : level + budget = n) {t : Tree P G} (ht : t.Every E Tree.Decides False) :
    (stack gen strict).Leaves n (Refuses strict E) [.visit t budget] level [] := by
  -- On the budget before the tree: what a node gives is no part of the tree that holds the node.
  induction budget generalizing level t with
  | zero => exact leaves_visit (by omega) (fun source k _ => leaves_cut (by omega) source k) ht
  | succ budget ih =>
    refine leaves_visit (by omega) (fun source k hs => ?_) ht
    refine JobStack.leaves_of_forced (by omega) (by cases source <;> rfl) fun w => ?_
    obtain ⟨u, w', hu, hevery⟩ := Source.exists_expand_every hgen hs w
    refine ⟨[.visit u budget], w', fun jobs built => ?_, ih (by omega) hevery⟩
    simp only [stack, work_ofSource, visitDeferral, Action.bind_apply, hu]
    rfl

/-- Within any bound, a survey comes to an end. -/
theorem concludes (hgen : ∀ g w, ∃ u w', gen g w = .ok u w' ∧ u.Every E Tree.Decides False) (n : Nat)
    {t : Tree P G} (ht : t.Every E Tree.Decides False) (w : σ) :
    (stack gen strict).Concludes n (Refuses strict E) (exhaust gen strict) (.visit t n) w :=
  (leaves_within hgen (Nat.zero_add n) ht).concludes (exhausts gen strict) Refuses.raises w

end SelectiveEffects.Survey
