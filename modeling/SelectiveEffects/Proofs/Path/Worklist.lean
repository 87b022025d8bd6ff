import SelectiveEffects.Path.Worklist
import SelectiveEffects.Proofs.Path.OfTree

/-! The survey on stacks of jobs and paths comes to what the recursive survey comes to. -/

namespace SelectiveEffects.Survey

variable {P G σ α : Type} [Primitives P]

section Jobs

variable (gen : G → Action σ (Tree P G)) (strict : Bool) (fuel : Nat) (jobs : List (Job P G))
  (built : List Survey)

theorem exhaust_nil : exhaust gen strict (fuel + 1) ⟨[], built⟩ = pure (some built) := rfl

theorem exhaust_visit (t : Tree P G) (budget : Nat) :
    exhaust gen strict (fuel + 1) ⟨.visit t budget :: jobs, built⟩ =
      visit gen strict budget ⟨jobs, built⟩ t >>= exhaust gen strict fuel := by
  simp only [exhaust, work, map_eq_pure_bind, bind_assoc, pure_bind]

theorem exhaust_inOrder (x y : Survey) :
    exhaust gen strict (fuel + 1) ⟨.inOrder :: jobs, y :: x :: built⟩ =
      exhaust gen strict fuel ⟨jobs, x.inOrder y :: built⟩ := by
  simp only [exhaust, work, pure_bind]

theorem exhaust_maybe (x y : Survey) :
    exhaust gen strict (fuel + 1) ⟨.maybe :: jobs, y :: x :: built⟩ =
      exhaust gen strict fuel ⟨jobs, x.maybe y :: built⟩ := by
  simp only [exhaust, work, pure_bind]

theorem exhaust_oneOf (x left right : Survey) :
    exhaust gen strict (fuel + 1) ⟨.oneOf :: jobs, right :: left :: x :: built⟩ =
      exhaust gen strict fuel ⟨jobs, x.oneOf left right :: built⟩ := by
  simp only [exhaust, work, pure_bind]

/-- Only the exclusive route looks into the disjunction. -/
theorem visit_always (budget : Nat) (d h : Tree P G) (k : Post P) :
    visit gen strict budget ⟨jobs, built⟩ (.selection d h k .always) =
      pure ⟨.visit d budget :: .visit h budget :: .inOrder :: jobs, built⟩ := by
  cases d <;> rfl

variable {jobs built} in
/-- Without a selection below it, an exclusive node is no more than an optional one. -/
theorem visit_maybe {budget : Nat} {d h : Tree P G} {k : Post P} {route : Route}
    (hexclusive : ∀ t l k' route', d = .selection t l k' route' → route = .exclusive → False)
    (halways : route ≠ .always) :
    visit gen strict budget ⟨jobs, built⟩ (.selection d h k route) =
      pure ⟨.visit d budget :: .visit h budget :: .maybe :: jobs, built⟩ := by
  rw [visit]
  · exact hexclusive
  · exact halways

end Jobs

/-- In each world there is fuel with which these jobs, on top of these paths, leave the path of an
action in the place of the paths, and the rest of the fuel for the other jobs. -/
def Works (gen : G → Action σ (Tree P G)) (strict : Bool) (js : List (Job P G)) (bs : List Survey)
    (a : Action σ Survey) : Prop :=
  ∀ w, ∃ k, ∀ fuel jobs built,
    exhaust gen strict (k + fuel) ⟨js ++ jobs, bs ++ built⟩ w =
      (a >>= fun x => exhaust gen strict fuel ⟨jobs, x :: built⟩) w

variable {gen : G → Action σ (Tree P G)} {strict : Bool} {budget : Nat} {t : Tree P G}
variable {job : Job P G} {js : List (Job P G)} {bs : List Survey} {x : Survey}
variable {a : Action σ Survey} {f : Survey → Action σ Survey}

theorem works_built (x : Survey) : Works gen strict [] [x] (pure x) :=
  fun _ => ⟨0, fun fuel _ _ => by rw [Nat.zero_add, pure_bind]; rfl⟩

/-- A job that joins the topmost paths takes one unit of fuel. -/
theorem works_join (h : ∀ fuel jobs built,
    exhaust gen strict (fuel + 1) ⟨job :: jobs, bs ++ built⟩ =
      exhaust gen strict fuel ⟨jobs, x :: built⟩) : Works gen strict [job] bs (pure x) := by
  intro w
  refine ⟨1, fun fuel jobs built => ?_⟩
  rw [Nat.add_comm 1 fuel, pure_bind]
  exact congrFun (h fuel jobs built) w

/-- What a visit puts on the two stacks is worked off after it. -/
theorem works_visit {b : Action σ α} {f : α → Action σ Survey} (js : α → List (Job P G))
    (bs : α → List Survey)
    (hvisit : ∀ jobs built, visit gen strict budget ⟨jobs, built⟩ t =
      b >>= fun i => pure ⟨js i ++ jobs, bs i ++ built⟩)
    (h : ∀ i, Works gen strict (js i) (bs i) (f i)) :
    Works gen strict [.visit t budget] [] (b >>= f) := by
  intro w
  cases hb : b w with
  | error e w₁ =>
    refine ⟨1, fun fuel jobs built => ?_⟩
    rw [Nat.add_comm 1 fuel, List.singleton_append, List.nil_append, exhaust_visit, hvisit,
      bind_assoc, bind_assoc, Action.bind_apply, Action.bind_apply, hb]
  | ok i w₁ =>
    obtain ⟨k, hk⟩ := h i w₁
    refine ⟨k + 1, fun fuel jobs built => ?_⟩
    rw [Nat.add_right_comm, List.singleton_append, List.nil_append, exhaust_visit, hvisit,
      bind_assoc, bind_assoc, Action.bind_apply, Action.bind_apply, hb]
    simp only [pure_bind, hk]

/-- The first tree is surveyed before the other jobs are taken. -/
theorem Works.cons (hfirst : Works gen strict [.visit t budget] [] a)
    (hrest : ∀ x, Works gen strict js (x :: bs) (f x)) :
    Works gen strict (.visit t budget :: js) bs (a >>= f) := by
  intro w
  obtain ⟨k, hk⟩ := hfirst w
  cases ha : a w with
  | error e w₁ =>
    refine ⟨k, fun fuel jobs built => ?_⟩
    have hvisited := hk fuel (js ++ jobs) (bs ++ built)
    rw [Action.bind_apply, ha] at hvisited
    rw [bind_assoc, Action.bind_apply, ha]
    exact hvisited
  | ok x w₁ =>
    obtain ⟨k', hk'⟩ := hrest x w₁
    refine ⟨k + k', fun fuel jobs built => ?_⟩
    have hvisited := hk (k' + fuel) (js ++ jobs) (bs ++ built)
    rw [Action.bind_apply, ha, ← Nat.add_assoc] at hvisited
    rw [bind_assoc, Action.bind_apply, ha]
    exact hvisited.trans (hk' fuel jobs built)

/-- A visit that only leaves other jobs. -/
theorem works_jobs (js : List (Job P G))
    (hvisit : ∀ jobs built, visit gen strict budget ⟨jobs, built⟩ t = pure ⟨js ++ jobs, built⟩)
    (h : Works gen strict js [] a) : Works gen strict [.visit t budget] [] a := by
  rw [← pure_bind () fun _ => a]
  refine works_visit (fun _ => js) (fun _ => []) (fun jobs built => ?_) fun _ => h
  rw [hvisit, pure_bind]
  rfl

/-- A visit that needs no other jobs. -/
theorem works_leaf (hvisit : ∀ jobs built, visit gen strict budget ⟨jobs, built⟩ t =
      a >>= fun x => pure ⟨jobs, x :: built⟩) : Works gen strict [.visit t budget] [] a := by
  have hwork := works_visit (fun _ => []) (fun x => [x]) hvisit works_built
  rwa [bind_pure] at hwork

/-- Visiting a tree surveys it when visiting deferred nodes surveys them. -/
theorem works_ofTreeWith {deferral : Source P G → Action σ Survey}
    (hhost : ∀ g k, Works gen strict [.visit (.deferred g k) budget] [] (deferral (.host g)))
    (hloop : ∀ action k,
      Works gen strict [.visit (.loop action k) budget] [] (deferral (.loop action)))
    (t : Tree P G) : Works gen strict [.visit t budget] [] (ofTreeWith deferral t) := by
  induction t using ofTreeWith.induct with
  | case1 v => exact works_leaf fun _ _ => (pure_bind _ _).symm
  | case2 e k =>
    exact works_leaf fun _ _ => by simp only [visit, ofTreeWith, bind_assoc, pure_bind]
  | case3 t l k route r k' iht ihl ihr =>
    refine works_jobs [.visit t budget, .visit l budget, .visit r budget, .oneOf]
      (fun _ _ => rfl) ?_
    exact iht.cons fun x => ihl.cons fun left => ihr.cons fun right =>
      works_join fun fuel jobs built => exhaust_oneOf gen strict fuel jobs built x left right
  | case4 d h k ihd ihh =>
    rw [ofTreeWith_always]
    refine works_jobs [.visit d budget, .visit h budget, .inOrder]
      (fun jobs built => visit_always gen strict jobs built budget d h k) ?_
    exact ihd.cons fun x => ihh.cons fun y =>
      works_join fun fuel jobs built => exhaust_inOrder gen strict fuel jobs built x y
  | case5 d h k route hexclusive halways ihd ihh =>
    rw [ofTreeWith_maybe hexclusive halways]
    refine works_jobs [.visit d budget, .visit h budget, .maybe]
      (fun jobs built => visit_maybe gen strict hexclusive halways) ?_
    exact ihd.cons fun x => ihh.cons fun y =>
      works_join fun fuel jobs built => exhaust_maybe gen strict fuel jobs built x y
  | case6 g k => exact hhost g k
  | case7 action k => exact hloop action k
  | case8 typeName => exact works_leaf fun _ _ => rfl
  | case9 typeName => exact works_leaf fun _ _ => rfl

variable (gen strict) in
theorem works_ofTree (n : Nat) (t : Tree P G) :
    Works gen strict [.visit t n] [] (ofTree gen strict n t) := by
  induction n generalizing t with
  | zero =>
    exact works_ofTreeWith (fun _ _ => works_leaf fun _ _ => rfl)
      (fun _ _ => works_leaf fun _ _ => rfl) t
  | succ n ih =>
    exact works_ofTreeWith
      (fun _ _ => works_visit (fun inner => [.visit inner n]) (fun _ => [])
        (fun _ _ => rfl) ih)
      (fun _ _ => works_visit (fun inner => [.visit inner n]) (fun _ => [])
        (fun _ _ => rfl) ih) t

/-- With enough fuel the worklist does what the recursive survey does, and leaves its path alone on
the stack. -/
theorem exists_ofTreeByWork (gen : G → Action σ (Tree P G)) (strict : Bool) (n : Nat) (t : Tree P G)
    (w : σ) : ∃ k, ∀ fuel, k ≤ fuel →
      ofTreeByWork gen strict fuel n t w = (some <$> ofTree gen strict n t) w := by
  obtain ⟨k, hk⟩ := works_ofTree gen strict n t w
  refine ⟨k + 1, fun fuel hfuel => ?_⟩
  obtain ⟨rest, rfl⟩ : ∃ rest, fuel = k + (rest + 1) := ⟨fuel - (k + 1), by omega⟩
  have hexhaust := hk (rest + 1) [] []
  simp only [List.append_nil, exhaust_nil] at hexhaust
  rw [ofTreeByWork, Action.bind_apply, hexhaust]
  simp only [map_eq_pure_bind, Action.bind_apply]
  cases ofTree gen strict n t w <;> rfl

/-- With enough fuel, the survey of a tree gives this path and leaves the world. -/
def Yields (gen : G → Action σ (Tree P G)) (strict : Bool) (n : Nat) (t : Tree P G) (w : σ)
    (S : Survey) (w' : σ) : Prop :=
  ∃ k, ∀ fuel, k ≤ fuel → ofTreeByWork gen strict fuel n t w = .ok (some S) w'

theorem yields_of_ofTree {n : Nat} {w w' : σ} {S : Survey}
    (h : ofTree gen strict n t w = .ok S w') : Yields gen strict n t w S w' := by
  obtain ⟨k, hk⟩ := exists_ofTreeByWork gen strict n t w
  refine ⟨k, fun fuel hfuel => ?_⟩
  rw [hk fuel hfuel, map_eq_pure_bind, Action.bind_apply, h]
  rfl

end SelectiveEffects.Survey
