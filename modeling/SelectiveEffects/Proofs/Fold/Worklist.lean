import SelectiveEffects.Fold.Worklist

/-! The fold on stacks of jobs and values comes to what the recursive fold comes to. -/

namespace SelectiveEffects.Folding

variable {σ P G D F : Type} [Primitives P]

section Jobs

variable (I : Folding σ P G D F) (fuel : Nat) (jobs : List (Job P G)) (values : List F)

theorem exhaust_nil : I.exhaust (fuel + 1) ⟨[], values⟩ = pure (some values) := rfl

theorem exhaust_visit (t : Tree P G) (budget : Option Nat) :
    I.exhaust (fuel + 1) ⟨.visit t budget :: jobs, values⟩ =
      I.visit budget ⟨jobs, values⟩ t >>= I.exhaust fuel := by
  simp only [exhaust, work, map_eq_pure_bind, bind_assoc, pure_bind]

theorem exhaust_handle (k : Post P) (x y : F) :
    I.exhaust (fuel + 1) ⟨.handle k :: jobs, y :: x :: values⟩ = (do
      let z ← I.context.handle x y
      let mapped ← I.context.map k.apply z
      I.exhaust fuel ⟨jobs, mapped :: values⟩) := by
  simp only [exhaust, work, bind_assoc, pure_bind]

theorem exhaust_map (k : Post P) (x : F) :
    I.exhaust (fuel + 1) ⟨.map k :: jobs, x :: values⟩ = (do
      let y ← I.context.map k.apply x
      I.exhaust fuel ⟨jobs, y :: values⟩) := by
  simp only [exhaust, work, bind_assoc, pure_bind]

end Jobs

/-- In each world there is fuel with which a visit puts the value of an action on the stack and the
rest of the fuel is left for the other jobs. -/
def Visits (I : Folding σ P G D F) (budget : Option Nat) (t : Tree P G) (a : Action σ F) : Prop :=
  ∀ w, ∃ k, ∀ fuel jobs values,
    I.exhaust (k + fuel) ⟨.visit t budget :: jobs, values⟩ w =
      (a >>= fun x => I.exhaust fuel ⟨jobs, x :: values⟩) w

variable {I : Folding σ P G D F} {budget : Option Nat}

/-- A visit that needs no further jobs takes one unit of fuel. -/
theorem visits_of_visit {t : Tree P G} {a : Action σ F}
    (h : ∀ jobs values, I.visit budget ⟨jobs, values⟩ t =
      a >>= fun x => pure ⟨jobs, x :: values⟩) : I.Visits budget t a := by
  intro w
  refine ⟨1, fun fuel jobs values => ?_⟩
  rw [Nat.add_comm 1 fuel, exhaust_visit, h, bind_assoc]
  simp only [pure_bind]

theorem Visits.selection {d h : Tree P G} {a b : Action σ F} (hd : I.Visits budget d a)
    (hh : I.Visits budget h b) (k : Post P) (route : Route) :
    I.Visits budget (.selection d h k route) (do
      let x ← a
      let y ← b
      let z ← I.context.handle x y
      I.context.map k.apply z) := by
  intro w
  obtain ⟨kd, hkd⟩ := hd w
  have hvisit (jobs : List (Job P G)) (values : List F) :
      I.visit budget ⟨jobs, values⟩ (.selection d h k route) =
        pure ⟨.visit d budget :: .visit h budget :: .handle k :: jobs, values⟩ := rfl
  cases ha : a w with
  | error e w₁ =>
    refine ⟨kd + 1, fun fuel jobs values => ?_⟩
    rw [Nat.add_right_comm, exhaust_visit, hvisit, pure_bind, hkd, bind_assoc,
      Action.bind_apply, Action.bind_apply, ha]
  | ok x w₁ =>
    obtain ⟨kh, hkh⟩ := hh w₁
    refine ⟨kd + kh + 2, fun fuel jobs values => ?_⟩
    have hfuel : kd + kh + 2 + fuel = kd + (kh + (fuel + 1)) + 1 := by omega
    rw [hfuel, exhaust_visit, hvisit, pure_bind, hkd, bind_assoc, Action.bind_apply,
      Action.bind_apply, ha]
    simp only [hkh, exhaust_handle, bind_assoc]

/-- Visiting a tree folds it when visiting deferred nodes folds them. -/
theorem visits_foldWith {deferral : Deferral P G → Action σ F}
    (hhost : ∀ g k, I.Visits budget (.deferred g k) (deferral ⟨.host g, k⟩))
    (hloop : ∀ action k, I.Visits budget (.loop action k) (deferral ⟨.loop action, k⟩))
    (t : Tree P G) : I.Visits budget t (I.foldWith deferral t) := by
  induction t with
  | pure v => exact visits_of_visit fun _ _ => rfl
  | lifted e k => exact visits_of_visit fun _ _ => by simp only [visit, foldWith, bind_assoc]
  | selection d h k route ihd ihh => exact ihd.selection ihh k route
  | deferred g k => exact hhost g k
  | loop action k => exact hloop action k
  | foreign typeName => exact visits_of_visit fun _ _ => rfl
  | unknown typeName => exact visits_of_visit fun _ _ => rfl

/-- Expanding a deferred node leaves its subtree to visit and its own function to map. -/
theorem visits_expansion {t : Tree P G} {d : Deferral P G} {n : Nat}
    (hvisit : ∀ jobs values, I.visit (some (n + 1)) ⟨jobs, values⟩ t =
      d.source.expand I.gen >>= fun inner =>
        pure ⟨.visit inner (some n) :: .map d.k :: jobs, values⟩)
    (h : ∀ inner, I.Visits (some n) inner (I.foldUpTo n inner)) :
    I.Visits (some (n + 1)) t (do
      let inner ← d.source.expand I.gen
      let x ← I.foldUpTo n inner
      I.context.map d.k.apply x) := by
  intro w
  cases hx : d.source.expand I.gen w with
  | error e w₁ =>
    refine ⟨1, fun fuel jobs values => ?_⟩
    rw [Nat.add_comm 1 fuel, exhaust_visit, hvisit, bind_assoc, bind_assoc, Action.bind_apply,
      Action.bind_apply, hx]
  | ok inner w₁ =>
    obtain ⟨k, hk⟩ := h inner w₁
    refine ⟨k + 2, fun fuel jobs values => ?_⟩
    have hfuel : k + 2 + fuel = k + (fuel + 1) + 1 := by omega
    rw [hfuel, exhaust_visit, hvisit, bind_assoc, bind_assoc, Action.bind_apply,
      Action.bind_apply, hx]
    simp only [pure_bind, hk, exhaust_map, bind_assoc]

theorem visits_fold (budget : Option Nat) (t : Tree P G) :
    I.Visits budget t (I.fold budget t) := by
  cases budget with
  | none =>
    exact visits_foldWith (fun _ _ => visits_of_visit fun _ _ => rfl)
      (fun _ _ => visits_of_visit fun _ _ => rfl) t
  | some n =>
    induction n generalizing t with
    | zero =>
      exact visits_foldWith (fun _ _ => visits_of_visit fun _ _ => rfl)
        (fun _ _ => visits_of_visit fun _ _ => rfl) t
    | succ n ih =>
      exact visits_foldWith (fun _ _ => visits_expansion (fun _ _ => rfl) ih)
        (fun _ _ => visits_expansion (fun _ _ => rfl) ih) t

/-- With enough fuel the worklist does what the recursive fold does, and comes to its value. -/
theorem exists_foldByWork (I : Folding σ P G D F) (unroll : Option Nat) (t : Tree P G) (w : σ) :
    ∃ k, ∀ fuel, k ≤ fuel → I.foldByWork fuel unroll t w = (some <$> I.fold unroll t) w := by
  obtain ⟨k, hk⟩ := visits_fold (I := I) unroll t w
  refine ⟨k + 1, fun fuel hfuel => ?_⟩
  obtain ⟨rest, rfl⟩ : ∃ rest, fuel = k + (rest + 1) := ⟨fuel - (k + 1), by omega⟩
  rw [foldByWork, Action.bind_apply, hk]
  simp only [exhaust_nil, map_eq_pure_bind, Action.bind_apply]
  cases I.fold unroll t w <;> rfl

/-- With enough fuel, the fold of a tree does what an action does, whether that fails or not. -/
def FoldsAs (I : Folding σ P G D F) (unroll : Option Nat) (t : Tree P G) (a : Action σ F) : Prop :=
  ∀ w, ∃ k, ∀ fuel, k ≤ fuel → I.foldByWork fuel unroll t w = (some <$> a) w

theorem foldsAs_iff {unroll : Option Nat} {t : Tree P G} {a : Action σ F} :
    I.FoldsAs unroll t a ↔ a = I.fold unroll t := by
  constructor
  · intro h
    funext w
    obtain ⟨k, hk⟩ := h w
    obtain ⟨k', hk'⟩ := I.exists_foldByWork unroll t w
    have hsome := (hk _ (Nat.le_max_left k k')).symm.trans (hk' _ (Nat.le_max_right k k'))
    simp only [map_eq_pure_bind, Action.bind_apply] at hsome
    cases ha : a w <;> cases hf : I.fold unroll t w <;> simp_all [Action.pure_apply]
  · rintro rfl
    exact I.exists_foldByWork unroll t

/-- With enough fuel, the fold of a tree gives the value and leaves the world. -/
def Yields (I : Folding σ P G D F) (unroll : Option Nat) (t : Tree P G) (w : σ) (x : F) (w' : σ) :
    Prop :=
  ∃ k, ∀ fuel, k ≤ fuel → I.foldByWork fuel unroll t w = .ok (some x) w'

theorem yields_iff {unroll : Option Nat} {t : Tree P G} {w w' : σ} {x : F} :
    I.Yields unroll t w x w' ↔ I.fold unroll t w = .ok x w' := by
  obtain ⟨k, hk⟩ := I.exists_foldByWork unroll t w
  have hmap : (some <$> I.fold unroll t) w = .ok (some x) w' ↔ I.fold unroll t w = .ok x w' := by
    rw [map_eq_pure_bind, Action.bind_apply]
    cases I.fold unroll t w <;> simp [Action.pure_apply]
  rw [← hmap]
  constructor
  · rintro ⟨k', hk'⟩
    rw [← hk (max k k') (Nat.le_max_left k k')]
    exact hk' _ (Nat.le_max_right k k')
  · intro h
    exact ⟨k, fun fuel hfuel => (hk fuel hfuel).trans h⟩

end SelectiveEffects.Folding
