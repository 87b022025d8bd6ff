import SelectiveEffects.Proofs.Laws.Validations

/-! Validations that are combined without a choice report the errors of all leaves that failed, in
their order. -/

namespace SelectiveEffects

open Scenario

/-- An expression over validations in which nothing depends on a choice. -/
inductive Combination (P : Type) where
  | succeeded (v : Val P)
  | failed (errors : List (Val P))
  | unit (v : Val P)
  | map (f : Fun P) (x : Combination P)
  | ap (f x : Combination P)
  | liftA2 (fn : P) (x y : Combination P)

namespace Validation

variable {P : Type} [Primitives P]

@[simp] theorem ap_failure_failure (es fs : List (Val P)) :
    ap (.failure es) (.failure fs) = .ok (.failure (es ++ fs)) := rfl

@[simp] theorem ap_failure_success (es : List (Val P)) (v : Val P) :
    ap (.failure es) (.success v) = .ok (.failure es) := rfl

@[simp] theorem ap_success_failure (g : Val P) (fs : List (Val P)) :
    ap (.success g) (.failure fs) = .ok (.failure fs) := rfl

@[simp] theorem ap_success_success (g v : Val P) :
    ap (.success g) (.success v) = .success <$> g.call v := by
  cases h : g.call v <;> simp [ap, h, Except.map]

end Validation

namespace Combination

variable {P : Type}

/-- The errors of each leaf that failed, from left to right. -/
def failures : Combination P → List (List (Val P))
  | succeeded _ | unit _ => []
  | failed errors => [errors]
  | map _ x => x.failures
  | ap f x => f.failures ++ x.failures
  | liftA2 _ x y => x.failures ++ y.failures

variable [Primitives P]

/-- What the operations of the validation context make of the leaves. -/
def build : Combination P → Except Fault (Val P)
  | succeeded v => .ok (.success v)
  | failed errors => .ok (.failure errors)
  | unit v => (Context.validation (D := Empty)).unit v
  | map f x => do
    let x ← x.build
    (Context.validation (D := Empty)).map f x
  | ap f x => do
    let f ← f.build
    let x ← x.build
    (Context.validation (D := Empty)).ap f x
  | liftA2 fn x y => do
    let x ← x.build
    let y ← y.build
    (Context.validation (D := Empty)).liftA2 fn x y

/-- Plain application to the values of the leaves. There is none where a leaf failed. -/
def value? : Combination P → Option (Val P)
  | succeeded v | unit v => some v
  | failed _ => none
  | map f x => do
    let v ← x.value?
    (f v).toOption
  | ap f x => do
    let g ← f.value?
    let v ← x.value?
    (g.call v).toOption
  | liftA2 fn x y => do
    let a ← x.value?
    let b ← y.value?
    (Primitives.run fn [a] b).toOption

/-- Every function returns on the values that it is applied to. -/
def Total : Combination P → Prop
  | succeeded _ | failed _ | unit _ => True
  | map f x => x.Total ∧ ∀ v, x.value? = some v → ∃ u, f v = .ok u
  | ap f x => f.Total ∧ x.Total ∧
    ∀ g v, f.value? = some g → x.value? = some v → ∃ u, g.call v = .ok u
  | liftA2 fn x y => x.Total ∧ y.Total ∧
    ∀ a b, x.value? = some a → y.value? = some b → ∃ u, Primitives.run fn [a] b = .ok u

/-- A validation accounts for some leaves: with the errors of all that failed or, where none failed,
with what their values come to. -/
inductive Accounts : List (List (Val P)) → Option (Val P) → Except Fault (Val P) → Prop where
  | failure {fs : List (List (Val P))} : fs ≠ [] → Accounts fs none (.ok (.failure fs.flatten))
  | success (v : Val P) : Accounts [] (some v) (.ok (.success v))

variable {fs gs : List (List (Val P))} {value value' : Option (Val P)}
  {x y : Except Fault (Val P)}

omit [Primitives P] in
theorem Accounts.map {f : Fun P} (hx : Accounts fs value x)
    (hf : ∀ v, value = some v → ∃ u, f v = .ok u) :
    Accounts fs (value >>= fun v => (f v).toOption) (x >>= Validation.map f) := by
  cases hx with
  | failure hne => exact .failure hne
  | success v =>
    obtain ⟨u, hu⟩ := hf v rfl
    simp only [ok_bind, Validation.map_success, hu, Option.bind_eq_bind, Option.bind_some]
    exact .success u

/-- Only where both sides failed are there errors of both to report, those of the function first. -/
theorem Accounts.ap (hx : Accounts fs value x) (hy : Accounts gs value' y)
    (hcall : ∀ g v, value = some g → value' = some v → ∃ u, g.call v = .ok u) :
    Accounts (fs ++ gs) (do
      let g ← value
      let v ← value'
      (g.call v).toOption) (do
      let f ← x
      let v ← y
      Validation.ap f v) := by
  cases hx with
  | failure hfs =>
    cases hy with
    | failure hgs =>
      simp only [ok_bind, Validation.ap_failure_failure, ← List.flatten_append]
      exact .failure (List.append_ne_nil_of_left_ne_nil hfs gs)
    | success v =>
      rw [List.append_nil]
      exact .failure hfs
  | success g =>
    cases hy with
    | failure hgs => exact .failure hgs
    | success v =>
      obtain ⟨u, hu⟩ := hcall g v rfl rfl
      simp only [ok_bind, Validation.ap_success_success, hu, Option.bind_eq_bind, Option.bind_some]
      exact .success u

/-- A lifted function is mapped over the first operand, and what that gives is applied. -/
theorem Accounts.liftA2 {fn : P} (hx : Accounts fs value x) (hy : Accounts gs value' y)
    (hrun : ∀ a b, value = some a → value' = some b → ∃ u, Primitives.run fn [a] b = .ok u) :
    Accounts (fs ++ gs) (do
      let a ← value
      let b ← value'
      (Primitives.run fn [a] b).toOption) (do
      let x ← x
      let y ← y
      (Context.validation (D := Empty)).liftA2 fn x y) := by
  have hpartial := hx.map (f := fun a => .ok (.prim fn [a])) fun a _ => ⟨_, rfl⟩
  have hap := hpartial.ap hy fun g b hg hb => by
    obtain ⟨a, rfl, hcaptured⟩ := Option.bind_eq_some_iff.mp hg
    cases hcaptured
    rw [Val.call_prim]
    exact hrun a b rfl hb
  have hvalue : (do
      let g ← value >>= fun a => (Except.ok (.prim fn [a]) : Except Fault (Val P)).toOption
      let b ← value'
      (g.call b).toOption) = (do
      let a ← value
      let b ← value'
      (Primitives.run fn [a] b).toOption) := by
    cases value with
    | none => rfl
    | some a => simp only [Option.bind_eq_bind, Option.bind_some, Except.toOption, Val.call_prim]
  rw [hvalue] at hap
  cases hx <;> cases hy <;> exact hap

theorem accounts_build {e : Combination P} (he : e.Total) :
    Accounts e.failures e.value? e.build := by
  induction e with
  | succeeded v => exact .success v
  | unit v => exact .success v
  | failed errors =>
    have h : Accounts [errors] none (.ok (.failure [errors].flatten)) :=
      .failure (List.cons_ne_nil errors [])
    rwa [List.flatten_singleton] at h
  | map f x ih => exact (ih he.1).map he.2
  | ap f x ihf ihx => exact (ihf he.1).ap (ihx he.2.1) he.2.2
  | liftA2 fn x y ihx ihy => exact (ihx he.1).liftA2 (ihy he.2.1) he.2.2

/-- However an expression is bracketed, it reports the errors of all leaves that failed, from left
to right and none twice; where no leaf failed, it succeeds with what plain application gives. -/
theorem build_accumulates (e : Combination P) (he : e.Total) :
    (e.failures ≠ [] → e.build = .ok (.failure e.failures.flatten)) ∧
      (e.failures = [] → ∃ v, e.value? = some v ∧ e.build = .ok (.success v)) := by
  have haccounts := accounts_build he
  generalize e.failures = fs, e.value? = value, e.build = x at haccounts
  cases haccounts with
  | failure hne => exact ⟨fun _ => rfl, fun hnil => absurd hnil hne⟩
  | success v => exact ⟨fun hne => absurd rfl hne, fun _ => ⟨v, rfl, rfl⟩⟩

/-- Where the function failed, the errors of the second leaf of the argument come after its own. -/
theorem build_accumulates_nested :
    let e : Combination Builtin :=
      .ap (.map Val.toLeft.call (.failed [.text "a", .text "b"]))
        (.liftA2 (.binary .pair) (.map Val.toRight.call (.succeeded .null)) (.failed [.text "c"]))
    e.Total ∧ e.build = .ok (.failure [.text "a", .text "b", .text "c"]) := by
  intro e
  have he : e.Total :=
    ⟨⟨trivial, nofun⟩, ⟨⟨trivial, fun v _ => ⟨_, Val.call_toRight v⟩⟩, trivial, nofun⟩, nofun⟩
  exact ⟨he, (build_accumulates e he).1 (List.cons_ne_nil _ _)⟩

end Combination

end SelectiveEffects
