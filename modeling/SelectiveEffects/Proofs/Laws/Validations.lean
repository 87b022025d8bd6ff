import Mathlib.Control.Monad.Basic
import SelectiveEffects.Context.Validation
import SelectiveEffects.Proofs.Laws.Evaluation
import SelectiveEffects.Scenario.Builtin

/-! The selective laws hold of validations, errors included: the two sides of a law report the errors
of the same operands and leave out those of the same others. -/

namespace SelectiveEffects

open Scenario

namespace Val

variable {P : Type} [Primitives P]

/-- A function of two arguments, taken one after the other, that never fails. -/
def CurriedTotal (f : Val P) : Prop :=
  ∀ a, ∃ g, f.call a = .ok g ∧ Fun.Total g.call

/-- An element, or a function that never fails. -/
def IsChoice (t : Val P) : Prop :=
  (∃ c, t = .left c) ∨ ∃ f, t = .right f ∧ Fun.Total f.call

end Val

namespace Validation

variable {P D σ O : Type}

/-- A failure with any errors, or a success with a value that has the property. -/
inductive Holds (p : Val P → Prop) : Val P → Prop where
  | failure (errors : List (Val P)) : Holds p (.failure errors)
  | success (v : Val P) : p v → Holds p (.success v)

@[simp] theorem map_failure (f : Fun P) (errors : List (Val P)) :
    map f (.failure errors) = .ok (.failure errors) := rfl

@[simp] theorem map_success (f : Fun P) (v : Val P) :
    map f (.success v) = .success <$> f v := by
  cases h : f v <;> simp [map, h, Except.map]

/-- Mapping a function that never fails succeeds, whatever it is mapped over. -/
theorem exists_map {f : Fun P} (hf : f.Total) (x : Val P) : ∃ y, map f x = .ok y := by
  cases x with
  | success v =>
    obtain ⟨w, hw⟩ := hf v
    exact ⟨.success w, by simp [hw]⟩
  | _ => exact ⟨_, rfl⟩

variable [Primitives P]

@[simp] theorem handle_failure (errors : List (Val P)) (y : Val P) :
    handle (.failure errors) y = .ok (.failure errors) := rfl

@[simp] theorem handle_left (a y : Val P) :
    handle (.success (.left a)) y = map (Val.applyTo a).call y := rfl

@[simp] theorem handle_right (b y : Val P) :
    handle (.success (.right b)) y = .ok (.success b) := rfl

section Operations

variable (f : Fun P) (x y v : Val P)

@[simp] theorem validation_unit : (Context.validation (D := D)).unit v = .ok (.success v) := rfl

@[simp] theorem validation_map : (Context.validation (D := D)).map f x = map f x := rfl

@[simp] theorem validation_handle : (Context.validation (D := D)).handle x y = handle x y := rfl

end Operations

variable {x y c choice z g curried a : Val P}

theorem exists_f1 (hx : Holds Val.IsTagged x) (hy : Holds (fun f => Fun.Total f.call) y)
    (hg : Fun.Total g.call) : ∃ v, (Context.validation (D := D)).f1 x y g = .ok (v, v) := by
  simp only [Selective.f1, validation_map, validation_handle]
  obtain ⟨handler, hhandler⟩ := exists_map (f := fun f => .ok (.compose g f)) (fun _ => ⟨_, rfl⟩) y
  obtain es | ⟨_, ⟨a, rfl⟩ | ⟨b, rfl⟩⟩ := hx
  · exact ⟨.failure es, by simp [hhandler]⟩
  · obtain fs | ⟨f, hf⟩ := hy
    · exact ⟨.failure fs, by simp⟩
    · obtain ⟨u, hu⟩ := hf a
      obtain ⟨v, hv⟩ := hg u
      exact ⟨.success v, by simp [Val.call_compose, hu, hv]⟩
  · obtain ⟨v, hv⟩ := hg b
    exact ⟨.success v, by simp [Val.call_mapRight_right, hhandler, hv, Except.map]⟩

theorem exists_f2 (hx : Holds Val.IsTagged x) (hy : Holds (fun f => Fun.Total f.call) y)
    (hg : Fun.Total g.call) : ∃ v, (Context.validation (D := D)).f2 x y g = .ok (v, v) := by
  simp only [Selective.f2, validation_map, validation_handle]
  obtain ⟨handler, hhandler⟩ := exists_map (f := fun f => .ok (.compose f g)) (fun _ => ⟨_, rfl⟩) y
  obtain es | ⟨_, ⟨a, rfl⟩ | ⟨b, rfl⟩⟩ := hx
  · exact ⟨.failure es, by simp [hhandler]⟩
  · obtain ⟨u, hu⟩ := hg a
    obtain fs | ⟨f, hf⟩ := hy
    · exact ⟨.failure fs, by simp [Val.call_mapLeft_left, hu, Except.map]⟩
    · obtain ⟨v, hv⟩ := hf u
      exact ⟨.success v, by simp [Val.call_mapLeft_left, Val.call_compose, hu, hv, Except.map]⟩
  · exact ⟨.success b, by simp [hhandler]⟩

theorem exists_f3 (hx : Holds Val.IsTagged x) (hc : Holds (fun _ => True) c)
    (hcurried : curried.CurriedTotal) :
    ∃ v, (Context.validation (D := D)).f3 x c curried = .ok (v, v) := by
  simp only [Selective.f3, validation_map, validation_handle]
  obtain ⟨applied, happlied⟩ := exists_map (fun a => (hcurried a).imp fun _ => And.left) c
  obtain ⟨handler, hhandler⟩ := exists_map (f := Fun.applying) (fun _ => ⟨_, rfl⟩) c
  obtain es | ⟨_, ⟨a, rfl⟩ | ⟨b, rfl⟩⟩ := hx
  · exact ⟨.failure es, by simp [happlied, hhandler]⟩
  · obtain fs | ⟨v, -⟩ := hc
    · exact ⟨.failure fs, by simp [Val.call_mapLeft_left, Except.map]⟩
    · obtain ⟨f, hf, htotal⟩ := hcurried v
      obtain ⟨u, hu⟩ := htotal a
      exact ⟨.success u, by
        simp [Fun.applying, Val.call_mapLeft_left, Val.call_flipped, hf, hu, Except.map]⟩
  · exact ⟨.success b, by simp [happlied, hhandler]⟩

theorem exists_p1 (hx : Holds Val.IsTagged x) (hg : Fun.Total g.call) :
    ∃ v, (Context.validation (D := D)).p1 x g = .ok (v, v) := by
  simp only [Selective.p1, validation_unit, validation_map, validation_handle]
  obtain es | ⟨_, ⟨a, rfl⟩ | ⟨b, rfl⟩⟩ := hx
  · exact ⟨.failure es, by simp⟩
  · obtain ⟨v, hv⟩ := hg a
    exact ⟨.success v, by simp [hv]⟩
  · exact ⟨.success b, by simp⟩

theorem exists_p2 (a : Val P) (hy : Holds (fun f => Fun.Total f.call) y) :
    ∃ v, (Context.validation (D := D)).p2 a y = .ok (v, v) := by
  simp only [Selective.p2, validation_unit, validation_map, validation_handle]
  obtain fs | ⟨f, hf⟩ := hy
  · exact ⟨.failure fs, by simp⟩
  · obtain ⟨v, hv⟩ := hf a
    exact ⟨.success v, by simp [hv]⟩

theorem exists_a1 (hx : Holds Val.IsTagged x) (hchoice : Holds Val.IsChoice choice)
    (hz : Holds Val.CurriedTotal z) :
    ∃ v, (Context.validation (D := D)).a1 x choice z = .ok (v, v) := by
  simp only [Selective.a1, validation_map, validation_handle]
  obtain ⟨paired, hpaired⟩ := exists_map (f := Fun.pairOrApply) (fun _ => ⟨_, rfl⟩) choice
  obtain ⟨handler, hhandler⟩ := exists_map (f := Fun.uncurry) (fun _ => ⟨_, rfl⟩) z
  obtain ⟨handled, hhandled⟩ : ∃ handled, handle choice z = .ok handled := by
    obtain fs | ⟨_, ⟨c, rfl⟩ | ⟨f, rfl, -⟩⟩ := hchoice
    · exact ⟨.failure fs, rfl⟩
    · obtain es | ⟨f, hf⟩ := hz
      · exact ⟨.failure es, rfl⟩
      · obtain ⟨g, hg, -⟩ := hf c
        exact ⟨.success g, by simp [hg]⟩
    · exact ⟨.success f, rfl⟩
  obtain es | ⟨_, ⟨a, rfl⟩ | ⟨b, rfl⟩⟩ := hx
  · exact ⟨.failure es, by simp [Fun.nestRight, hhandled, hpaired, hhandler]⟩
  · -- Only here is there a choice to act on, so that its errors and those of the last operand count.
    obtain fs | ⟨_, ⟨c, rfl⟩ | ⟨f, rfl, hf⟩⟩ := hchoice
    · exact ⟨.failure fs, by simp [Fun.nestRight, hhandler]⟩
    · obtain es | ⟨f, hf⟩ := hz
      · exact ⟨.failure es, by simp [Fun.nestRight, Fun.pairOrApply]⟩
      · obtain ⟨g, hg, htotal⟩ := hf c
        obtain ⟨v, hv⟩ := htotal a
        exact ⟨.success v, by
          simp [Fun.nestRight, Fun.pairOrApply, Fun.uncurry, Val.call_uncurry_tuple, hg, hv]⟩
    · obtain ⟨v, hv⟩ := hf a
      exact ⟨.success v, by
        simp [Fun.nestRight, Fun.pairOrApply, Val.call_pairOrApply_right, hhandler, hv, Except.map]⟩
  · exact ⟨.success b, by
      simp [Fun.nestRight, Val.call_mapRight_right, hhandled, hpaired, hhandler, Except.map]⟩

/-- Both sides of every law are built, and they are one validation. They are equal as results of the
same calls: a function that each side makes for itself is the same when it has the same parts. -/
theorem sides_equal (suite : LawSuite σ P D (Val P) O) (hsuite : suite.context = Context.validation)
    (s : LawSamples P (Val P)) (hx : Holds Val.IsTagged s.x)
    (hy : Holds (fun f => Fun.Total f.call) s.y) (hc : Holds (fun _ => True) s.c)
    (hchoice : Holds Val.IsChoice s.choice) (hz : Holds Val.CurriedTotal s.z)
    (hg : Fun.Total s.g.call) (hcurried : s.curried.CurriedTotal) {law : Law}
    (hlaw : law ≠ .monadic) : ∃ v, suite.sides s law = .ok (v, v) := by
  cases law <;> simp only [LawSuite.sides, hsuite]
  case f1 => exact exists_f1 hx hy hg
  case f2 => exact exists_f2 hx hy hg
  case f3 => exact exists_f3 hx hc hcurried
  case p1 => exact exists_p1 hx hg
  case p2 => exact exists_p2 s.value hy
  case a1 => exact exists_a1 hx hchoice hz
  case monadic => exact absurd rfl hlaw

/-- A left choice of a left choice, for which the functions of the last operand are missing: both
sides have the errors of that one. -/
theorem sides_equal_failure :
    let suite : LawSuite Unit Builtin Empty (Val Builtin) Unit :=
      { context := Context.validation, observe := fun _ => return () }
    let s : LawSamples Builtin (Val Builtin) :=
      { x := .success (.left (.int 1))
        y := .failure [.text "no handler"]
        c := .success (.int 3)
        choice := .success (.left (.int 2))
        z := .failure [.text "late", .text "later"]
        g := .toRight
        curried := .constant .identity
        value := .null }
    Holds Val.IsTagged s.x ∧ Holds (fun f => Fun.Total f.call) s.y ∧ Holds (fun _ => True) s.c ∧
      Holds Val.IsChoice s.choice ∧ Holds Val.CurriedTotal s.z ∧ Fun.Total s.g.call ∧
      s.curried.CurriedTotal ∧ Law.a1 ≠ .monadic ∧
      suite.sides s .a1 = .ok (.failure [.text "late", .text "later"],
        .failure [.text "late", .text "later"]) := by
  intro suite s
  have hx : Holds Val.IsTagged s.x := .success _ (.inl ⟨_, rfl⟩)
  have hy : Holds (fun f => Fun.Total f.call) s.y := .failure _
  have hc : Holds (fun _ => True) s.c := .success _ trivial
  have hchoice : Holds Val.IsChoice s.choice := .success _ (.inl ⟨_, rfl⟩)
  have hz : Holds Val.CurriedTotal s.z := .failure _
  have hg : Fun.Total s.g.call := fun v => ⟨.right v, Val.call_toRight v⟩
  have hcurried : s.curried.CurriedTotal := fun a =>
    ⟨.identity, Val.call_constant .identity a, fun b => ⟨b, Val.call_identity b⟩⟩
  have hlaw : Law.a1 ≠ .monadic := nofun
  obtain ⟨v, hsides⟩ := sides_equal suite rfl s hx hy hc hchoice hz hg hcurried hlaw
  obtain ⟨_, _, _, _, _, hhandled, hlhs, -⟩ := Selective.a1_cases hsides
  cases hhandled
  cases hlhs
  exact ⟨hx, hy, hc, hchoice, hz, hg, hcurried, hlaw, hsides⟩

end Validation

end SelectiveEffects
