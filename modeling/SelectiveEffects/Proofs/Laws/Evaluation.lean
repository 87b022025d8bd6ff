import SelectiveEffects.Laws
import SelectiveEffects.Proofs.Tree.Equations

/-! The two sides of a law evaluate alike, in every context whose values stand for evaluations. -/

namespace SelectiveEffects

namespace Val

variable {P : Type} [Primitives P]

theorem isTagged_of_mapLeft {f v u : Val P} (hv : v.IsTagged)
    (h : (mapLeft f).call v = .ok u) : u.IsTagged := by
  obtain ⟨a, rfl⟩ | ⟨b, rfl⟩ := hv
  · rw [call_mapLeft_left] at h
    obtain ⟨c, -, rfl⟩ := exists_of_map_eq_ok h
    exact .inl ⟨c, rfl⟩
  · rw [call_mapLeft_right] at h
    cases h
    exact .inr ⟨b, rfl⟩

theorem isTagged_of_pairOrApply {t a u : Val P} (ht : t.IsTagged)
    (h : (pairOrApply t).call a = .ok u) : u.IsTagged := by
  obtain ⟨c, rfl⟩ | ⟨f, rfl⟩ := ht
  · rw [call_pairOrApply_left] at h
    cases h
    exact .inl ⟨_, rfl⟩
  · rw [call_pairOrApply_right] at h
    obtain ⟨c, -, rfl⟩ := exists_of_map_eq_ok h
    exact .inr ⟨c, rfl⟩

end Val

open Evaluation (ofExcept)
open SelectiveEffects.Tree (choose choose_none_left choose_none_right)

/-- Every value of the context stands for an evaluation. Mapping applies the function last, and
handling chooses by the tag, where there is one. -/
structure Selective.EvaluatesBy {P F σ : Type} [Primitives P] (S : Selective (Except Fault) P F)
    (mean : F → Evaluation σ (Val P)) : Prop where
  unit : ∀ {v u}, S.unit v = .ok u → mean u = pure v
  map : ∀ {f x y}, S.map f x = .ok y → mean y = mean x >>= fun v => ofExcept (f v)
  handle : ∀ {x y z}, S.handle x y = .ok z → (mean x).Tagged →
    mean z = mean x >>= choose (mean y) none

namespace Selective.EvaluatesBy

variable {P F σ : Type} [Primitives P] {S : Selective (Except Fault) P F}
variable {mean : F → Evaluation σ (Val P)} {x y choice z c lhs rhs : F}

theorem tagged_map (hS : S.EvaluatesBy mean) {f : Fun P} (h : S.map f x = .ok y)
    (hx : (mean x).Tagged) (hf : ∀ v u, v.IsTagged → f v = .ok u → u.IsTagged) :
    (mean y).Tagged := by
  rw [hS.map h]
  exact hx.map hf

theorem f1 (hS : S.EvaluatesBy mean) {g : Val P} (h : S.f1 x y g = .ok (lhs, rhs))
    (hx : (mean x).Tagged) : mean lhs = mean rhs := by
  obtain ⟨handled, tagged, handler, hhandled, hlhs, htagged, hhandler, hrhs⟩ := f1_cases h
  have htags := hS.tagged_map htagged hx fun v u hv => Val.isTagged_of_mapRight hv
  rw [hS.map hlhs, hS.handle hhandled hx, hS.handle hrhs htags, hS.map htagged, hS.map hhandler,
    bind_assoc, bind_assoc]
  refine Evaluation.bind_congr_of_ok fun s v s' hv => ?_
  obtain ⟨a, rfl⟩ | ⟨b, rfl⟩ := hx s v s' hv
  · simp [choose_none_left, Val.call_compose, Evaluation.ofExcept_bind]
  · rw [Val.call_mapRight_right, choose_none_right, pure_bind]
    cases g.call b <;> rfl

theorem f2 (hS : S.EvaluatesBy mean) {g : Val P} (h : S.f2 x y g = .ok (lhs, rhs))
    (hx : (mean x).Tagged) (hg : Fun.Total g.call) : mean lhs = mean rhs := by
  obtain ⟨tagged, handler, htagged, hlhs, hhandler, hrhs⟩ := f2_cases h
  have htags := hS.tagged_map htagged hx fun v u hv => Val.isTagged_of_mapLeft hv
  rw [hS.handle hlhs htags, hS.map htagged, hS.handle hrhs hx, hS.map hhandler, bind_assoc]
  refine Evaluation.bind_congr_of_ok fun s v s' hv => ?_
  obtain ⟨a, rfl⟩ | ⟨b, rfl⟩ := hx s v s' hv
  · obtain ⟨a', ha⟩ := hg a
    simp [choose_none_left, Val.call_compose, Val.call_mapLeft_left, ha, Except.map]
  · simp [choose_none_right]

theorem f3 (hS : S.EvaluatesBy mean) {curried : Val P} (h : S.f3 x c curried = .ok (lhs, rhs))
    (hx : (mean x).Tagged) : mean lhs = mean rhs := by
  obtain ⟨applied, tagged, handler, happlied, hlhs, htagged, hhandler, hrhs⟩ := f3_cases h
  have htags := hS.tagged_map htagged hx fun v u hv => Val.isTagged_of_mapLeft hv
  rw [hS.handle hlhs hx, hS.map happlied, hS.handle hrhs htags, hS.map htagged, hS.map hhandler,
    bind_assoc]
  refine Evaluation.bind_congr_of_ok fun s v s' hv => ?_
  obtain ⟨a, rfl⟩ | ⟨b, rfl⟩ := hx s v s' hv
  · simp [choose_none_left, Val.call_mapLeft_left, Val.call_flipped, Fun.applying, Except.map,
      Evaluation.ofExcept_bind]
  · simp [choose_none_right]

theorem p1 (hS : S.EvaluatesBy mean) {g : Val P} (h : S.p1 x g = .ok (lhs, rhs))
    (hx : (mean x).Tagged) : mean lhs = mean rhs := by
  obtain ⟨known, hknown, hlhs, hrhs⟩ := p1_cases h
  rw [hS.handle hlhs hx, hS.unit hknown, hS.map hrhs]
  refine Evaluation.bind_congr_of_ok fun s v s' hv => ?_
  obtain ⟨a, rfl⟩ | ⟨b, rfl⟩ := hx s v s' hv
  · rw [choose_none_left, pure_bind, Val.call_either_left]
  · rw [choose_none_right, Val.call_either_right, Val.call_identity, Evaluation.ofExcept_ok]

theorem p2 (hS : S.EvaluatesBy mean) {a : Val P} (h : S.p2 a y = .ok (lhs, rhs)) :
    mean lhs = mean rhs := by
  obtain ⟨known, hknown, hlhs, hrhs⟩ := p2_cases h
  have htags : (mean known).Tagged := by
    rw [hS.unit hknown]
    exact Evaluation.tagged_pure (.inl ⟨a, rfl⟩)
  rw [hS.handle hlhs htags, hS.unit hknown, pure_bind, choose_none_left, hS.map hrhs]
  simp only [Val.call_applyTo]

theorem a1 (hS : S.EvaluatesBy mean) (h : S.a1 x choice z = .ok (lhs, rhs))
    (hx : (mean x).Tagged) (hchoice : (mean choice).Tagged) : mean lhs = mean rhs := by
  obtain ⟨handled, nested, paired, inner, handler, hhandled, hlhs, hnested, hpaired, hinner,
    hhandler, hrhs⟩ := a1_cases h
  have hnestedTags := hS.tagged_map hnested hx fun v u hv => Val.isTagged_of_mapRight hv
  have hpairedTags (a : Val P) :
      (mean choice >>= fun t => ofExcept ((Val.pairOrApply t).call a)).Tagged :=
    hchoice.map fun t u ht => Val.isTagged_of_pairOrApply ht
  have hinnerEq : mean inner = mean x >>= fun v => ofExcept (Fun.nestRight v) >>=
      choose (mean choice >>= fun t => ofExcept (Fun.pairOrApply t)) none := by
    rw [hS.handle hinner hnestedTags, hS.map hnested, hS.map hpaired, bind_assoc]
  have hleft (a : Val P) : (ofExcept (Fun.nestRight (.left a)) >>=
      choose (mean choice >>= fun t => ofExcept (Fun.pairOrApply t)) none) =
      mean choice >>= fun t => ofExcept ((Val.pairOrApply t).call a) := by
    simp [Fun.nestRight, Fun.pairOrApply, choose_none_left]
  have hright (b : Val P) : (ofExcept (Fun.nestRight (.right b)) >>=
      choose (mean choice >>= fun t => ofExcept (Fun.pairOrApply t)) none) =
      pure (.right b) := by
    simp [Fun.nestRight, Val.call_mapRight_right, Except.map, choose_none_right]
  have hinnerTags : (mean inner).Tagged := by
    rw [hinnerEq]
    refine Evaluation.Tagged.bind fun s v s' hv => ?_
    obtain ⟨a, rfl⟩ | ⟨b, rfl⟩ := hx s v s' hv
    · rw [hleft]
      exact hpairedTags a
    · rw [hright]
      exact Evaluation.tagged_pure (.inr ⟨b, rfl⟩)
  rw [hS.handle hlhs hx, hS.handle hhandled hchoice, hS.handle hrhs hinnerTags, hinnerEq,
    hS.map hhandler, bind_assoc]
  refine Evaluation.bind_congr_of_ok fun s v s' hv => ?_
  obtain ⟨a, rfl⟩ | ⟨b, rfl⟩ := hx s v s' hv
  · rw [hleft, choose_none_left, bind_assoc, bind_assoc]
    refine Evaluation.bind_congr_of_ok fun s t s' ht => ?_
    obtain ⟨c, rfl⟩ | ⟨f, rfl⟩ := hchoice s t s' ht
    · simp [choose_none_left, Fun.uncurry, Val.call_uncurry_tuple, Evaluation.ofExcept_bind]
    · rw [Val.call_pairOrApply_right, choose_none_right, pure_bind]
      cases f.call a <;> rfl
  · rw [hright]
    rfl

end Selective.EvaluatesBy

/-- Of two sides of a law that were built, one stands for the same evaluation as the other. -/
theorem LawSuite.evaluate_alike {σ τ P D F O : Type} [Primitives P] (suite : LawSuite τ P D F O)
    {mean : F → Evaluation σ (Val P)} (hmean : suite.context.EvaluatesBy mean)
    {s : LawSamples P F} {law : Law} (hlaw : law ≠ .monadic) (hx : (mean s.x).Tagged)
    (hchoice : (mean s.choice).Tagged) (hg : Fun.Total s.g.call) {lhs rhs : F}
    (h : suite.sides s law = .ok (lhs, rhs)) : mean lhs = mean rhs := by
  cases law with
  | f1 => exact hmean.f1 h hx
  | f2 => exact hmean.f2 h hx hg
  | f3 => exact hmean.f3 h hx
  | p1 => exact hmean.p1 h hx
  | p2 => exact hmean.p2 h
  | a1 => exact hmean.a1 h hx hchoice
  | monadic => exact absurd rfl hlaw

namespace Tree

variable {P G σ : Type} [Primitives P]
variable {perform : Effect P → Action σ (Val P)} {deferral : Source P G → Evaluation σ (Val P)}
variable {x y choice z c lhs rhs : Tree P G}

variable (perform deferral) in
theorem evaluatesBy_free : (Context.free (P := P) (G := G)).EvaluatesBy
    (evaluateWith perform deferral) where
  unit h := by
    cases h
    rfl
  map h := evaluateWith_fmap h
  handle h hx := evaluateWith_handle h hx

theorem evaluateWith_f1 {g : Val P} (h : Context.free.f1 x y g = .ok (lhs, rhs))
    (hx : (evaluateWith perform deferral x).Tagged) :
    evaluateWith perform deferral lhs = evaluateWith perform deferral rhs :=
  (evaluatesBy_free perform deferral).f1 h hx

theorem evaluateWith_f2 {g : Val P} (h : Context.free.f2 x y g = .ok (lhs, rhs))
    (hx : (evaluateWith perform deferral x).Tagged) (hg : Fun.Total g.call) :
    evaluateWith perform deferral lhs = evaluateWith perform deferral rhs :=
  (evaluatesBy_free perform deferral).f2 h hx hg

theorem evaluateWith_f3 {curried : Val P} (h : Context.free.f3 x c curried = .ok (lhs, rhs))
    (hx : (evaluateWith perform deferral x).Tagged) :
    evaluateWith perform deferral lhs = evaluateWith perform deferral rhs :=
  (evaluatesBy_free perform deferral).f3 h hx

/-- A pure handler is mapped by construction. -/
theorem eq_of_p1 {g : Val P} (h : Context.free.p1 x g = .ok (lhs, rhs)) : lhs = rhs := by
  obtain ⟨unit, hunit, hlhs, hrhs⟩ := Selective.p1_cases h
  cases hunit
  have hhandle : x.handle (.pure g) = .ok lhs := hlhs
  unfold handle at hhandle
  split at hhandle
  · exact Except.ok.inj (hhandle.symm.trans hrhs)
  · cases hhandle

theorem eq_of_p2 {a : Val P} (h : Context.free.p2 a y = .ok (lhs, rhs)) : lhs = rhs := by
  obtain ⟨unit, hunit, hlhs, hrhs⟩ := Selective.p2_cases h
  cases hunit
  have hhandle : (pure (.left a)).handle y = .ok lhs := hlhs
  have hmap : y.fmap (Val.applyTo a).call = .ok rhs := hrhs
  unfold handle at hhandle
  split at hhandle
  · cases y with
    | pure g =>
      simp only [fmap, Val.call_either_left] at hhandle
      simp only [fmap, Val.call_applyTo] at hmap
      exact Except.ok.inj (hhandle.symm.trans hmap)
    | _ => exact Except.ok.inj (hhandle.symm.trans hmap)
  · cases hhandle

theorem evaluateWith_a1 (h : Context.free.a1 x choice z = .ok (lhs, rhs))
    (hx : (evaluateWith perform deferral x).Tagged)
    (hchoice : (evaluateWith perform deferral choice).Tagged) :
    evaluateWith perform deferral lhs = evaluateWith perform deferral rhs :=
  (evaluatesBy_free perform deferral).a1 h hx hchoice

end Tree

end SelectiveEffects
