import SelectiveEffects.Proofs.Context.Outcome
import SelectiveEffects.Proofs.Laws.Evaluation
import SelectiveEffects.Scenario.Builtin

/-! Tasks form a lawful selective context, and handling them is what binding makes of it. -/

namespace SelectiveEffects

open Scenario

/-- What both sides of a law come to, read off what its samples come to. Where a tag is tested the
samples have one. -/
def Law.outcome {P F σ : Type} [Primitives P] (comes : F → Outcomes P σ) (s : LawSamples P F) :
    Law → Outcomes P σ
  | .f1 => (comes s.x).andThen (Val.byTag
      (fun a => (comes s.y).andThen fun f => .ofExcept (f.call a >>= s.g.call))
      (fun b => .ofExcept (s.g.call b))
      fun _ _ _ _ => False)
  | .f2 => (comes s.x).andThen (Val.byTag
      (fun a => (comes s.y).andThen fun f => .ofExcept (s.g.call a >>= f.call))
      (fun b => .ofExcept (.ok b))
      fun _ _ _ _ => False)
  | .f3 => (comes s.x).andThen (Val.byTag
      (fun a => (comes s.c).andThen fun c => .ofExcept (s.curried.call c >>= (·.call a)))
      (fun b => .ofExcept (.ok b))
      fun _ _ _ _ => False)
  | .p1 => (comes s.x).andThen (Val.byTag
      (fun a => .ofExcept (s.g.call a))
      (fun b => .ofExcept (.ok b))
      fun _ _ _ _ => False)
  | .p2 => (comes s.y).andThen fun f => .ofExcept (f.call s.value)
  | .a1 => (comes s.x).andThen (Val.byTag
      (fun a => (comes s.choice).andThen (Val.byTag
        (fun c => (comes s.z).andThen fun h => .ofExcept (h.call c >>= (·.call a)))
        (fun f => .ofExcept (f.call a))
        fun _ _ _ _ => False))
      (fun b => .ofExcept (.ok b))
      fun _ _ _ _ => False)
  | .monadic => (comes s.x).andThen (Val.byTag
      (fun a => (comes s.y).andThen fun f => .ofExcept (f.call a))
      (fun b => .ofExcept (.ok b))
      fun _ _ _ _ => False)

namespace Task

variable {P σ D O : Type}

/-- Whenever a call returns, what it returns is tagged. -/
def ReturnsTags (gen : D → Action σ (Task P σ D)) (t : Task P σ D) : Prop :=
  ∀ n w v w', t.call gen n w = .ok (some v) w' → v.IsTagged

theorem ReturnsTags.tagged {gen : D → Action σ (Task P σ D)} {t : Task P σ D}
    (h : t.ReturnsTags gen) (n : Nat) : (t.evaluateWith (expansion gen n)).Tagged := by
  intro w v w' hv
  rw [← call_eq] at hv
  exact h n w v w' hv

variable [Primitives P] {force : D → Evaluation σ (Val P)}

theorem handled_eq_choose {v : Val P} (hv : v.IsTagged) (handler : Evaluation σ (Val P)) :
    handled handler v = Tree.choose handler none v := by
  obtain ⟨a, rfl⟩ | ⟨b, rfl⟩ := hv
  · rw [Tree.choose_none_left, handled]
  · rfl

variable (P σ force) in
/-- A task stands for its call. -/
theorem evaluatesBy_taskCore :
    (Context.taskCore : Selective (Except Fault) P (Task P σ D)).EvaluatesBy
      (evaluateWith force) where
  unit h := by
    cases h
    exact evaluateWith_done _
  map h := by
    cases h
    exact evaluateWith_map _ _
  handle h hx := by
    cases h
    rw [evaluateWith_handle]
    exact Evaluation.bind_congr_of_ok fun s v s' hv => handled_eq_choose (hx s v s' hv) _

/-- What is bound to a disjunction goes by its tag, as handling does. -/
theorem evaluateWith_handleM {again : Task P σ D → D} {x y t : Task P σ D}
    (h : (Context.task again).handleM x y = .ok t) (hx : (x.evaluateWith force).Tagged) :
    t.evaluateWith force = (x.handle y).evaluateWith force := by
  cases h
  rw [evaluateWith_bind, evaluateWith_handle]
  refine Evaluation.bind_congr_of_ok fun s v s' hv => ?_
  obtain ⟨a, rfl⟩ | ⟨b, rfl⟩ := hx s v s' hv
  · have hmap : (Context.task again).map (Val.applyTo a).call y = .ok (y.map (Val.applyTo a).call) :=
      rfl
    simp only [hmap, ofExcept, evaluateWith_map, Val.call_applyTo, handled]
  · exact evaluateWith_done _

section Sides

variable {gen : D → Action σ (Task P σ D)}

omit [Primitives P] in
theorem ReturnsTags.isTagged {t : Task P σ D} (h : t.ReturnsTags gen) {w w' : σ} {v : Val P}
    (hv : Comes gen t w (.ok v) w') : v.IsTagged := by
  obtain ⟨n, hn⟩ := comes_iff_call.mp hv
  exact h n w v w' hn

theorem comes_handle_of_tags {x : Task P σ D} (hx : x.ReturnsTags gen) (y : Task P σ D) :
    Comes gen (x.handle y) = (Comes gen x).andThen (Val.byTag
      (fun a => (Comes gen y).andThen fun f => .ofExcept (f.call a))
      (fun b => .ofExcept (.ok b))
      fun _ _ _ _ => False) := by
  rw [comes_handle]
  refine Outcomes.andThen_congr_of_ok fun w v w' hv => ?_
  obtain ⟨a, rfl⟩ | ⟨b, rfl⟩ := hx.isTagged hv <;> rfl

/-- The first side of a law comes to what the law says. -/
theorem comes_of_sides {suite : LawSuite σ P D (Task P σ D) O} {again : Task P σ D → D}
    (hsuite : suite.context = (Context.task again).toContext)
    (hbind : suite.handleM = some (Context.task again).handleM) {s : LawSamples P (Task P σ D)}
    (hx : s.x.ReturnsTags gen) (hchoice : s.choice.ReturnsTags gen) (hg : Fun.Total s.g.call)
    {law : Law} {lhs rhs : Task P σ D} (h : suite.sides s law = .ok (lhs, rhs)) :
    Comes gen lhs = law.outcome (Comes gen) s := by
  cases law with
  | f1 =>
    rw [LawSuite.sides, hsuite] at h
    cases h
    rw [comes_map, comes_handle_of_tags hx, Outcomes.andThen_assoc]
    refine Outcomes.andThen_congr_of_ok fun w v w' hv => ?_
    obtain ⟨a, rfl⟩ | ⟨b, rfl⟩ := hx.isTagged hv
    · simp only [Val.byTag, Outcomes.andThen_assoc, Outcomes.ofExcept_bind]
    · exact Outcomes.ofExcept_ok_andThen b
  | f2 =>
    rw [LawSuite.sides, hsuite] at h
    cases h
    rw [comes_handle, comes_map, Outcomes.andThen_assoc]
    refine Outcomes.andThen_congr_of_ok fun w v w' hv => ?_
    obtain ⟨a, rfl⟩ | ⟨b, rfl⟩ := hx.isTagged hv
    · obtain ⟨a', ha⟩ := hg a
      simp only [Val.call_mapLeft_left, Val.byTag, ha]
      exact Outcomes.ofExcept_ok_andThen (.left a')
    · rw [Val.call_mapLeft_right]
      exact Outcomes.ofExcept_ok_andThen (.right b)
  | f3 =>
    rw [LawSuite.sides, hsuite] at h
    cases h
    simp only [comes_handle_of_tags hx, comes_map, Outcomes.andThen_assoc, Law.outcome,
      Outcomes.ofExcept_bind]
  | p1 =>
    rw [LawSuite.sides, hsuite] at h
    cases h
    simp only [comes_handle_of_tags hx, comes_done, Outcomes.ofExcept_ok_andThen, Law.outcome]
  | p2 =>
    rw [LawSuite.sides, hsuite] at h
    cases h
    rw [comes_handle, comes_done, Outcomes.ofExcept_ok_andThen]
    rfl
  | a1 =>
    rw [LawSuite.sides, hsuite] at h
    cases h
    rw [comes_handle_of_tags hx, comes_handle_of_tags hchoice]
    refine Outcomes.andThen_congr_of_ok fun w v w' hv => ?_
    obtain ⟨a, rfl⟩ | ⟨b, rfl⟩ := hx.isTagged hv
    · refine Outcomes.andThen_assoc.trans (Outcomes.andThen_congr_of_ok fun w v w' hv => ?_)
      obtain ⟨c, rfl⟩ | ⟨f, rfl⟩ := hchoice.isTagged hv
      · simp only [Val.byTag, Outcomes.andThen_assoc, Outcomes.ofExcept_bind]
      · exact Outcomes.ofExcept_ok_andThen f
    · rfl
  | monadic =>
    simp only [LawSuite.sides, hbind, hsuite] at h
    obtain ⟨_, hlhs, h⟩ := exists_of_bind_eq_ok h
    obtain ⟨_, _, h⟩ := exists_of_bind_eq_ok h
    cases h
    cases hlhs
    exact comes_handle_of_tags hx s.y

end Sides

/-- For every law, calling the two tasks from any world comes to the value or fault that the law says
and leaves the same world: what was done before a fault is done on both sides. The law says it by what
calling the samples comes to, and neither task comes to anything else. Values are equal as results of
the same calls: a function that each side makes for itself is the same when it has the same parts. -/
theorem calls_alike (suite : LawSuite σ P D (Task P σ D) O) {again : Task P σ D → D}
    (hsuite : suite.context = (Context.task again).toContext)
    (hbind : suite.handleM = some (Context.task again).handleM) (gen : D → Action σ (Task P σ D))
    (s : LawSamples P (Task P σ D)) (hx : s.x.ReturnsTags gen) (hchoice : s.choice.ReturnsTags gen)
    (hg : Fun.Total s.g.call) (law : Law) :
    ∃ lhs rhs, suite.sides s law = .ok (lhs, rhs) ∧ (∀ n, lhs.call gen n = rhs.call gen n) ∧
      ∀ w r w', law.outcome (Comes gen) s w r w' ↔
        ∃ n, lhs.call gen n w = finished w' r ∧ rhs.call gen n w = finished w' r := by
  obtain ⟨lhs, rhs, hsides⟩ : ∃ lhs rhs, suite.sides s law = .ok (lhs, rhs) := by
    cases law <;> simp only [LawSuite.sides, hsuite, hbind] <;> exact ⟨_, _, rfl⟩
  have hcalls (n : Nat) : lhs.call gen n = rhs.call gen n := by
    rw [call_eq, call_eq]
    by_cases hlaw : law = .monadic
    · subst hlaw
      simp only [LawSuite.sides, hbind, hsuite] at hsides
      obtain ⟨_, hlhs, hsides⟩ := exists_of_bind_eq_ok hsides
      obtain ⟨_, hrhs, hsides⟩ := exists_of_bind_eq_ok hsides
      cases hsides
      cases hlhs
      exact (evaluateWith_handleM hrhs (hx.tagged n)).symm
    · have hmean : suite.context.EvaluatesBy (evaluateWith (expansion gen n)) := by
        rw [hsuite]
        exact evaluatesBy_taskCore P σ (expansion gen n)
      exact suite.evaluate_alike hmean hlaw (hx.tagged n) (hchoice.tagged n) hg hsides
  refine ⟨lhs, rhs, hsides, hcalls, fun w r w' => ?_⟩
  rw [← comes_of_sides hsuite hbind hx hchoice hg hsides, comes_iff_call]
  simp only [← hcalls, and_self]

/-- A deferred choice between tasks that log. One of them fails, which is the end of the call where
handling is nested, with all that was logged before it. -/
theorem calls_alike_deferred :
    let say (name : String) (v : Val Builtin) : Task Builtin (List String) Unit :=
      .ofAction do
        modify (name :: ·)
        return v
    let gen : Unit → Action (List String) (Task Builtin (List String) Unit) := fun _ =>
      return say "choice" (.left .null)
    let suite : LawSuite (List String) Builtin Unit (Task Builtin (List String) Unit) Unit :=
      { context := (Context.task fun _ => ()).toContext
        handleM := some (Context.task fun _ => ()).handleM
        observe := fun _ => return () }
    let s : LawSamples Builtin (Task Builtin (List String) Unit) :=
      { x := say "x" (.left (.int 1))
        y := say "y" .toRight
        c := say "c" .null
        choice := .ofDeferred ()
        z := .done (.error (.raised .value "boom"))
        g := .toLeft
        curried := .flip .toRight
        value := .null }
    s.x.ReturnsTags gen ∧ s.choice.ReturnsTags gen ∧ Fun.Total s.g.call ∧
      (∃ lhs rhs, suite.sides s .a1 = .ok (lhs, rhs) ∧ (∀ n, lhs.call gen n = rhs.call gen n) ∧
        ∃ n, lhs.call gen n [] = .error (.raised .value "boom") ["choice", "x"] ∧
          rhs.call gen n [] = .error (.raised .value "boom") ["choice", "x"]) ∧
      ∃ lhs rhs, suite.sides s .f1 = .ok (lhs, rhs) ∧ (∀ n, lhs.call gen n = rhs.call gen n) ∧
        ∃ n, lhs.call gen n [] = .ok (some (.left (.right (.int 1)))) ["y", "x"] ∧
          rhs.call gen n [] = .ok (some (.left (.right (.int 1)))) ["y", "x"] := by
  intro say gen suite s
  have hx : s.x.ReturnsTags gen := by
    intro n w v w' h
    cases n <;> cases h <;> exact .inl ⟨_, rfl⟩
  have hchoice : s.choice.ReturnsTags gen := by
    intro n w v w' h
    rw [call_eq, evaluateWith_ofDeferred] at h
    match n, h with
    | 1, h | n + 2, h =>
      cases h
      exact .inl ⟨_, rfl⟩
  have hg : Fun.Total s.g.call := fun v => ⟨.left v, Val.call_toLeft v⟩
  have hsay (name : String) (v : Val Builtin) (w : List String) :
      Comes gen (say name v) w (.ok v) (name :: w) := .performs rfl (.done _ _)
  refine ⟨hx, hchoice, hg, ?_, ?_⟩
  · obtain ⟨lhs, rhs, hsides, hcalls, hcomes⟩ := calls_alike suite rfl rfl gen s hx hchoice hg .a1
    refine ⟨lhs, rhs, hsides, hcalls, (hcomes [] (.error (.raised .value "boom")) _).mp ?_⟩
    have hdeferred : Comes gen s.choice ["x"] (.ok (.left .null)) ["choice", "x"] :=
      .expands rfl (hsay "choice" (.left .null) ["x"]) (.done _ _)
    exact .inl ⟨_, _, hsay .., .inl ⟨_, _, hdeferred, .inr ⟨_, .done _ _, rfl⟩⟩⟩
  · obtain ⟨lhs, rhs, hsides, hcalls, hcomes⟩ := calls_alike suite rfl rfl gen s hx hchoice hg .f1
    refine ⟨lhs, rhs, hsides, hcalls, (hcomes [] (.ok (.left (.right (.int 1)))) _).mp ?_⟩
    have hvalue : Val.toRight.call (.int 1 : Val Builtin) >>= Val.toLeft.call =
        .ok (.left (.right (.int 1))) := by simp
    exact .inl ⟨_, _, hsay .., .inl ⟨_, _, hsay .., hvalue.symm, rfl⟩⟩

end Task

end SelectiveEffects
