import SelectiveEffects.Proofs.Run.Constructing

/-! Conditionals, nested in any way, can be built unless the truth of a known condition cannot be told,
and run as plain evaluation by the truth of values does. -/

namespace SelectiveEffects

open Machine Scenario

/-- Conditionals over trees that were built. -/
inductive Conditional (P G : Type) [Primitives P] where
  | tree (t : Tree P G) (built : t.Built)
  | ifS (condition onTrue onFalse : Conditional P G)
  | whenS (condition action : Conditional P G)
  | orS (x y : Conditional P G)
  | andS (x y : Conditional P G)
  | fromMaybe (fallback x : Conditional P G)

namespace Conditional

variable {P G σ : Type} [Primitives P]

def build : Conditional P G → Except Fault (Tree P G)
  | tree t _ => .ok t
  | ifS condition onTrue onFalse => do
    let c ← condition.build
    let t ← onTrue.build
    let f ← onFalse.build
    Context.free.ifS c t f
  | whenS condition action => do
    let c ← condition.build
    let a ← action.build
    Tree.whenS c a
  | orS x y => do
    let x ← x.build
    let y ← y.build
    Context.free.orS x y
  | andS x y => do
    let x ← x.build
    let y ← y.build
    Context.free.andS x y
  | fromMaybe fallback x => do
    let d ← fallback.build
    let x ← x.build
    Context.free.fromMaybe d x

/-- The conditionals in it whose truth is tested, in the order in which the tests are built in. -/
def conditions : Conditional P G → List (Conditional P G)
  | tree _ _ => []
  | ifS condition onTrue onFalse =>
    condition.conditions ++ (onTrue.conditions ++ (onFalse.conditions ++ [condition]))
  | whenS condition action => condition.conditions ++ (action.conditions ++ [condition])
  | orS x y => x.conditions ++ (y.conditions ++ [x])
  | andS x y => x.conditions ++ (y.conditions ++ [x])
  | fromMaybe fallback x => fallback.conditions ++ x.conditions

/-- The fault of testing the truth of what was built, if its value is known and the test raises one. -/
def truthFault? (c : Conditional P G) : Option Fault :=
  match c.build with
  | .ok t => t.truthFault?
  | .error _ => none

theorem truthFault?_of_build {c : Conditional P G} {t : Tree P G} (h : c.build = .ok t) :
    c.truthFault? = t.truthFault? := by
  rw [truthFault?, h]

/-- Plain evaluation: an operand runs where its value is asked for, and else not at all. A condition
whose truth cannot be told is a failure. -/
def plain (runs : Tree P G → Conclusions P G σ) : Conditional P G → Conclusions P G σ
  | tree t _ => runs t
  | ifS condition onTrue onFalse =>
    (condition.plain runs).andThen (.byTruth fun b =>
      if b then onTrue.plain runs else onFalse.plain runs)
  | whenS condition action =>
    ((condition.plain runs).andThen (.byTruth fun b =>
      if b then action.plain runs else .ofExcept (.ok .null))).andThen fun _ =>
        .ofExcept (.ok .null)
  | orS x y =>
    (x.plain runs).andThen (.byTruth fun b =>
      if b then .ofExcept (.ok (.bool true)) else y.plain runs)
  | andS x y =>
    (x.plain runs).andThen (.byTruth fun b =>
      if b then y.plain runs else .ofExcept (.ok (.bool false)))
  | fromMaybe fallback x =>
    (x.plain runs).andThen (Val.byAbsence (fallback.plain runs) fun v => .ofExcept (.ok v))

end Conditional

namespace Interpreter

variable {P G σ : Type} [Primitives P]
variable {I : Interpreter P σ} {gen : G → Action σ (Tree P G)} {mode : Mode}

theorem Constructs.congr_fails {made : Except Fault (Tree P G)} {fails fails' : Fault → Prop}
    {R : Conclusions P G σ} (h : I.Constructs gen mode made fails R)
    (hfails : ∀ e, fails e ↔ fails' e) : I.Constructs gen mode made fails' R :=
  ⟨fun e => (h.error_iff e).trans (hfails e), h.built, h.runsTo⟩

/-- What is made of a made tree fails as the making of that tree does, or else in its own way. -/
theorem Constructs.bind {made : Except Fault (Tree P G)} {f : Tree P G → Except Fault (Tree P G)}
    {fault fault' : Option Fault} {R S : Conclusions P G σ}
    (h : I.Constructs gen mode made (fault = some ·) R)
    (hf : ∀ t, made = .ok t → t.Built → I.RunsTo gen mode t = R →
      I.Constructs gen mode (f t) (fault' = some ·) S) :
    I.Constructs gen mode (made >>= f) (fault.or fault' = some ·) S := by
  cases hmade : made with
  | error e =>
    have hfault : fault = some e := (h.error_iff e).mp hmade
    refine ⟨fun e' => ?_, nofun, nofun⟩
    rw [hfault, error_bind]
    simp
  | ok t =>
    have hfault : fault = none := by
      cases fault with
      | none => rfl
      | some e => cases hmade.symm.trans ((h.error_iff e).mpr rfl)
    rw [hfault, Option.none_or, ok_bind]
    exact hf t hmade (h.built t hmade) (h.runsTo t hmade)

theorem constructs_build (c : Conditional P G) :
    I.Constructs gen mode c.build (c.conditions.findSome? Conditional.truthFault? = some ·)
      (c.plain (I.RunsTo gen mode)) := by
  have hswap (R S : Conclusions P G σ) (b : Bool) :
      (if b = false then R else S) = if b then S else R := by
    cases b <;> rfl
  induction c with
  | tree t built =>
    refine ⟨fun e => ?_, fun u h => ?_, fun u h => ?_⟩
    · simp [Conditional.build, Conditional.conditions]
    · cases h
      exact built
    · cases h
      rfl
  | ifS condition onTrue onFalse ihc iht ihf =>
    simp only [Conditional.conditions, List.findSome?_append, List.findSome?_singleton]
    refine ihc.bind fun c hmade hc hrc => iht.bind fun t _ ht hrt => ihf.bind fun f _ hf hrf => ?_
    rw [Conditional.plain, ← hrc, ← hrt, ← hrf, Conditional.truthFault?_of_build hmade]
    exact constructs_ifS hc ht hf
  | whenS condition action ihc iha =>
    simp only [Conditional.conditions, List.findSome?_append, List.findSome?_singleton]
    refine ihc.bind fun c hmade hc hrc => iha.bind fun a _ ha hra => ?_
    simp only [Conditional.plain, ← hrc, ← hra, ← hswap, Conditional.truthFault?_of_build hmade]
    exact constructs_whenS_forget hc ha
  | orS x y ihx ihy =>
    simp only [Conditional.conditions, List.findSome?_append, List.findSome?_singleton]
    refine ihx.bind fun x hmade hx hrx => ihy.bind fun y _ hy hry => ?_
    rw [Conditional.plain, ← hrx, ← hry, Conditional.truthFault?_of_build hmade]
    exact constructs_orS hx hy
  | andS x y ihx ihy =>
    simp only [Conditional.conditions, List.findSome?_append, List.findSome?_singleton]
    refine ihx.bind fun x hmade hx hrx => ihy.bind fun y _ hy hry => ?_
    simp only [Conditional.plain, ← hrx, ← hry, ← hswap, Conditional.truthFault?_of_build hmade]
    exact constructs_andS hx hy
  | fromMaybe fallback x ihd ihx =>
    rw [Conditional.conditions, List.findSome?_append,
      ← Option.or_none (o := x.conditions.findSome? _)]
    refine ihd.bind fun d _ hd hrd => ihx.bind fun x _ hx hrx => ?_
    rw [Conditional.plain, ← hrd, ← hrx]
    exact (constructs_fromMaybe hd hx).congr_fails (by simp)

/-- A conditional can be built unless the truth of one of its conditions is asked of a known value and
cannot be told; then building fails as the first such test does. The run of what was built is plain
evaluation: it comes to the same last moves, with the same calls and forced nodes before them and the
same world left, and without a limit on steps it ends as those say, with their trace. -/
theorem runsTo_conditional_iff (I : Interpreter P σ) (gen : G → Action σ (Tree P G)) (mode : Mode)
    (c : Conditional P G) :
    (∀ e, c.build = .error e ↔ c.conditions.findSome? Conditional.truthFault? = some e) ∧
    ∀ t, c.build = .ok t → t.Built ∧
      (∀ w last, I.RunsTo gen mode t w last ↔ c.plain (I.RunsTo gen mode) w last) ∧
      (I.maxSteps = none → ∀ w o w', I.Ends gen mode t w o w' ↔
        ∃ last, c.plain (I.RunsTo gen mode) w last ∧
          last.ending I.maxTrace = some (o, w')) := by
  have hbuild : I.Constructs gen mode c.build _ _ := constructs_build c
  refine ⟨hbuild.error_iff, fun t hmade => ?_⟩
  have hruns := hbuild.runsTo t hmade
  refine ⟨hbuild.built t hmade, fun w last => by rw [hruns], fun hI w o w' => ?_⟩
  rw [ends_iff_runsTo hI, hruns]

/-- The answer is a left tag, which holds like any other value; the conditional forgets the function
that its action gives, so that the fallback runs. -/
theorem runsTo_conditional_iff_nested :
    let ask : Effect Builtin :=
      { className := "Ask", lineage := ["Ask"], fields := [], label := .ok "ask" }
    let tell : Effect Builtin :=
      { className := "Tell", lineage := ["Tell"], fields := [], label := .ok "tell" }
    let I : Interpreter Builtin Nat :=
      { fallback := some fun _ => do return .value (.left (.int (← modifyGet fun n => (n, n + 1)))) }
    let gen : Empty → Action Nat (Tree Builtin Empty) := nofun
    let c : Conditional Builtin Empty :=
      .fromMaybe (.tree (.lift tell) (.lift tell))
        (.whenS (.tree (.lift ask) (.lift ask)) (.tree (.pure .identity) (.pure .identity)))
    I.maxSteps = none ∧ ∃ t, c.build = .ok t ∧
      I.Ends gen .sync t 5 (.ok (.ok (.left (.int 6)), ["ask", "tell"])) 7 := by
  intro ask tell I gen c
  have hask : I.RunsTo gen .sync (.lift ask) 5 (.done (.left (.int 5)) ⟨6, [.called ask]⟩) :=
    runsTo_of_evaluate (n := 0) rfl
  have hidentity : I.RunsTo gen .sync (.pure .identity) 6 (.done .identity ⟨6, []⟩) :=
    runsTo_of_evaluate (n := 0) rfl
  have htell : I.RunsTo gen .sync (.lift tell) 6 (.done (.left (.int 6)) ⟨7, [.called tell]⟩) :=
    runsTo_of_evaluate (n := 0) rfl
  obtain ⟨t, hmade⟩ : ∃ t, c.build = .ok t := ⟨_, rfl⟩
  obtain ⟨-, -, hends⟩ := (runsTo_conditional_iff I gen .sync c).2 t hmade
  refine ⟨rfl, t, hmade, (hends rfl 5 _ 7).mpr
    ⟨.done (.left (.int 6)) ⟨7, [.called ask, .called tell]⟩, ?_, rfl⟩⟩
  exact ⟨.done .null ⟨6, [.called ask]⟩, ⟨.done .identity ⟨6, [.called ask]⟩,
    ⟨_, hask, _, hidentity, rfl⟩, .done .null ⟨6, []⟩, rfl, rfl⟩, _, htell, rfl⟩

/-- The condition is a known object that refuses to be tested for its truth, and no tree is made. -/
theorem conditional_truthless_raises :
    let flag : Val Builtin :=
      .object { className := "Flag", truth := .error (.raised .value "no truth") } .null
    let known (v : Val Builtin) : Conditional Builtin Empty := .tree (.pure v) (.pure v)
    let c : Conditional Builtin Empty := .ifS (known flag) (known .null) (known .null)
    c.build = .error (.raised .value "no truth") ∧ ∀ t, c.build ≠ .ok t :=
  ⟨rfl, nofun⟩

end Interpreter

end SelectiveEffects
