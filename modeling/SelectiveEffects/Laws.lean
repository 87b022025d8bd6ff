import SelectiveEffects.Context.Basic

/-! The selective laws: two ways to build the same value from a context's operations. -/

namespace SelectiveEffects

inductive Law where
  | f1
  | f2
  | f3
  | p1
  | p2
  | a1
  | monadic
  deriving DecidableEq, Repr

def Law.name : Law → String
  | .f1 => "F1"
  | .f2 => "F2"
  | .f3 => "F3"
  | .p1 => "P1"
  | .p2 => "P2"
  | .a1 => "A1"
  | .monadic => "M"

/-- The law that a method of the suite checks. -/
def Law.ofMethod? : String → Option Law
  | "f1" => some .f1
  | "f2" => some .f2
  | "f3" => some .f3
  | "p1" => some .p1
  | "p2" => some .p2
  | "a1" => some .a1
  | "monad_coherence" => some .monadic
  | _ => none

/-- Values of a context over one type `a` of elements: `x` yields tagged elements, `y` functions on
them, `c` elements, `choice` elements or functions, and `z` curried functions of two. -/
structure LawSamples (P F : Type) where
  x : F
  y : F
  c : F
  choice : F
  z : F
  g : Val P
  curried : Val P
  value : Val P

namespace Fun

variable {P : Type}

def nestRight [Primitives P] : Fun P :=
  (Val.mapRight .toRight).call

def pairOrApply : Fun P :=
  fun tagged => .ok (.pairOrApply tagged)

def uncurry : Fun P :=
  fun f => .ok (.uncurry f)

end Fun

namespace Selective

variable {m : Type → Type} [Monad m] {P F : Type} [Primitives P]

/-- Mapping after handling is mapping the right payload and the handler's result. -/
def f1 (S : Selective m P F) (x y : F) (g : Val P) : m (F × F) := do
  let lhs ← S.map g.call (← S.handle x y)
  let tagged ← S.map (Val.mapRight g).call x
  let handler ← S.map (fun f => .ok (.compose g f)) y
  return (lhs, ← S.handle tagged handler)

/-- Mapping the left payload is mapping the handler's argument. -/
def f2 (S : Selective m P F) (x y : F) (g : Val P) : m (F × F) := do
  let lhs ← S.handle (← S.map (Val.mapLeft g).call x) y
  let handler ← S.map (fun f => .ok (.compose f g)) y
  return (lhs, ← S.handle x handler)

/-- A handler computed from an element may take that element as its argument instead. -/
def f3 (S : Selective m P F) (x c : F) (curried : Val P) : m (F × F) := do
  let lhs ← S.handle x (← S.map curried.call c)
  let tagged ← S.map (Val.mapLeft (.flip curried)).call x
  let handler ← S.map Fun.applying c
  return (lhs, ← S.handle tagged handler)

/-- A known handler is mapped. -/
def p1 (S : Selective m P F) (x : F) (g : Val P) : m (F × F) := do
  let lhs ← S.handle x (← S.unit g)
  return (lhs, ← S.map (Val.either g .identity).call x)

/-- A known left tag applies the handler. -/
def p2 (S : Selective m P F) (v : Val P) (y : F) : m (F × F) := do
  let lhs ← S.handle (← S.unit (.left v)) y
  return (lhs, ← S.map (Val.applyTo v).call y)

/-- Handling is associative. -/
def a1 (S : Selective m P F) (x choice z : F) : m (F × F) := do
  let lhs ← S.handle x (← S.handle choice z)
  let nested ← S.map Fun.nestRight x
  let paired ← S.map Fun.pairOrApply choice
  let inner ← S.handle nested paired
  let handler ← S.map Fun.uncurry z
  return (lhs, ← S.handle inner handler)

section Sides

variable {S : Selective (Except Fault) P F} {x y c choice z lhs rhs : F} {v g curried : Val P}

theorem f1_cases (h : S.f1 x y g = .ok (lhs, rhs)) :
    ∃ handled tagged handler, S.handle x y = .ok handled ∧ S.map g.call handled = .ok lhs ∧
      S.map (Val.mapRight g).call x = .ok tagged ∧
      S.map (fun f => .ok (.compose g f)) y = .ok handler ∧ S.handle tagged handler = .ok rhs := by
  obtain ⟨handled, hhandled, h⟩ := exists_of_bind_eq_ok h
  obtain ⟨_, hlhs, h⟩ := exists_of_bind_eq_ok h
  obtain ⟨tagged, htagged, h⟩ := exists_of_bind_eq_ok h
  obtain ⟨handler, hhandler, h⟩ := exists_of_bind_eq_ok h
  obtain ⟨_, hrhs, h⟩ := exists_of_bind_eq_ok h
  cases h
  exact ⟨handled, tagged, handler, hhandled, hlhs, htagged, hhandler, hrhs⟩

theorem f2_cases (h : S.f2 x y g = .ok (lhs, rhs)) :
    ∃ tagged handler, S.map (Val.mapLeft g).call x = .ok tagged ∧ S.handle tagged y = .ok lhs ∧
      S.map (fun f => .ok (.compose f g)) y = .ok handler ∧ S.handle x handler = .ok rhs := by
  obtain ⟨tagged, htagged, h⟩ := exists_of_bind_eq_ok h
  obtain ⟨_, hlhs, h⟩ := exists_of_bind_eq_ok h
  obtain ⟨handler, hhandler, h⟩ := exists_of_bind_eq_ok h
  obtain ⟨_, hrhs, h⟩ := exists_of_bind_eq_ok h
  cases h
  exact ⟨tagged, handler, htagged, hlhs, hhandler, hrhs⟩

theorem f3_cases (h : S.f3 x c curried = .ok (lhs, rhs)) :
    ∃ applied tagged handler, S.map curried.call c = .ok applied ∧ S.handle x applied = .ok lhs ∧
      S.map (Val.mapLeft (.flip curried)).call x = .ok tagged ∧
      S.map Fun.applying c = .ok handler ∧ S.handle tagged handler = .ok rhs := by
  obtain ⟨applied, happlied, h⟩ := exists_of_bind_eq_ok h
  obtain ⟨_, hlhs, h⟩ := exists_of_bind_eq_ok h
  obtain ⟨tagged, htagged, h⟩ := exists_of_bind_eq_ok h
  obtain ⟨handler, hhandler, h⟩ := exists_of_bind_eq_ok h
  obtain ⟨_, hrhs, h⟩ := exists_of_bind_eq_ok h
  cases h
  exact ⟨applied, tagged, handler, happlied, hlhs, htagged, hhandler, hrhs⟩

theorem p1_cases (h : S.p1 x g = .ok (lhs, rhs)) :
    ∃ known, S.unit g = .ok known ∧ S.handle x known = .ok lhs ∧
      S.map (Val.either g .identity).call x = .ok rhs := by
  obtain ⟨known, hknown, h⟩ := exists_of_bind_eq_ok h
  obtain ⟨_, hlhs, h⟩ := exists_of_bind_eq_ok h
  obtain ⟨_, hrhs, h⟩ := exists_of_bind_eq_ok h
  cases h
  exact ⟨known, hknown, hlhs, hrhs⟩

theorem p2_cases (h : S.p2 v y = .ok (lhs, rhs)) :
    ∃ known, S.unit (.left v) = .ok known ∧ S.handle known y = .ok lhs ∧
      S.map (Val.applyTo v).call y = .ok rhs := by
  obtain ⟨known, hknown, h⟩ := exists_of_bind_eq_ok h
  obtain ⟨_, hlhs, h⟩ := exists_of_bind_eq_ok h
  obtain ⟨_, hrhs, h⟩ := exists_of_bind_eq_ok h
  cases h
  exact ⟨known, hknown, hlhs, hrhs⟩

theorem a1_cases (h : S.a1 x choice z = .ok (lhs, rhs)) :
    ∃ handled nested paired inner handler, S.handle choice z = .ok handled ∧
      S.handle x handled = .ok lhs ∧ S.map Fun.nestRight x = .ok nested ∧
      S.map Fun.pairOrApply choice = .ok paired ∧ S.handle nested paired = .ok inner ∧
      S.map Fun.uncurry z = .ok handler ∧ S.handle inner handler = .ok rhs := by
  obtain ⟨handled, hhandled, h⟩ := exists_of_bind_eq_ok h
  obtain ⟨_, hlhs, h⟩ := exists_of_bind_eq_ok h
  obtain ⟨nested, hnested, h⟩ := exists_of_bind_eq_ok h
  obtain ⟨paired, hpaired, h⟩ := exists_of_bind_eq_ok h
  obtain ⟨inner, hinner, h⟩ := exists_of_bind_eq_ok h
  obtain ⟨handler, hhandler, h⟩ := exists_of_bind_eq_ok h
  obtain ⟨_, hrhs, h⟩ := exists_of_bind_eq_ok h
  cases h
  exact ⟨handled, nested, paired, inner, handler, hhandled, hlhs, hnested, hpaired, hinner,
    hhandler, hrhs⟩

end Sides

end Selective

/-- Both sides as they were observed. -/
structure LawCheck (O : Type) where
  law : Law
  lhs : O
  rhs : O

namespace LawCheck

variable {O : Type}

def holds [BEq O] (c : LawCheck O) : Bool :=
  c.lhs == c.rhs

def violation (render : O → String) (c : LawCheck O) : Fault.Violation :=
  { law := c.law.name, lhs := render c.lhs, rhs := render c.rhs }

end LawCheck

/-- The laws of one context. `handleM` is there when the context can bind, and both sides are
compared by what is observed of them. -/
structure LawSuite (σ P D F O : Type) where
  context : Context (Except Fault) P D F
  handleM : Option (F → F → Except Fault F) := none
  observe : F → Action σ O

namespace LawSuite

variable {σ P D F O : Type} [Primitives P]

def sides (suite : LawSuite σ P D F O) (s : LawSamples P F) : Law → Except Fault (F × F)
  | .f1 => suite.context.f1 s.x s.y s.g
  | .f2 => suite.context.f2 s.x s.y s.g
  | .f3 => suite.context.f3 s.x s.c s.curried
  | .p1 => suite.context.p1 s.x s.g
  | .p2 => suite.context.p2 s.value s.y
  | .a1 => suite.context.a1 s.x s.choice s.z
  | .monadic =>
    match suite.handleM with
    | none => .error (.noBind suite.context.name)
    | some handleM => do
      let lhs ← suite.context.handle s.x s.y
      return (lhs, ← handleM s.x s.y)

def check (suite : LawSuite σ P D F O) (s : LawSamples P F) (law : Law) :
    Action σ (LawCheck O) := do
  let (lhs, rhs) ← Action.ofExcept (suite.sides s law)
  let lhs ← suite.observe lhs
  let rhs ← suite.observe rhs
  return { law, lhs, rhs }

def laws (suite : LawSuite σ P D F O) : List Law :=
  [.f1, .f2, .f3, .p1, .p2, .a1] ++ if suite.handleM.isSome then [.monadic] else []

/-- Every law that is not skipped, on each of the samples. -/
def checkAll (suite : LawSuite σ P D F O) (samples : List (LawSamples P F))
    (skip : List String) : Action σ (List (LawCheck O)) := do
  let wanted := suite.laws.filter fun law => !skip.contains law.name
  let checks ← samples.mapM fun s => wanted.mapM (suite.check s)
  return checks.flatten

end LawSuite

/-- The checks that fail, and what is reported of them all. -/
structure LawVerdict (O : Type) where
  failures : List (LawCheck O)
  lines : List String

namespace LawVerdict

variable {O : Type} [BEq O]

def failureLine (render : O → String) (context : String) (c : LawCheck O) : String :=
  "ERROR laws " ++ context ++ " context violates " ++ c.law.name ++ ": " ++ render c.lhs ++
    " != " ++ render c.rhs

def successLine (context : String) (checks : Nat) : String :=
  "DEBUG laws " ++ context ++ " context satisfies " ++ toString checks ++ " law check(s)"

def of (render : O → String) (context : String) (checks : List (LawCheck O)) : LawVerdict O :=
  let failures := checks.filter fun c => !c.holds
  { failures := failures
    lines :=
      if failures.isEmpty then [successLine context checks.length]
      else failures.map (failureLine render context) }

def fault? (render : O → String) (v : LawVerdict O) : Option Fault :=
  if v.failures.isEmpty then none
  else some (.lawsViolated (v.failures.map (LawCheck.violation render)))

end LawVerdict

end SelectiveEffects
