import SelectiveEffects.Text.Quoted

/-! The ways in which building, running or analysing a pipeline fails, each with its wording. -/

namespace SelectiveEffects

namespace Fault

inductive Kind where
  | value
  | type
  | runtime
  | zeroDivision
  | lookup
  | assertion
  | missingMember
  | abort
  | unhandledEffect
  | unboundedTree
  | stepLimit
  | lawViolation
  deriving DecidableEq, Repr

def Kind.name : Kind → String
  | .value => "ValueError"
  | .type => "TypeError"
  | .runtime => "RuntimeError"
  | .zeroDivision => "ZeroDivisionError"
  | .lookup => "LookupError"
  | .assertion => "AssertionError"
  | .missingMember => "AttributeError"
  | .abort => "Abort"
  | .unhandledEffect => "UnhandledEffectError"
  | .unboundedTree => "UnboundedTreeError"
  | .stepLimit => "StepLimitExceeded"
  | .lawViolation => "LawViolation"

/-- The kinds that a host may raise of its own accord. -/
def Kind.raisable : List Kind :=
  [.value, .type, .runtime, .zeroDivision, .lookup, .assertion, .abort]

def Kind.raisable? (name : String) : Option Kind :=
  Kind.raisable.find? fun kind => kind.name == name

/-- The broader kinds that catch a kind, nearest first. -/
def Kind.broader : Kind → List Kind
  | .unhandledEffect => [.lookup]
  | .unboundedTree => [.value]
  | .stepLimit => [.runtime]
  | .lawViolation => [.assertion]
  | _ => []

/-- A numeric argument outside its range. -/
inductive Limit where
  | maxSteps
  | maxTrace
  | foldUnroll
  | pathUnroll
  | maxSequences
  deriving DecidableEq, Repr

def Limit.message : Limit → String
  | .maxSteps => "max_steps must be > 0 or None"
  | .maxTrace => "max_trace_entries must be >= 0 or None"
  | .foldUnroll => "unroll must be >= 0 or None"
  | .pathUnroll => "unroll must be >= 0"
  | .maxSequences => "max_sequences must be > 0"

/-- A law whose two sides differ, with the texts of both. -/
structure Violation where
  law : String
  lhs : String
  rhs : String
  deriving DecidableEq, Repr

def Violation.line (v : Violation) : String :=
  "  " ++ v.law ++ ": " ++ v.lhs ++ " != " ++ v.rhs

end Fault

/-- The cause of a failure. Type names are those of the offending values. -/
inductive Fault where
  | raised (kind : Fault.Kind) (text : String)
  | notCallable (typeName : String)
  | noMember (typeName member : String)
  | notUnpackable (typeName : String)
  | tooFewParts (count : Nat)
  | tooManyParts
  | notIterable (typeName : String)
  | untaggedDisjunction (typeName : String)
  | notInterpretable (typeName : String)
  | notExpanded (typeName : String)
  | notLiftable (typeName : String)
  | notDeferrable
  | notMappable (typeName : String)
  | notHandleable (disjunction handler : String)
  | notFoldable (typeName : String)
  | notTraversable (typeName : String)
  | notEffect (qualifiedType : String)
  | unhandledEffect (effect : String) (site : Option String) (className : String)
  | unboundedTree (reason : String)
  | stepLimit (limit : Int)
  | awaitableReply (label : String)
  | outOfRange (limit : Fault.Limit)
  | lawsViolated (violations : List Fault.Violation)
  | sealedTable
  | noBind (context : String)
  | noError
  deriving DecidableEq, Repr

namespace Fault

def Limit.natural (limit : Limit) (n : Int) : Except Fault Nat :=
  if n < 0 then .error (.outOfRange limit) else .ok n.toNat

def Limit.positive (limit : Limit) (n : Int) : Except Fault Nat :=
  if n ≤ 0 then .error (.outOfRange limit) else .ok n.toNat

/-- Checks a limit that may be absent. -/
def Limit.optional (check : Int → Except Fault Nat) : Option Int → Except Fault (Option Nat)
  | none => .ok none
  | some n => (check n).map some

def kind : Fault → Kind
  | .raised kind _ => kind
  | .noMember _ _ => .missingMember
  | .tooFewParts _ | .tooManyParts | .outOfRange _ | .noError => .value
  | .unhandledEffect _ _ _ => .unhandledEffect
  | .unboundedTree _ => .unboundedTree
  | .stepLimit _ => .stepLimit
  | .lawsViolated _ => .lawViolation
  | _ => .type

/-- An escaping fault passes every handler of ordinary failures and ends the whole operation. -/
def escapes (e : Fault) : Bool :=
  e.kind == .abort

def unhandledMessage (effect : String) (site : Option String) (className : String) : String :=
  "\n".intercalate <|
    ["No handler registered for effect " ++ effect] ++ site.toList ++
    ["Hint: Pass `handlers=\x7b" ++ className ++
      ": ...\x7d` or a `fallback` to SelectiveInterpreter"]

def unboundedHint : String :=
  "Hint: pass `unroll=N` to bound how many times deferred subtrees are expanded"

def loopReason : String := "tree contains an unbounded loop construct"

def contextReason (context : String) : String :=
  context ++ " context cannot represent deferred values"

def violationsMessage (violations : List Violation) : String :=
  toString violations.length ++ " selective law(s) violated:\n" ++
    "\n".intercalate (violations.map Violation.line)

def message : Fault → String
  | .raised _ text => text
  | .notCallable typeName => s!"'{typeName}' object is not callable"
  | .noMember typeName member => s!"'{typeName}' object has no attribute '{member}'"
  | .notUnpackable typeName => s!"cannot unpack non-iterable {typeName} object"
  | .tooFewParts count => s!"not enough values to unpack (expected 2, got {count})"
  | .tooManyParts => "too many values to unpack (expected 2)"
  | .notIterable typeName => s!"'{typeName}' object is not iterable"
  | .untaggedDisjunction typeName =>
    s!"Select disjunction must produce Left or Right; got {typeName}"
  | .notInterpretable typeName => s!"Cannot interpret {typeName} as a Tree"
  | .notExpanded typeName => s!"Deferred thunk must return a Tree; got {typeName}"
  | .notLiftable typeName => s!"lift expects an EffectBase; got {typeName}"
  | .notDeferrable => "defer expects a zero-argument callable returning a Tree"
  | .notMappable typeName => s!"fmap expects a Tree; got {typeName}"
  | .notHandleable disjunction handler =>
    s!"handle expects Tree arguments; got {disjunction}, {handler}"
  | .notFoldable typeName => s!"fold_tree expects a Tree; got {typeName}"
  | .notTraversable typeName => s!"expected a Tree; got {typeName}"
  | .notEffect qualifiedType => s!"Expected EffectBase, got <class '{qualifiedType}'>"
  | .unhandledEffect effect site className => unhandledMessage effect site className
  | .unboundedTree reason => reason ++ "\n" ++ unboundedHint
  | .stepLimit limit => s!"Interpretation exceeded max_steps={limit}"
  | .awaitableReply label =>
    s!"Handler for {label} returned an awaitable. " ++
      "Use run_async to interpret trees with async handlers."
  | .outOfRange limit => limit.message
  | .lawsViolated violations => violationsMessage violations
  | .sealedTable => "'frozendict' object doesn't support item assignment"
  | .noBind context => s!"{context} context does not support bind"
  | .noError => "Cannot access error on successful result"

def kindName (e : Fault) : String :=
  e.kind.name

def render (e : Fault) : String :=
  e.kindName ++ "(" ++ Quoted.text e.message ++ ")"

@[simp] theorem kind_raised (kind : Kind) (text : String) : (raised kind text).kind = kind := rfl

@[simp] theorem escapes_raised (kind : Kind) (text : String) :
    (raised kind text).escapes = (kind == .abort) := rfl

end Fault

@[simp] theorem ok_bind {α β : Type} (a : α) (f : α → Except Fault β) :
    (Except.ok a >>= f) = f a := rfl

@[simp] theorem error_bind {α β : Type} (e : Fault) (f : α → Except Fault β) :
    (Except.error e >>= f) = .error e := rfl

theorem exists_of_bind_eq_ok {α β : Type} {r : Except Fault α} {f : α → Except Fault β} {b : β}
    (h : r >>= f = .ok b) : ∃ a, r = .ok a ∧ f a = .ok b := by
  cases r with
  | error e => cases h
  | ok a => exact ⟨a, rfl, h⟩

theorem bind_eq_error_iff {α β : Type} {r : Except Fault α} {f : α → Except Fault β} {e : Fault} :
    r >>= f = .error e ↔ r = .error e ∨ ∃ a, r = .ok a ∧ f a = .error e := by
  cases r with
  | error e' => simp
  | ok a => simp

theorem exists_of_map_eq_ok {α β : Type} {f : α → β} {r : Except Fault α} {b : β}
    (h : r.map f = .ok b) : ∃ a, r = .ok a ∧ f a = b := by
  cases r with
  | error e => cases h
  | ok a => exact ⟨a, rfl, by simpa [Except.map] using h⟩

section Chain

variable {α β : Type} {link : α → β → Except Fault β} {p : List α → β → Prop} {base : β}

/-- What is true of the end of a chain, and is kept by every link, is true of the chain. -/
theorem foldrM_induction {xs : List α} {z : β} (h : xs.foldrM link base = .ok z)
    (hbase : p [] base) (hlink : ∀ x xs y z, link x y = .ok z → p xs y → p (x :: xs) z) :
    p xs z := by
  induction xs generalizing z with
  | nil =>
    cases h
    exact hbase
  | cons x xs ih =>
    rw [List.foldrM_cons] at h
    obtain ⟨y, hy, hlinked⟩ := exists_of_bind_eq_ok h
    exact hlink x xs y z hlinked (ih hy)

/-- A chain can be made when every link to what the links keep can. -/
theorem exists_foldrM {q : α → Prop} (hbase : p [] base)
    (hlink : ∀ x xs y, q x → p xs y → ∃ z, link x y = .ok z ∧ p (x :: xs) z) {xs : List α}
    (hxs : ∀ x ∈ xs, q x) : ∃ z, xs.foldrM link base = .ok z ∧ p xs z := by
  induction xs with
  | nil => exact ⟨base, rfl, hbase⟩
  | cons x xs ih =>
    obtain ⟨y, hy, hrest⟩ := ih fun z hz => hxs z (List.mem_cons_of_mem x hz)
    obtain ⟨z, hz, hchain⟩ := hlink x xs y (hxs x List.mem_cons_self) hrest
    refine ⟨z, ?_, hchain⟩
    rw [List.foldrM_cons, hy]
    exact hz

end Chain

end SelectiveEffects
