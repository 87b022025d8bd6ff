import SelectiveEffects.Effect.Basic
import SelectiveEffects.Scenario.Builtin
import SelectiveEffects.Tree.Basic

/-! Written descriptions of pipelines, and the closures that deferred ones leave behind. -/

namespace SelectiveEffects.Scenario

open Builtin (Value)

/-- Operations on built operands. The basic forms bypass what a context has of its own. -/
inductive Operator where
  | handle
  | select
  | ap
  | ifS
  | whenS
  | orS
  | andS
  | fromMaybe
  | whileS
  | handleM
  | basicSelect
  | basicAp
  | orAll
  | andAll
  deriving DecidableEq, Repr

/-- How items are tested: with a label, each becomes a leaf whose label ends in the item. -/
structure ItemTest where
  check : Option String
  test : Value
  items : List Value

/-- What is `foreign` is a value that stands in the place of a tree or of a value of the context at
hand. -/
inductive Expr where
  | pure (v : Value)
  | leaf (label : String) (v : Value)
  | leafAt (labelStart : String) (v : Value)
  | lift (e : Effect Builtin)
  | liftValue (v : Value)
  | foreign (v : Value)
  | oddNode
  | map (f : Value) (x : Expr)
  | methodMap (f : Value) (x : Expr)
  | combine (op : Operator) (operands : List Expr)
  | liftA2 (b : Binary) (x y : Expr)
  | anyS (test : ItemTest)
  | allS (test : ItemTest)
  | bind (x : Expr) (cases : List (Value × Expr)) (otherwise : Expr)
  | defer (name : String) (body : Expr)
  | deferSeq (name : String) (bodies : List Expr)
  | deferValue (v : Value)
  | fix (name : String) (body : Expr)
  | var (name : String)
  | nest (count : Nat) (template base : Expr)
  | hole
  | ref (name : String)
  | rawPure (v : Value)
  | rawLifted (e : Effect Builtin) (k : Option Value)
  | rawSelection (disjunction handler : Expr) (k : Option Value) (route : Route)
  | rawDeferred (body : Expr) (k : Option Value)
  | labels (ls : List String)
  | task (label : String) (v : Value)

instance : Inhabited Expr := ⟨.hole⟩

/-- A named expression that may be built again, with what stood for the hole around it. -/
structure Binding (F : Type) where
  name : String
  body : Expr
  hole : Option F
  index : Nat

/-- The innermost binding comes first. -/
structure Env (F : Type) where
  hole : Option F := none
  index : Nat := 0
  bindings : List (Binding F) := []

/-- A deferred construction. A name is logged at each expansion; a counter chooses among several
bodies, staying with the last. -/
structure Closure (F : Type) where
  name : Option String
  bodies : List Expr
  counter : Option Nat := none
  env : Env F

/-- The environment in which a bound expression is built again. -/
def Env.bindingOf {F : Type} (name : String) : List (Binding F) → Option (Expr × Env F)
  | [] => none
  | b :: bs =>
    if b.name = name then some (b.body, { hole := b.hole, index := b.index, bindings := b :: bs })
    else bindingOf name bs

end SelectiveEffects.Scenario
