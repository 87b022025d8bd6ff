import SelectiveEffects.Effect.Catalogue
import SelectiveEffects.Scenario.Builtin

/-! Comparing values and effects that were each made apart from the others. -/

namespace SelectiveEffects.Scenario

open Builtin (Value)

/-- Effects that share nothing with one another. -/
def apart (effects : List (Effect Builtin)) : List (Effect Builtin) :=
  ((effects.mapM Effect.withMarks).run 0).1

/-- Which of some effects equal which. -/
def equalities (effects : List (Effect Builtin)) : List (List Bool) :=
  effects.map fun e => effects.map e.same

/-- Whether giving an effect a site makes a copy of it. Taking no site from one without a site leaves
it as it is. -/
def copies (e : Effect Builtin) (site : Option Site) : Bool :=
  e.site.isSome || site.isSome

/-- The sides of a law as plain values, made apart. -/
structure WrittenCheck where
  law : String
  lhs : Value
  rhs : Value

namespace WrittenCheck

def holds (c : WrittenCheck) : Bool :=
  c.lhs.same c.rhs

def violation (c : WrittenCheck) : Fault.Violation :=
  { law := c.law, lhs := c.lhs.render, rhs := c.rhs.render }

def fault (checks : List WrittenCheck) : Fault :=
  .lawsViolated (checks.map violation)

end WrittenCheck

end SelectiveEffects.Scenario
