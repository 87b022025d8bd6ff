import SelectiveEffects.Context.Labels
import SelectiveEffects.Fold.Basic
import SelectiveEffects.Path.OfTree
import SelectiveEffects.Path.Sequences

/-! Static analysis: which effects a tree could perform, before any handler is chosen. -/

namespace SelectiveEffects

/-- Sequences of labels that a tree could take. With a path, membership is decided on it, so that
a sequence left out of the enumeration is still recognised. -/
structure PossibilitySet where
  sequences : List (List String)
  cut : Bool := false
  capped : Bool := false
  path : Option Path := none

namespace PossibilitySet

/-- Whether a deferred subtree was left out, or the enumeration stopped early. -/
def truncated (S : PossibilitySet) : Bool :=
  S.cut || S.capped

/-- Shorter sequences come first, and those of one length in the order of their texts. -/
def precedes (s t : List String) : Bool :=
  s.length < t.length || (s.length == t.length && !decide (t < s))

def sorted (S : PossibilitySet) : List (List String) :=
  S.sequences.mergeSort precedes

def labels (S : PossibilitySet) : List String :=
  match S.path with
  | some p => p.labels
  | none => Path.distinct S.sequences.flatten

def sortedLabels (S : PossibilitySet) : List String :=
  S.labels.mergeSort fun a b => !decide (b < a)

def contains (S : PossibilitySet) (labels : List String) : Bool :=
  S.sequences.contains labels || S.path.any (·.accepts labels)

/-- The same sequences, both cut short or neither. The path takes no part. -/
def same (S T : PossibilitySet) : Bool :=
  S.truncated == T.truncated && S.sequences.all T.sequences.contains &&
    T.sequences.all S.sequences.contains

def ofSequences (sequences : List (List String)) (cut : Bool) (path : Option Path) :
    PossibilitySet :=
  { sequences := sequences.eraseDups, cut := cut, path := path }

end PossibilitySet

/-- The distinct sequences found so far, newest first, and whether one more was refused. -/
structure Collected where
  found : Std.HashSet (List String) := ∅
  order : List (List String) := []
  capped : Bool := false

def Collected.step (cap : Nat) (labels : List String) (c : Collected) : ForInStep Collected :=
  if c.found.contains labels then .yield c
  else if cap ≤ c.found.size then .done { c with capped := true }
  else .yield { c with found := c.found.insert labels, order := labels :: c.order }

inductive AnalysisWarning where
  | deferredCut (unroll : Int)
  | capped (maxSequences : Int)
  deriving DecidableEq

def AnalysisWarning.line : AnalysisWarning → String
  | .deferredCut unroll =>
    s!"possibility analysis truncated a deferred subtree after {unroll} unroll(s)"
  | .capped maxSequences => s!"possibility set capped at {maxSequences} sequences"

namespace Analysis

variable {P G σ : Type} [Primitives P]

def defaultMaxSequences : Int := 10000

/-- The distinct sequences of a path, as many as the cap allows. -/
def collect (cap : Nat) (p : Path) : Collected :=
  p.feed (Collected.step cap) {}

def possibilitiesOf (cap : Nat) (survey : Survey) : PossibilitySet :=
  let path := survey.path.numbered
  let c := collect cap path
  { sequences := c.order.reverse, cut := survey.cut, capped := c.capped, path := some path }

def warnings (S : PossibilitySet) (unroll maxSequences : Int) : List AnalysisWarning :=
  (if S.cut then [.deferredCut unroll] else []) ++
    if S.capped then [.capped maxSequences] else []

def survey (gen : G → Action σ (Tree P G)) (unroll : Int) (strict : Bool) (t : Tree P G) :
    Action σ Survey := do
  let n ← Action.ofExcept (Fault.Limit.pathUnroll.natural unroll)
  Survey.ofTree gen strict n t

def possibilities (gen : G → Action σ (Tree P G)) (t : Tree P G) (unroll : Int := 0)
    (strict : Bool := false) (maxSequences : Int := defaultMaxSequences) :
    Action σ PossibilitySet := do
  let cap ← Action.ofExcept (Fault.Limit.maxSequences.positive maxSequences)
  let s ← survey gen unroll strict t
  return possibilitiesOf cap s

/-- Labels performed on every run, by first occurrence. A cut subtree contributes nothing. -/
def necessary (gen : G → Action σ (Tree P G)) (t : Tree P G) (unroll : Int := 0) :
    Action σ (List String) := do
  let s ← survey gen unroll false t
  return s.path.necessary

def labelFolding (gen : G → Action σ (Tree P G)) :
    Folding σ P G (Deferral P G) (List String) where
  context := Context.everyLabel.inAction
  interpret e := do return [← Action.ofExcept e.label]
  gen := gen
  onUnbounded := some (pure [])
  suspend := id

/-- Every label that could be performed, by first occurrence. -/
def dependencies (gen : G → Action σ (Tree P G)) (t : Tree P G) (unroll : Int := 0) :
    Action σ (List String) := do
  let n ← Action.ofExcept (Fault.Limit.foldUnroll.natural unroll)
  let labels ← (labelFolding gen).foldUpTo n t
  return Path.distinct labels

end Analysis

end SelectiveEffects
