/-! Path expressions: the shape of every sequence of labels that a tree can take. -/

namespace SelectiveEffects

/-- Two occurrences with one tag are the same node. The shared empty path has tag zero. -/
inductive Path where
  | empty (tag : Nat)
  | step (tag : Nat) (label : String)
  | seq (tag : Nat) (parts : List Path)
  | alt (tag : Nat) (options : List Path)

namespace Path

instance : Inhabited Path := ⟨empty 0⟩

def nothing : Path := empty 0

def isNothing : Path → Bool
  | empty tag => tag == 0
  | _ => false

def tag : Path → Nat
  | empty tag | step tag _ | seq tag _ | alt tag _ => tag

/-- A sequence inside a sequence is spliced, and the shared empty path is dropped. -/
def flattened : Path → List Path
  | seq _ parts => parts
  | p => if p.isNothing then [] else [p]

/-- The parts in order. A new node takes the given tag. -/
def seqOf (tag : Nat) (parts : List Path) : Path :=
  match parts.flatMap flattened with
  | [] => nothing
  | [p] => p
  | ps => seq tag ps

/-- Keeps the first of several shared empty paths. -/
def withoutRepeats : Bool → List Path → List Path
  | _, [] => []
  | seen, p :: ps =>
    if p.isNothing then
      if seen then withoutRepeats true ps else p :: withoutRepeats true ps
    else p :: withoutRepeats seen ps

/-- Exactly one of the options. A new node takes the given tag. -/
def altOf (tag : Nat) (options : List Path) : Path :=
  match withoutRepeats false options with
  | [p] => p
  | ps => alt tag ps

/-- The first occurrence of each label. -/
def distinct : List String → List String
  | [] => []
  | l :: ls => l :: (distinct ls).filter (· != l)

mutual

def leaves : Path → List String
  | empty _ => []
  | step _ l => [l]
  | seq _ ps => leavesAll ps
  | alt _ ps => leavesAll ps

def leavesAll : List Path → List String
  | [] => []
  | p :: ps => p.leaves ++ leavesAll ps

end

/-- Every label of a path, by first occurrence. -/
def labels (p : Path) : List String :=
  distinct p.leaves

/-- The labels of the first list that all the others hold. -/
def common : List (List String) → List String
  | [] => []
  | first :: rest => first.filter fun l => rest.all fun ls => ls.contains l

mutual

def required : Path → List String
  | empty _ => []
  | step _ l => [l]
  | seq _ ps => (requiredAll ps).flatten
  | alt _ ps => common (requiredAll ps)

def requiredAll : List Path → List (List String)
  | [] => []
  | p :: ps => p.required :: requiredAll ps

end

/-- The labels on every sequence of a path, by first occurrence. -/
def necessary (p : Path) : List String :=
  distinct p.required

mutual

/-- Tags every node but the empty ones afresh, counting up. -/
def number (next : Nat) : Path → Path × Nat
  | empty tag => (empty tag, next)
  | step _ l => (step next l, next + 1)
  | seq _ ps =>
    let (ps, next') := numberAll (next + 1) ps
    (seq next ps, next')
  | alt _ ps =>
    let (ps, next') := numberAll (next + 1) ps
    (alt next ps, next')

def numberAll (next : Nat) : List Path → List Path × Nat
  | [] => ([], next)
  | p :: ps =>
    let (p, next) := p.number next
    let (ps, next) := numberAll next ps
    (p :: ps, next)

end

def numbered (p : Path) : Path :=
  (p.number 1).1

end Path

end SelectiveEffects
