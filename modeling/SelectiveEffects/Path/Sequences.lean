import Std.Data.HashSet
import SelectiveEffects.Path.Basic

/-! Walking a path: matching one sequence of labels, and enumerating all of them. -/

namespace SelectiveEffects.Path

mutual

/-- How many stops a walk makes on a path whose continuation takes `w` of them. -/
def cost : Path → Nat → Nat
  | empty _, w => w + 1
  | step _ _, w => w + 1
  | seq _ ps, w => costAll ps w + 1
  | alt _ ps, w => costAny ps w + 1

def costAll : List Path → Nat → Nat
  | [], w => w
  | p :: ps, w => cost p (costAll ps w)

def costAny : List Path → Nat → Nat
  | [], _ => 0
  | p :: ps, w => cost p w + costAny ps w

end

/-- Paths still to be walked, in order. -/
abbrev Pending := List Path

def Pending.cost (ps : Pending) : Nat :=
  costAll ps 1

def expansions (rest : Pending) : Path → List Pending
  | empty _ | step _ _ => [rest]
  | seq _ ps => [ps ++ rest]
  | alt _ ps => ps.map (· :: rest)

theorem lt_cost (p : Path) (w : Nat) : 0 < cost p w := by
  cases p <;> simp [cost]

theorem costAll_append (ps qs : List Path) (w : Nat) :
    costAll (ps ++ qs) w = costAll ps (costAll qs w) := by
  induction ps with
  | nil => simp [costAll]
  | cons p ps ih => simp [costAll, ih]

theorem Pending.cost_pos (ps : Pending) : 0 < ps.cost := by
  cases ps with
  | nil => simp [Pending.cost, costAll]
  | cons p ps => exact lt_cost p _

/-- Where a walk stands: how far the labels have come, the node at hand and what follows it. -/
abbrev Place (α : Type) := α × Nat × List Nat

/-- What follows is told apart by its tags and not by the cells that it is chained of, so that two
chains of the same nodes are one place. A walk leaves out more that way, but only branches that go on
as one walked before: the same sequences come up, first in the same order. -/
def place {α : Type} (reached : α) (node : Path) (rest : Pending) : Place α :=
  (reached, node.tag, rest.map tag)

/-- A partial sequence and what is still to be walked. -/
abbrev Branch (α : Type) := α × Pending

def branchCost {α : Type} : List (Branch α) → Nat
  | [] => 0
  | b :: stack => b.2.cost + branchCost stack

theorem branchCost_append {α : Type} (xs ys : List (Branch α)) :
    branchCost (xs ++ ys) = branchCost xs + branchCost ys := by
  induction xs with
  | nil => simp [branchCost]
  | cons b xs ih => simp [branchCost, ih, Nat.add_assoc]

theorem branchCost_options {α : Type} (y : α) (ps : List Path) (rest : Pending) :
    branchCost ((ps.map (· :: rest)).map (y, ·)) = costAny ps rest.cost := by
  induction ps with
  | nil => rfl
  | cons p ps ih =>
    simp only [List.map_cons, branchCost, ih, costAny, Pending.cost, costAll]

/-- Expanding a node leaves less to walk than the node itself. -/
theorem branchCost_expansions_lt_cost {α : Type} (y : α) (p : Path) (rest : Pending) :
    branchCost ((expansions rest p).map (y, ·)) < Pending.cost (p :: rest) := by
  cases p with
  | alt tag ps =>
    rw [expansions, branchCost_options]
    simp only [Pending.cost, costAll, cost]
    omega
  | _ => simp [expansions, branchCost, Pending.cost, costAll, cost, costAll_append]

theorem branchCost_expansions_lt {α : Type} (x y : α) (p : Path) (rest : Pending)
    (stack : List (Branch α)) :
    branchCost ((expansions rest p).map (y, ·) ++ stack) < branchCost ((x, p :: rest) :: stack) := by
  have h := branchCost_expansions_lt_cost y p rest
  rw [branchCost_append]
  exact Nat.add_lt_add_right h _

theorem branchCost_tail_lt {α : Type} (b : Branch α) (stack : List (Branch α)) :
    branchCost stack < branchCost (b :: stack) := by
  have h := b.2.cost_pos
  rw [branchCost]
  omega

/-- The labels that a step adds to a partial sequence. -/
def extend (taken : List String) : Path → List String
  | step _ l => taken ++ [l]
  | _ => taken

/-- Feeds the sequences of the branches to `f`, depth first, until it is done. A place is walked
through once, so a sequence may still come up more than once. -/
def feedFrom {β : Type} (f : List String → β → ForInStep β) (stack : List (Branch (List String)))
    (seen : Std.HashSet (Place (List String))) (b : β) : β :=
  match stack with
  | [] => b
  | (labels, []) :: stack =>
    match f labels b with
    | .done b => b
    | .yield b => feedFrom f stack seen b
  | (labels, node :: rest) :: stack =>
    let here := place labels node rest
    if seen.contains here then feedFrom f stack seen b
    else
      feedFrom f ((expansions rest node).map (extend labels node, ·) ++ stack)
        (seen.insert here) b
termination_by branchCost stack
decreasing_by
  · exact branchCost_tail_lt _ _
  · exact branchCost_tail_lt _ _
  · exact branchCost_expansions_lt _ _ _ _ _

def feed {β : Type} (f : List String → β → ForInStep β) (p : Path) (b : β) : β :=
  feedFrom f [([], [p])] ∅ b

/-- The sequences of a path in the order of the walk. -/
def sequences (p : Path) : List (List String) :=
  (p.feed (fun labels found => .yield (labels :: found)) []).reverse

def takeStep (limit : Nat) (labels : List String) (found : Nat × List (List String)) :
    ForInStep (Nat × List (List String)) :=
  if found.1 < limit then .yield (found.1 + 1, labels :: found.2) else .done found

/-- The first sequences of the walk. -/
def firstSequences (limit : Nat) (p : Path) : List (List String) :=
  (p.feed (takeStep limit) (0, [])).2.reverse

/-- The labels left after a node, when the next one is the node's. -/
def consume? (labels : List String) : Path → Option (List String)
  | step _ l =>
    match labels with
    | l' :: rest => if l' = l then some rest else none
    | [] => none
  | _ => some labels

/-- Whether some branch describes exactly the labels left to it. -/
def matchesFrom (stack : List (Branch (List String)))
    (seen : Std.HashSet (Place Nat)) : Bool :=
  match stack with
  | [] => false
  | (labels, []) :: stack => labels.isEmpty || matchesFrom stack seen
  | (labels, node :: rest) :: stack =>
    let here := place labels.length node rest
    if seen.contains here then matchesFrom stack seen
    else
      match consume? labels node with
      | none => matchesFrom stack (seen.insert here)
      | some left =>
        matchesFrom ((expansions rest node).map (left, ·) ++ stack) (seen.insert here)
termination_by branchCost stack
decreasing_by
  · exact branchCost_tail_lt _ _
  · exact branchCost_tail_lt _ _
  · exact branchCost_tail_lt _ _
  · exact branchCost_expansions_lt _ _ _ _ _

/-- Whether the labels are one of the sequences of a path. -/
def accepts (p : Path) (labels : List String) : Bool :=
  matchesFrom [(labels, [p])] ∅

end SelectiveEffects.Path
