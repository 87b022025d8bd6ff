import SelectiveEffects.Path.Basic
import SelectiveEffects.Tree.Basic

/-! The labels of a path and the effects of a tree, listed on explicit stacks. -/

namespace SelectiveEffects

namespace Path

/-- The parts of a sequence, or the options of a choice. -/
def children : Path → List Path
  | seq _ ps | alt _ ps => ps
  | empty _ | step _ _ => []

mutual

def nodeCount : Path → Nat
  | empty _ | step _ _ => 1
  | seq _ ps | alt _ ps => nodeCountAll ps + 1

def nodeCountAll : List Path → Nat
  | [] => 0
  | p :: ps => p.nodeCount + nodeCountAll ps

end

theorem nodeCountAll_append (ps qs : List Path) :
    nodeCountAll (ps ++ qs) = nodeCountAll ps + nodeCountAll qs := by
  induction ps with
  | nil => simp [nodeCountAll]
  | cons p ps ih => simp only [List.cons_append, nodeCountAll, ih, Nat.add_assoc]

theorem nodeCountAll_children_lt (p : Path) : nodeCountAll p.children < p.nodeCount := by
  cases p <;> simp [children, nodeCountAll, nodeCount]

/-- Keeps the labels in the order in which they are first seen. -/
def seeing (seen : List String) (l : String) : List String :=
  if seen.contains l then seen else seen ++ [l]

def labelsFrom (seen : List String) : List Path → List String
  | [] => seen
  | step _ l :: stack => labelsFrom (seeing seen l) stack
  | p :: stack => labelsFrom seen (p.children ++ stack)
termination_by stack => nodeCountAll stack
decreasing_by
  · simp [nodeCountAll, nodeCount]
  · have := nodeCountAll_children_lt p
    simp only [nodeCountAll_append, nodeCountAll]
    omega

def labelsByStack (p : Path) : List String :=
  labelsFrom [] [p]

/-- A node to look into, or one whose children have left their labels on the stack of results. -/
inductive Job where
  | visit (p : Path)
  | join (p : Path)

namespace Job

def weight : Job → Nat
  | visit p => 2 * p.nodeCount
  | join _ => 1

def weightAll : List Job → Nat
  | [] => 0
  | job :: stack => job.weight + weightAll stack

theorem weightAll_visits (ps : List Path) (stack : List Job) :
    weightAll (ps.map visit ++ stack) = 2 * nodeCountAll ps + weightAll stack := by
  induction ps with
  | nil => simp [nodeCountAll]
  | cons p ps ih =>
    simp only [List.map_cons, List.cons_append, weightAll, ih, weight, nodeCountAll]
    omega

end Job

/-- What a node requires, from what its children require. -/
def joined (parts : List (List String)) : Path → List String
  | alt _ _ => common parts
  | _ => parts.flatten

/-- Both stacks have their top first. -/
def requiredFrom : List Job → List (List String) → List (List String)
  | [], results => results
  | .visit (.step _ l) :: stack, results => requiredFrom stack ([l] :: results)
  | .visit p :: stack, results =>
    if p.children.isEmpty then requiredFrom stack ([] :: results)
    else requiredFrom (p.children.map .visit ++ .join p :: stack) results
  | .join p :: stack, results =>
    let count := p.children.length
    requiredFrom stack (p.joined (results.take count).reverse :: results.drop count)
termination_by stack => Job.weightAll stack
decreasing_by
  · simp [Job.weightAll, Job.weight, nodeCount]
  · have := nodeCountAll_children_lt p
    simp only [Job.weightAll, Job.weight]
    omega
  · have := nodeCountAll_children_lt p
    simp only [Job.weightAll_visits, Job.weightAll, Job.weight]
    omega
  · simp [Job.weightAll, Job.weight]

def necessaryByStack (p : Path) : List String :=
  distinct ((requiredFrom [.visit p] []).headD [])

end Path

namespace Tree

variable {P G : Type}

def effectsFrom : List (Tree P G) → List (Effect P)
  | [] => []
  | lifted e _ :: stack => e :: effectsFrom stack
  | selection d h _ _ :: stack => effectsFrom (d :: h :: stack)
  | _ :: stack => effectsFrom stack
termination_by stack => sizeOf stack
decreasing_by
  · simp only [List.cons.sizeOf_spec]
    omega
  · rename_i k route
    have hroute : sizeOf route = 1 := by cases route <;> rfl
    simp only [List.cons.sizeOf_spec, selection.sizeOf_spec]
    omega
  · simp only [List.cons.sizeOf_spec]
    omega

def effectsByStack (t : Tree P G) : List (Effect P) :=
  effectsFrom [t]

end Tree

end SelectiveEffects
