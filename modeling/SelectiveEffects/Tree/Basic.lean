import SelectiveEffects.Effect.Basic
import SelectiveEffects.Value.Fun

/-! Effect trees: inert descriptions of pipelines whose steps may be skipped. -/

namespace SelectiveEffects

/-- What analysis may assume about the handler of a selection: it runs on a left tag only, it
always runs, or it runs exactly when the handler of the disjunction was skipped. -/
inductive Route where
  | optional
  | always
  | exclusive
  deriving DecidableEq, Repr

/-- `G` names the host's generators of subtrees. A `loop` generates itself: it runs its action and
starts over while that yields truth. Something `foreign` stands where a tree is expected, and an
`unknown` node is a tree of none of these kinds; no more than their types is known. -/
inductive Tree (P G : Type) where
  | pure (v : Val P)
  | lifted (e : Effect P) (k : Post P)
  | selection (disjunction handler : Tree P G) (k : Post P) (route : Route)
  | deferred (g : G) (k : Post P)
  | loop (action : Tree P G) (k : Post P)
  | foreign (typeName : String)
  | unknown (typeName : String)

/-- What a deferred node generates its subtree from. -/
inductive Source (P G : Type) where
  | host (g : G)
  | loop (action : Tree P G)

namespace Tree

variable {P G : Type}

instance : Inhabited (Tree P G) := ⟨pure .null⟩

def isNode : Tree P G → Bool
  | foreign _ => false
  | _ => true

def isPure : Tree P G → Bool
  | pure _ => true
  | _ => false

def typeName : Tree P G → String
  | pure _ => "Pure"
  | lifted _ _ => "Lifted"
  | selection _ _ _ _ => "Select"
  | deferred _ _ | loop _ _ => "Deferred"
  | foreign typeName => typeName
  | unknown typeName => typeName

/-- Maps a function over the value of a tree without touching its effects. -/
def fmap (f : Fun P) : Tree P G → Except Fault (Tree P G)
  | pure v => (f v).map pure
  | lifted e k => .ok (lifted e (k.after f))
  | selection d h k route => .ok (selection d h (k.after f) route)
  | deferred g k => .ok (deferred g (k.after f))
  | loop action k => .ok (loop action (k.after f))
  | foreign typeName => .error (.notMappable typeName)
  | unknown typeName => .error (.notMappable typeName)

def lift (e : Effect P) : Tree P G :=
  lifted e none

def withRoute (route : Route) : Tree P G → Tree P G
  | selection d h k _ => selection d h k route
  | t => t

/-- Whether a selection with these operands is settled when it is built. -/
def collapses : Tree P G → Tree P G → Bool
  | _, pure _ => true
  | pure (.left _), _ => true
  | _, _ => false

/-- The effects present in a tree, in order. Deferred subtrees are not expanded. -/
def effects : Tree P G → List (Effect P)
  | lifted e _ => [e]
  | selection d h _ _ => d.effects ++ h.effects
  | _ => []

@[simp] theorem effects_pure (v : Val P) : (pure v : Tree P G).effects = [] := rfl

@[simp] theorem effects_lifted (e : Effect P) (k : Post P) :
    (lifted e k : Tree P G).effects = [e] := rfl

@[simp] theorem effects_selection (d h : Tree P G) (k : Post P) (route : Route) :
    (selection d h k route).effects = d.effects ++ h.effects := rfl

@[simp] theorem effects_withRoute (route : Route) (t : Tree P G) :
    (t.withRoute route).effects = t.effects := by
  cases t <;> rfl

/-- How many nodes a tree has. Deferred subtrees are not expanded, and something foreign is not a
node. -/
def nodeCount : Tree P G → Nat
  | selection d h _ _ => d.nodeCount + h.nodeCount + 1
  | foreign _ => 0
  | _ => 1

variable [Primitives P]

/-- Applies the handler to the payload of a left tag. A known function or a known left tag needs no
selection. -/
def handle (x y : Tree P G) : Except Fault (Tree P G) :=
  if x.isNode && y.isNode then
    match x, y with
    | x, pure g => x.fmap (Val.either g .identity).call
    | pure (.left a), y => y.fmap (Val.applyTo a).call
    | x, y => .ok (selection x y none .optional)
  else .error (.notHandleable x.typeName y.typeName)

/-- Handling maps a known function or tag, or else selects. -/
theorem handle_cases {x y t : Tree P G} (h : x.handle y = .ok t) :
    (∃ g, y = pure g ∧ x.fmap (Val.either g .identity).call = .ok t) ∨
    (∃ a, x = pure (.left a) ∧ y.fmap (Val.applyTo a).call = .ok t) ∨
    (collapses x y = false ∧ t = selection x y none .optional) := by
  unfold handle at h
  split at h
  · split at h
    · exact .inl ⟨_, rfl, h⟩
    · exact .inr (.inl ⟨_, rfl, h⟩)
    · rename_i hx hy
      cases h
      refine .inr (.inr ⟨?_, rfl⟩)
      unfold collapses
      split
      · exact absurd rfl (hy _)
      · exact absurd rfl (hx _)
      · rfl
  · cases h

/-- Runs the left handler on a left tag and the right handler on a right tag, never both. -/
def select (x left right : Tree P G) : Except Fault (Tree P G) := do
  let tagged ← x.fmap Fun.retag
  let viaLeft ← left.fmap Fun.thenRight
  let inner ← handle tagged viaLeft
  let outer ← handle inner right
  if collapses tagged viaLeft || collapses inner right then return outer
  return outer.withRoute .exclusive

/-- Selection is two handlings. Their node is marked unless one of them was settled. -/
theorem select_cases {x left right t : Tree P G} (h : x.select left right = .ok t) :
    ∃ tagged viaLeft inner outer, x.fmap Fun.retag = .ok tagged ∧
      left.fmap Fun.thenRight = .ok viaLeft ∧ tagged.handle viaLeft = .ok inner ∧
      inner.handle right = .ok outer ∧
      t = if collapses tagged viaLeft || collapses inner right then outer
        else outer.withRoute .exclusive := by
  obtain ⟨tagged, htagged, h⟩ := exists_of_bind_eq_ok h
  obtain ⟨viaLeft, hviaLeft, h⟩ := exists_of_bind_eq_ok h
  obtain ⟨inner, hinner, h⟩ := exists_of_bind_eq_ok h
  obtain ⟨outer, houter, h⟩ := exists_of_bind_eq_ok h
  refine ⟨tagged, viaLeft, inner, outer, htagged, hviaLeft, hinner, houter, ?_⟩
  split at h <;> rename_i hc <;> cases h
  · rw [if_pos hc]
  · rw [if_neg hc]

/-- Applies without selection: both operands always run, the function first. -/
def ap (f x : Tree P G) : Except Fault (Tree P G) := do
  let disjunction ← f.fmap Val.toLeft.call
  let handler ← x.fmap Fun.applying
  let tree ← handle disjunction handler
  if collapses disjunction handler then return tree
  return tree.withRoute .always

/-- An application is the handling of a left tag. Its node is marked unless an operand was known. -/
theorem ap_cases {f x t : Tree P G} (h : f.ap x = .ok t) :
    ∃ disjunction handler tree, f.fmap Val.toLeft.call = .ok disjunction ∧
      x.fmap Fun.applying = .ok handler ∧ disjunction.handle handler = .ok tree ∧
      t = if collapses disjunction handler then tree else tree.withRoute .always := by
  obtain ⟨disjunction, hdisjunction, h⟩ := exists_of_bind_eq_ok h
  obtain ⟨handler, hhandler, h⟩ := exists_of_bind_eq_ok h
  obtain ⟨tree, htree, h⟩ := exists_of_bind_eq_ok h
  refine ⟨disjunction, handler, tree, hdisjunction, hhandler, htree, ?_⟩
  split at h <;> rename_i hc <;> cases h
  · rw [if_pos hc]
  · rw [if_neg hc]

end Tree

end SelectiveEffects
