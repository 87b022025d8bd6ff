import SelectiveEffects.Context.Free
import SelectiveEffects.Path.Language

/-! The sequences of labels that a tree may perform, read off its nodes and their routes. -/

namespace SelectiveEffects.Tree

variable {P G σ : Type}

/-- The label of an effect is the sequence that it performs, when it can be read. -/
def labelLanguage (e : Effect P) : Language :=
  fun s => ∃ label, e.label = .ok label ∧ s = [label]

theorem labelLanguage_eq {e : Effect P} {label : String} (h : e.label = .ok label) :
    labelLanguage e = .single label := by
  funext s
  simp [labelLanguage, Language.single, h]

def languageWith (deferral : Source P G → Language) : Tree P G → Language
  | pure _ => .nothing
  | lifted e _ => labelLanguage e
  | selection (selection t l _ _) r _ .exclusive =>
    (languageWith deferral t).followedBy ((languageWith deferral l).or (languageWith deferral r))
  | selection d h _ .always => (languageWith deferral d).followedBy (languageWith deferral h)
  | selection d h _ _ => (languageWith deferral d).followedBy (languageWith deferral h).maybe
  | deferred g _ => deferral (.host g)
  | loop action _ => deferral (.loop action)
  | foreign _ | unknown _ => fun _ => False

/-- Some deferred node of a tree, outside of what deferred nodes generate, has a property. -/
def Defers (p : Source P G → Prop) : Tree P G → Prop
  | selection d h _ _ => d.Defers p ∨ h.Defers p
  | deferred g _ => p (.host g)
  | loop action _ => p (.loop action)
  | pure _ | lifted _ _ | foreign _ | unknown _ => False

/-- No node is deferred. -/
def LoopFree (t : Tree P G) : Prop :=
  ¬ t.Defers fun _ => True

theorem loopFree_selection {d h : Tree P G} {k : Post P} {route : Route} :
    (selection d h k route).LoopFree ↔ d.LoopFree ∧ h.LoopFree :=
  not_or

variable [Primitives P]

/-- Expands deferred nodes at most so many times inside one another, and leaves out the others. -/
def language (gen : G → Action σ (Tree P G)) : Nat → Tree P G → Language
  | 0, t => languageWith (fun _ => .nothing) t
  | n + 1, t =>
    languageWith (fun source s => ∃ w inner w', source.expand gen w = .ok inner w' ∧
      language gen n inner s) t

/-- Some deferred node is left out when nodes are expanded at most so many times inside one
another. -/
def Exceeds (gen : G → Action σ (Tree P G)) : Nat → Tree P G → Prop
  | 0, t => t.Defers fun _ => True
  | n + 1, t =>
    t.Defers fun source => ∃ w inner w', source.expand gen w = .ok inner w' ∧ Exceeds gen n inner

end SelectiveEffects.Tree
