import SelectiveEffects.Proofs.Actions
import SelectiveEffects.Proofs.Tree.WellMade

/-! Trees that differ at most in their routes are built, mapped and expanded alike. -/

namespace SelectiveEffects

namespace Tree

variable {P G σ : Type}

/-- The trees differ at most in their routes. Their generators are related in the same places. -/
inductive Rerouted (R : G → G → Prop) : Tree P G → Tree P G → Prop
  | pure (v : Val P) : Rerouted R (.pure v) (.pure v)
  | lifted (e : Effect P) (k : Post P) : Rerouted R (.lifted e k) (.lifted e k)
  | selection {d d' h h' : Tree P G} (k : Post P) (route route' : Route) :
      Rerouted R d d' → Rerouted R h h' →
      Rerouted R (.selection d h k route) (.selection d' h' k route')
  | deferred {g g' : G} (k : Post P) : R g g' → Rerouted R (.deferred g k) (.deferred g' k)
  | loop {action action' : Tree P G} (k : Post P) :
      Rerouted R action action' → Rerouted R (.loop action k) (.loop action' k)
  | foreign (typeName : String) : Rerouted R (.foreign typeName) (.foreign typeName)
  | unknown (typeName : String) : Rerouted R (.unknown typeName) (.unknown typeName)

namespace Rerouted

variable {R : G → G → Prop} {t t' x x' y y' l l' r r' c c' a a' : Tree P G}

theorem refl (hR : ∀ g, R g g) (t : Tree P G) : Rerouted R t t := by
  induction t with
  | pure v => exact .pure v
  | lifted e k => exact .lifted e k
  | selection d h k route ihd ihh => exact .selection k route route ihd ihh
  | deferred g k => exact .deferred k (hR g)
  | loop action k ih => exact .loop k ih
  | foreign typeName => exact .foreign typeName
  | unknown typeName => exact .unknown typeName

theorem imp {S : G → G → Prop} (h : Rerouted R t t') (hS : ∀ g g', R g g' → S g g') :
    Rerouted S t t' := by
  induction h with
  | selection k route route' _ _ ihd ihh => exact .selection k route route' ihd ihh
  | pure v => exact .pure v
  | lifted e k => exact .lifted e k
  | deferred k hg => exact .deferred k (hS _ _ hg)
  | loop k _ ih => exact .loop k ih
  | foreign typeName => exact .foreign typeName
  | unknown typeName => exact .unknown typeName

theorem withRoute_left (route : Route) (h : Rerouted R t t') : Rerouted R (t.withRoute route) t' := by
  cases h with
  | selection k _ route' hd hh => exact .selection k route route' hd hh
  | pure v => exact .pure v
  | lifted e k => exact .lifted e k
  | deferred k hg => exact .deferred k hg
  | loop k ha => exact .loop k ha
  | foreign typeName => exact .foreign typeName
  | unknown typeName => exact .unknown typeName

theorem symm (h : Rerouted R t t') : Rerouted (fun g g' => R g' g) t' t := by
  induction h with
  | selection k route route' _ _ ihd ihh => exact .selection k route' route ihd ihh
  | pure v => exact .pure v
  | lifted e k => exact .lifted e k
  | deferred k hg => exact .deferred k hg
  | loop k _ ih => exact .loop k ih
  | foreign typeName => exact .foreign typeName
  | unknown typeName => exact .unknown typeName

theorem withRoute_right (route : Route) (h : Rerouted R t t') : Rerouted R t (t'.withRoute route) :=
  (h.symm.withRoute_left route).symm

theorem isNode_eq (h : Rerouted R t t') : t.isNode = t'.isNode := by
  cases h <;> rfl

theorem isPure_eq (h : Rerouted R t t') : t.isPure = t'.isPure := by
  cases h <;> rfl

theorem typeName_eq (h : Rerouted R t t') : t.typeName = t'.typeName := by
  cases h <;> rfl

theorem effects_eq (h : Rerouted R t t') : t.effects = t'.effects := by
  induction h with
  | selection k route route' _ _ ihd ihh => rw [effects_selection, effects_selection, ihd, ihh]
  | _ => rfl

theorem collapses_eq (hx : Rerouted R x x') (hy : Rerouted R y y') :
    collapses x y = collapses x' y' := by
  cases hy with
  | pure g => cases hx <;> rfl
  | _ =>
    cases hx with
    | pure v => cases v <;> rfl
    | _ => rfl

theorem fmap (f : Fun P) (h : Rerouted R t t') : Alike (Rerouted R) (t.fmap f) (t'.fmap f) := by
  cases h with
  | pure v =>
    rw [Tree.fmap]
    cases f v with
    | ok u => exact .ok (.pure u)
    | error e => exact .error e
  | lifted e k => exact .ok (.lifted e _)
  | selection k route route' hd hh => exact .ok (.selection _ route route' hd hh)
  | deferred k hg => exact .ok (.deferred _ hg)
  | loop k ha => exact .ok (.loop _ ha)
  | foreign typeName => exact .error _
  | unknown typeName => exact .error _

variable [Primitives P]

theorem handle (hx : Rerouted R x x') (hy : Rerouted R y y') :
    Alike (Rerouted R) (x.handle y) (x'.handle y') := by
  cases hnodes : x.isNode && y.isNode with
  | false =>
    have hnodes' : (x'.isNode && y'.isNode) = false := by rwa [← hx.isNode_eq, ← hy.isNode_eq]
    rw [handle_of_not_isNode hnodes, handle_of_not_isNode hnodes', hx.typeName_eq, hy.typeName_eq]
    exact .error _
  | true =>
    obtain ⟨hxn, hyn⟩ := Bool.and_eq_true_iff.mp hnodes
    have hxn' : x'.isNode = true := hx.isNode_eq ▸ hxn
    have hyn' : y'.isNode = true := hy.isNode_eq ▸ hyn
    cases hcollapses : collapses x y with
    | false =>
      have hcollapses' : collapses x' y' = false := collapses_eq hx hy ▸ hcollapses
      rw [handle_eq_selection hxn hyn hcollapses, handle_eq_selection hxn' hyn' hcollapses']
      exact .ok (.selection none .optional .optional hx hy)
    | true =>
      obtain ⟨g, rfl⟩ | ⟨⟨a, rfl⟩, hpure⟩ := collapses_cases hcollapses
      · cases hy
        rw [handle_pure hxn, handle_pure hxn']
        exact hx.fmap _
      · cases hx
        rw [handle_left a hyn hpure, handle_left a hyn' (hy.isPure_eq ▸ hpure)]
        exact hy.fmap _

theorem select (hx : Rerouted R x x') (hl : Rerouted R l l') (hr : Rerouted R r r') :
    Alike (Rerouted R) (x.select l r) (x'.select l' r') := by
  refine (hx.fmap Fun.retag).bind fun tagged tagged' htagged => ?_
  refine (hl.fmap Fun.thenRight).bind fun viaLeft viaLeft' hviaLeft => ?_
  refine (handle htagged hviaLeft).bind fun inner inner' hinner => ?_
  refine (handle hinner hr).bind fun outer outer' houter => ?_
  rw [collapses_eq htagged hviaLeft, collapses_eq hinner hr]
  split
  · exact .ok houter
  · exact .ok ((houter.withRoute_left .exclusive).withRoute_right .exclusive)

theorem whenS (hc : Rerouted R c c') (ha : Rerouted R a a') :
    Alike (Rerouted R) (Context.free.whenS c a) (Context.free.whenS c' a') := by
  rw [whenS_eq_ifS, whenS_eq_ifS]
  refine (hc.fmap Fun.truthToTag).bind fun tags tags' htags => ?_
  refine (ha.fmap Fun.constantly).bind fun left left' hleft => ?_
  exact select htags hleft (.pure _)

end Rerouted

end Tree

namespace Source

variable {P G σ : Type} {R : G → G → Prop} {gen : G → Action σ (Tree P G)}

/-- Related generators, or loops whose actions differ at most in their routes. -/
inductive Rerouted (R : G → G → Prop) : Source P G → Source P G → Prop
  | host {g g' : G} : R g g' → Rerouted R (.host g) (.host g')
  | loop {action action' : Tree P G} :
      Tree.Rerouted R action action' → Rerouted R (.loop action) (.loop action')

end Source

/-- Related generators give trees that differ at most in their routes, and whose generators are
related again: so what they give does for ever. -/
def Tree.Reroutes {P G σ : Type} (gen : G → Action σ (Tree P G)) (R : G → G → Prop) : Prop :=
  ∀ g g', R g g' → Action.Relates (Tree.Rerouted R) (gen g) (gen g')

theorem Tree.reroutes_eq {P G σ : Type} (gen : G → Action σ (Tree P G)) :
    Tree.Reroutes gen (· = ·) := by
  rintro g _ rfl
  exact Action.relates_refl (Tree.Rerouted.refl fun _ => rfl) (gen g)

/-- A generator is related to itself as well. -/
theorem Tree.Reroutes.orEq {P G σ : Type} {gen : G → Action σ (Tree P G)} {R : G → G → Prop}
    (hgen : Tree.Reroutes gen R) : Tree.Reroutes gen fun g g' => g = g' ∨ R g g' := by
  rintro g _ (rfl | hg)
  · exact Action.relates_refl (Tree.Rerouted.refl fun _ => .inl rfl) (gen g)
  · exact (hgen g _ hg).imp fun t t' ht => ht.imp fun _ _ => .inr

namespace Source

variable {P G σ : Type} [Primitives P] {R : G → G → Prop} {gen : G → Action σ (Tree P G)}

theorem Rerouted.expand (hgen : Tree.Reroutes gen R) {source source' : Source P G}
    (h : Rerouted R source source') :
    Action.Relates (Tree.Rerouted R) (source.expand gen) (source'.expand gen) := by
  cases h with
  | @host g g' hg =>
    refine (hgen g g' hg).bind fun t t' ht => ?_
    rw [ht.isNode_eq, ht.typeName_eq]
    split
    · exact Action.relatesIn_pure ht
    · exact Action.relatesIn_throw _
  | loop haction =>
    exact Action.relatesIn_ofExcept (haction.whenS (.loop none haction))

end Source

end SelectiveEffects
