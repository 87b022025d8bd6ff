import SelectiveEffects.Proofs.Actions
import SelectiveEffects.Proofs.Fold.Worklist
import SelectiveEffects.Proofs.Path.Stacks
import SelectiveEffects.Proofs.Run.Ending
import SelectiveEffects.Proofs.Tree.Equations
import SelectiveEffects.Scenario.Builtin

/-! Folding a tree into the tree context, deferred nodes left to it, gives a tree that runs as the first
one does, although each deferred node has become one that folds again whenever it is forced. -/

namespace SelectiveEffects

open Machine Scenario

namespace Journal

variable {P G G' σ : Type}

/-- The same world, after the same labels. What was forced to get there may differ. -/
structure Agrees (j' : Journal P G' σ) (j : Journal P G σ) : Prop where
  world : j'.world = j.world
  labels : j'.labels = j.labels
  legible : j'.legible = j.legible

theorem Agrees.extend {j' : Journal P G' σ} {j : Journal P G σ} (h : j'.Agrees j)
    {events' : List (Event P G')} {events : List (Event P G)} (w : σ)
    (hlabels : events'.filterMap Event.label? = events.filterMap Event.label?)
    (hread : events'.all Event.isRead = events.all Event.isRead) :
    (j'.extend events' w).Agrees (j.extend events w) where
  world := rfl
  labels := by rw [labels_extend, labels_extend, h.labels, hlabels]
  legible := by rw [legible_extend, legible_extend, h.legible, hread]

theorem Agrees.trace_eq {j' : Journal P G' σ} {j : Journal P G σ} (h : j'.Agrees j)
    (bound : Option Nat) : j'.trace bound = j.trace bound := by
  rw [trace, trace, h.labels]

theorem Agrees.cutBy_eq {j' : Journal P G' σ} {j : Journal P G σ} (h : j'.Agrees j) (e : Fault) :
    j'.cutBy e = j.cutBy e := by
  rw [cutBy, cutBy, h.legible]

end Journal

/-- The evaluations come to the same over journals that agree, and leave such. -/
def Echoes {P G G' σ α : Type} (x' : Evaluation (Journal P G' σ) α)
    (x : Evaluation (Journal P G σ) α) : Prop :=
  Action.RelatesIn Journal.Agrees (· = ·) x' x

namespace Echoes

variable {P G G' σ α β : Type}

theorem ofExcept (r : Except Fault α) :
    Echoes (Evaluation.ofExcept r : Evaluation (Journal P G' σ) α)
      (Evaluation.ofExcept r : Evaluation (Journal P G σ) α) := by
  cases r with
  | ok a => exact Action.relatesIn_pure rfl
  | error e => exact Action.relatesIn_throw e

theorem noting {events' : List (Event P G')} {events : List (Event P G)}
    (hlabels : events'.filterMap Event.label? = events.filterMap Event.label?)
    (hread : events'.all Event.isRead = events.all Event.isRead) (a : Action σ α) :
    Echoes (OptionT.lift (Journal.noting events' a) : Evaluation (Journal P G' σ) α)
      (OptionT.lift (Journal.noting events a) : Evaluation (Journal P G σ) α) := by
  intro j' j h
  rw [Evaluation.lift_apply, Evaluation.lift_apply, Journal.noting, Journal.noting, h.world]
  cases a j.world with
  | ok v w => exact .ok rfl (h.extend w hlabels hread)
  | error e w => exact .error e (h.extend w hlabels hread)

theorem bind {x' : Evaluation (Journal P G' σ) α} {x : Evaluation (Journal P G σ) α}
    {f' : α → Evaluation (Journal P G' σ) β} {f : α → Evaluation (Journal P G σ) β}
    (hx : Echoes x' x) (hf : ∀ a, Echoes (f' a) (f a)) : Echoes (x' >>= f') (x >>= f) := by
  refine Action.RelatesIn.bind hx fun a _ h => ?_
  subst h
  cases a with
  | none => exact Action.relatesIn_pure rfl
  | some a => exact hf a

/-- Runs whose last moves stand for such evaluations end in the same way. -/
theorem ending {x' : Evaluation (Journal P G' σ) (Val P)} {x : Evaluation (Journal P G σ) (Val P)}
    (hx : Echoes x' x) {j' : Journal P G' σ} {j : Journal P G σ} (hj : j'.Agrees j)
    (bound : Option Nat) :
    (Move.ofEvaluation (x' j')).bind (Move.ending bound) =
      (Move.ofEvaluation (x j)).bind (Move.ending bound) := by
  have h := hx j' j hj
  generalize x' j' = r' at h ⊢
  generalize x j = r at h ⊢
  cases h with
  | @ok a _ _ _ ha h =>
    subst ha
    cases a with
    | none => rfl
    | some v => simp [Move.ofEvaluation, Move.ending, h.world, h.trace_eq bound]
  | @error e j' j h =>
    simp only [Move.ofEvaluation, Option.bind_some, h.cutBy_eq e]
    cases j.cutBy e <;> simp [Move.ending, h.world, h.trace_eq bound]

end Echoes

namespace Tree

variable {P G σ : Type}

/-- What a tree folds to in the tree context: the functions of nodes are composed anew, no route is
kept, and deferred nodes generate from what they were. -/
def refold : Tree P G → Tree P (Deferral P G)
  | pure v => pure v
  | lifted e k => lifted e (Post.after k.apply none)
  | selection d h k _ => selection d.refold h.refold (Post.after k.apply none) .optional
  | deferred g k => deferred ⟨.host g, k⟩ none
  | loop action k => deferred ⟨.loop action, k⟩ none
  | foreign typeName => foreign typeName
  | unknown typeName => unknown typeName

theorem effects_refold (t : Tree P G) : t.refold.effects = t.effects := by
  induction t with
  | selection d h k route ihd ihh => rw [refold, effects_selection, effects_selection, ihd, ihh]
  | _ => rfl

theorem collapses_refold (d h : Tree P G) : collapses d.refold h.refold = collapses d h := by
  cases h with
  | pure g => cases d <;> rfl
  | _ =>
    cases d with
    | pure v => cases v <;> rfl
    | _ => rfl

variable [Primitives P]

/-- No selection in the tree could have been settled when it was built, and nothing is foreign. -/
def Normal : Tree P G → Prop
  | selection d h _ _ => collapses d h = false ∧ d.Normal ∧ h.Normal
  | loop action _ => action.Built
  | foreign _ | unknown _ => False
  | pure _ | lifted _ _ | deferred _ _ => True

theorem normal_fmap {f : Fun P} {x t : Tree P G} (hx : x.Normal) (h : x.fmap f = .ok t) :
    t.Normal := by
  cases x with
  | pure v =>
    obtain ⟨u, -, rfl⟩ := exists_of_map_eq_ok h
    trivial
  | foreign typeName => cases h
  | unknown typeName => cases h
  | _ =>
    cases h
    exact hx

theorem normal_handle {x y t : Tree P G} (hx : x.Normal) (hy : y.Normal) (h : x.handle y = .ok t) :
    t.Normal := by
  obtain ⟨g, rfl, hmap⟩ | ⟨a, rfl, hmap⟩ | ⟨hcollapses, rfl⟩ := handle_cases h
  · exact normal_fmap hx hmap
  · exact normal_fmap hy hmap
  · exact ⟨hcollapses, hx, hy⟩

theorem normal_withRoute (route : Route) {t : Tree P G} (ht : t.Normal) :
    (t.withRoute route).Normal := by
  cases t <;> exact ht

theorem Built.normal {t : Tree P G} (h : t.Built) : t.Normal := by
  induction h with
  | pure v => trivial
  | lift e => trivial
  | defer g => trivial
  | whileS haction _ => exact haction
  | fmap _ h ih => exact normal_fmap ih h
  | handle _ _ h ihx ihy => exact normal_handle ihx ihy h
  | select _ _ _ h ihx ihl ihr =>
    obtain ⟨tagged, viaLeft, inner, outer, htagged, hviaLeft, hinner, houter, rfl⟩ := select_cases h
    have hnormal := normal_handle
      (normal_handle (normal_fmap ihx htagged) (normal_fmap ihl hviaLeft) hinner) ihr houter
    split
    · exact hnormal
    · exact normal_withRoute .exclusive hnormal
  | ap _ _ h ihf ihx =>
    obtain ⟨d, y, tree, hd, hy, htree, rfl⟩ := ap_cases h
    have hnormal := normal_handle (normal_fmap ihf hd) (normal_fmap ihx hy) htree
    split
    · exact hnormal
    · exact normal_withRoute .always hnormal

theorem Normal.refold_known {t : Tree P G} (h : t.Normal) : t.refold.Known := by
  cases t with
  | foreign typeName => exact h.elim
  | unknown typeName => exact h.elim
  | _ => trivial

end Tree

namespace Folding

variable {P G σ : Type} [Primitives P]

/-- Folding into the tree context, effects lifted as they are. -/
def intoTrees (gen : G → Action σ (Tree P G)) :
    Folding σ P G (Deferral P G) (Tree P (Deferral P G)) :=
  into .free (fun e => return .lift e) gen id

theorem foldLazily_intoTrees {gen : G → Action σ (Tree P G)} {t : Tree P G} (ht : t.Normal) :
    (intoTrees gen).foldLazily t = pure t.refold := by
  unfold foldLazily
  induction t with
  | selection d h k route ihd ihh =>
    obtain ⟨hcollapses, hd, hh⟩ := ht
    have hhandle := Tree.handle_eq_selection hd.refold_known.isNode hh.refold_known.isNode
      ((Tree.collapses_refold d h).trans hcollapses)
    rw [foldWith, ihd hd, ihh hh, pure_bind, pure_bind]
    change Action.ofExcept (d.refold.handle h.refold) >>= _ = _
    rw [hhandle]
    rfl
  | foreign typeName => exact ht.elim
  | unknown typeName => exact ht.elim
  | _ => rfl

/-- What a deferred node gives when it is forced after the fold: what it gave before, folded and
mapped. -/
theorem unfold_intoTrees {gen : G → Action σ (Tree P G)} (d : Deferral P G) {w w' : σ}
    {t : Tree P G} (h : d.source.expand gen w = .ok t w') (ht : t.Normal) :
    (intoTrees gen).unfold d w = Action.ofExcept (t.refold.fmap d.k.apply) w' := by
  have hgen : (intoTrees gen).gen = gen := rfl
  rw [unfold, hgen, Action.bind_apply, h]
  simp only [foldLazily_intoTrees ht, pure_bind]
  rfl

end Folding

namespace Source

variable {P G σ : Type} [Primitives P] {gen : G → Action σ (Tree P G)}

/-- A forced node gives built trees when generators give built trees or nothing of the kind. -/
theorem built_of_expand (hgen : ∀ g w t w', gen g w = .ok t w' → t.Built ∨ t.isNode = false)
    {source : Source P G} {k : Post P} (hs : (Tree.ofSource source k).Normal) {w w' : σ}
    {t : Tree P G} (h : source.expand gen w = .ok t w') : t.Built := by
  cases source with
  | host g =>
    obtain ⟨ht, hnode⟩ := expand_host_eq_ok_iff.mp h
    exact (hgen g w t w' ht).resolve_right (by simp [hnode])
  | loop action =>
    obtain ⟨hwhen, -⟩ := expand_loop_eq_ok_iff.mp h
    have haction : action.Built := hs
    exact Tree.built_whenS haction haction.whileS hwhen

theorem expand_refolded {d : Deferral P G} {w w' : σ} {t : Tree P G}
    (h : d.source.expand gen w = .ok t w') (ht : t.Normal) :
    (Source.host d).expand (Folding.intoTrees gen).unfold w =
      Action.ofExcept (t.refold.fmap d.k.apply) w' := by
  rw [expand, Action.bind_apply, Folding.unfold_intoTrees d h ht]
  cases hmap : t.refold.fmap d.k.apply with
  | error e => rfl
  | ok u =>
    simp only [Action.ofExcept_ok, Action.pure_apply, (Tree.known_of_fmap hmap).isNode, if_true]

theorem expand_refolded_error {d : Deferral P G} {w w' : σ} {e : Fault}
    (h : d.source.expand gen w = .error e w') :
    (Source.host d).expand (Folding.intoTrees gen).unfold w = .error e w' := by
  have hgen : (Folding.intoTrees gen).gen = gen := rfl
  rw [expand, Action.bind_apply, Folding.unfold, hgen, Action.bind_apply, h]

end Source

namespace Interpreter

variable {P G σ : Type} [Primitives P] {I : Interpreter P σ} {gen : G → Action σ (Tree P G)}
variable {mode : Mode}

omit [Primitives P] in
theorem labels_calls (I : Interpreter P σ) (e : Effect P) (G' : Type) :
    (I.calls (G := G') e).filterMap Event.label? = (I.calls (G := G) e).filterMap Event.label? := by
  unfold calls
  cases e.label with
  | error f => rfl
  | ok label => cases I.resolve e <;> rfl

omit [Primitives P] in
theorem isRead_all_calls (I : Interpreter P σ) (e : Effect P) (G' : Type) :
    (I.calls (G := G') e).all Event.isRead = (I.calls (G := G) e).all Event.isRead := by
  unfold calls
  cases e.label with
  | error f => rfl
  | ok label => cases I.resolve e <;> rfl

/-- Mapping a tree before it is evaluated, where that fails at once, or mapping its value. -/
theorem evaluate_ofExcept_fmap (n : Nat) {f : Fun P} {t : Tree P G} (ht : t.Known) :
    (Evaluation.ofExcept (t.fmap f) >>= I.evaluate gen mode n) =
      I.evaluate gen mode n t >>= fun v => Evaluation.ofExcept (f v) := by
  cases hmap : t.fmap f with
  | ok u =>
    rw [Evaluation.ofExcept_ok, pure_bind, evaluate, Tree.evaluate_eq]
    exact Tree.evaluateWith_fmap hmap
  | error e =>
    obtain ⟨v, rfl, hv⟩ := (Tree.fmap_eq_error_iff ht).mp hmap
    rw [evaluate, Tree.evaluate_eq, Tree.evaluateWith, pure_bind, hv]
    rfl

/-- A tree and what it folds to are evaluated alike when their deferred nodes are. -/
theorem echoes_evaluateWith
    {deferral' : Source P (Deferral P G) → Evaluation (Journal P (Deferral P G) σ) (Val P)}
    {deferral : Source P G → Evaluation (Journal P G σ) (Val P)}
    (hs : ∀ source k, (Tree.ofSource source k).Normal → Echoes (deferral' (.host ⟨source, k⟩))
      (deferral source >>= fun v => Evaluation.ofExcept (k.apply v)))
    {t : Tree P G} (ht : t.Normal) :
    Echoes
      (Tree.evaluateWith (fun e => Journal.noting (I.calls e) (I.answer mode e)) deferral' t.refold)
      (Tree.evaluateWith (fun e => Journal.noting (I.calls e) (I.answer mode e)) deferral t) := by
  have hafter (k : Post P) : (Post.after k.apply none).apply = k.apply := rfl
  have hdeferred (g : Deferral P G) : (deferral' (.host g) >>= fun v => Evaluation.ofExcept
      (Post.apply none v)) = deferral' (.host g) := bind_pure _
  induction t with
  | pure v => exact Action.relatesIn_pure rfl
  | lifted e k =>
    rw [Tree.refold, Tree.evaluateWith, Tree.evaluateWith, hafter]
    exact (Echoes.noting (labels_calls I e _) (isRead_all_calls I e _) _).bind
      fun v => Echoes.ofExcept (k.apply v)
  | selection d h k route ihd ihh =>
    obtain ⟨-, hd, hh⟩ := ht
    rw [Tree.refold, Tree.evaluateWith, Tree.evaluateWith]
    refine (ihd hd).bind fun v => ?_
    cases v with
    | left a => exact (ihh hh).bind fun f => Echoes.ofExcept (f.call a >>= k.apply)
    | _ => exact Echoes.ofExcept _
  | deferred g k =>
    rw [Tree.refold, Tree.evaluateWith, hdeferred]
    exact hs (.host g) k ht
  | loop action k =>
    rw [Tree.refold, Tree.evaluateWith, hdeferred]
    exact hs (.loop action) k ht
  | foreign typeName => exact ht.elim
  | unknown typeName => exact ht.elim

/-- Each time a deferred node is forced, what it gives is folded anew and its function is mapped, so
that at every bound a tree and what it folds to are evaluated alike. -/
theorem echoes_refold (hgen : ∀ g w t w', gen g w = .ok t w' → t.Built ∨ t.isNode = false) (n : Nat)
    {t : Tree P G} (ht : t.Normal) :
    Echoes (I.evaluate (Folding.intoTrees gen).unfold mode n t.refold)
      (I.evaluate gen mode n t) := by
  induction n generalizing t with
  | zero =>
    rw [evaluate, evaluate, Tree.evaluate_eq, Tree.evaluate_eq]
    exact echoes_evaluateWith (fun source k _ j' j hj => .ok rfl hj) ht
  | succ n ih =>
    rw [evaluate, evaluate, Tree.evaluate_eq, Tree.evaluate_eq]
    refine echoes_evaluateWith (fun source k hs j' j hj => ?_) ht
    have hagrees (w : σ) : (j'.extend [.forced (.host ⟨source, k⟩)] w).Agrees
        (j.extend [.forced source] w) := hj.extend w rfl rfl
    rw [Tree.expansion, Tree.expansion, bind_assoc, Evaluation.bind_apply, Evaluation.bind_apply,
      Evaluation.lift_apply, Evaluation.lift_apply, Journal.noting, Journal.noting, hj.world]
    cases hx : source.expand gen j.world with
    | error e w =>
      rw [Source.expand_refolded_error (d := ⟨source, k⟩) hx]
      exact .error e (hagrees w)
    | ok inner w =>
      have hinner := (Source.built_of_expand hgen hs hx).normal
      rw [Source.expand_refolded (d := ⟨source, k⟩) hx hinner]
      have hechoes : Echoes (I.evaluate (Folding.intoTrees gen).unfold mode n inner.refold >>=
            fun v => Evaluation.ofExcept (k.apply v))
          (I.evaluate gen mode n inner >>= fun v => Evaluation.ofExcept (k.apply v)) :=
        (ih hinner).bind fun v => Echoes.ofExcept (k.apply v)
      -- A known value is mapped when it is forced, and fails there as it would when it is used.
      rw [← evaluate_ofExcept_fmap n hinner.refold_known] at hechoes
      have hinside := hechoes _ _ (hagrees w)
      rw [Evaluation.bind_apply] at hinside
      cases hmap : inner.refold.fmap k.apply <;> rw [hmap] at hinside <;> exact hinside

/-- A tree and what it folds to in the tree context run alike: to the same result, with the same
trace, in the same world, and either both come to an end or neither does. They also hold the same
effects. What deferred nodes give may fail, or be no tree at all. -/
theorem ends_iff_refold (hI : I.maxSteps = none)
    (hgen : ∀ g w t w', gen g w = .ok t w' → t.Built ∨ t.isNode = false) (mode : Mode)
    {t : Tree P G} (ht : t.Built) :
    ∃ t', (∀ w, (Folding.intoTrees gen).Yields none t w t' w) ∧
      (∀ w o w', I.Ends (Folding.intoTrees gen).unfold mode t' w o w' ↔
        I.Ends gen mode t w o w') ∧
      t'.effectsByStack = t.effectsByStack := by
  refine ⟨t.refold, fun w => ?_, fun w o w' => ?_, ?_⟩
  · rw [Folding.yields_iff, Folding.fold, Folding.foldLazily_intoTrees ht.normal]
    rfl
  · rw [ends_iff_evaluate hI, ends_iff_evaluate hI]
    refine exists_congr fun n => ?_
    have hechoes : Echoes (I.evaluate (Folding.intoTrees gen).unfold mode n t.refold)
        (I.evaluate gen mode n t) := echoes_refold hgen n ht.normal
    rw [← Option.bind_eq_some_iff, ← Option.bind_eq_some_iff,
      hechoes.ending (j := ⟨w, []⟩) ⟨rfl, rfl, rfl⟩]
  · rw [Tree.effectsByStack_eq, Tree.effectsByStack_eq, Tree.effects_refold]

/-- An effect of a deferred node is performed before the function of the node fails on its value. -/
theorem ends_iff_refold_deferred :
    let ask : Effect Builtin :=
      { className := "Ask", lineage := ["Ask"], fields := [], label := .ok "Ask" }
    let gen : Bool → Action Nat (Tree Builtin Bool) := fun b => do
      modify (· + 10)
      if b then return .foreign "int" else return .lift ask
    let I : Interpreter Builtin Nat := { fallback := some fun _ => do
      modify (· + 1)
      return .value .null }
    let fault : Fault := .raised .value "absent"
    let t : Tree Builtin Bool := .deferred false (Post.after (fun _ => .error fault) none)
    I.maxSteps = none ∧ (∀ g w t w', gen g w = .ok t w' → t.Built ∨ t.isNode = false) ∧ t.Built ∧
      I.Ends gen .sync t 0 (.ok (.error fault, ["Ask"])) 11 ∧
      ∃ t', (∀ w, (Folding.intoTrees gen).Yields none t w t' w) ∧
        I.Ends (Folding.intoTrees gen).unfold .sync t' 0 (.ok (.error fault, ["Ask"])) 11 := by
  intro ask gen I fault t
  have hgen (g : Bool) (w : Nat) (u : Tree Builtin Bool) (w' : Nat) (h : gen g w = .ok u w') :
      u.Built ∨ u.isNode = false := by
    cases g with
    | false =>
      cases h
      exact .inl (.lift ask)
    | true =>
      cases h
      exact .inr rfl
  have ht : t.Built := (Tree.Built.defer false).fmap rfl
  have hends : I.Ends gen .sync t 0 (.ok (.error fault, ["Ask"])) 11 := by
    refine (ends_iff_evaluate rfl).mpr
      ⟨1, .failed fault ⟨11, [.forced (.host false), .called ask]⟩, rfl, rfl⟩
  obtain ⟨t', hfold, hrun, -⟩ := ends_iff_refold (I := I) rfl hgen .sync ht
  exact ⟨rfl, hgen, ht, hends, t', hfold, (hrun 0 _ 11).mpr hends⟩

end Interpreter

end SelectiveEffects
