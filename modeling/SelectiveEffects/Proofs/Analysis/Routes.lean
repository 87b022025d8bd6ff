import SelectiveEffects.Proofs.Analysis.Enumeration
import SelectiveEffects.Proofs.Fold.Routes
import SelectiveEffects.Proofs.Path.Stacks
import SelectiveEffects.Proofs.Run.Routes

/-! Routes are marks for the analysis alone: the marks that selection and application put take sequences
from what a tree might perform, and change nothing that it does. -/

namespace SelectiveEffects

open Scenario

namespace Survey

/-- Every sequence of the first survey is one of the second. Both can be enumerated. -/
structure Within (S S' : Survey) : Prop where
  plain : S.path.Plain
  plain' : S'.path.Plain
  language : ∀ s, S.path.language s → S'.path.language s

namespace Within

variable {x x' y y' l l' r r' : Survey}

theorem inOrder (hx : x.Within x') (hy : y.Within y') : (x.inOrder y).Within (x'.inOrder y') where
  plain := plain_inOrder hx.plain hy.plain
  plain' := plain_inOrder hx.plain' hy.plain'
  language := by
    rw [language_inOrder, language_inOrder]
    exact Language.followedBy_mono hx.language hy.language

/-- What is done for certain might be done. -/
theorem inOrder_maybe (hx : x.Within x') (hy : y.Within y') :
    (x.inOrder y).Within (x'.maybe y') where
  plain := plain_inOrder hx.plain hy.plain
  plain' := plain_maybe hx.plain' hy.plain'
  language := by
    rw [language_inOrder, language_maybe]
    exact Language.followedBy_mono hx.language fun s hs => .inr (hy.language s hs)

theorem maybe (hx : x.Within x') (hy : y.Within y') : (x.maybe y).Within (x'.maybe y') where
  plain := plain_maybe hx.plain hy.plain
  plain' := plain_maybe hx.plain' hy.plain'
  language := by
    rw [language_maybe, language_maybe]
    exact Language.followedBy_mono hx.language fun s => Or.imp_right (hy.language s)

theorem oneOf (hx : x.Within x') (hl : l.Within l') (hr : r.Within r') :
    (x.oneOf l r).Within (x'.oneOf l' r') where
  plain := plain_oneOf hx.plain hl.plain hr.plain
  plain' := plain_oneOf hx.plain' hl.plain' hr.plain'
  language := by
    rw [language_oneOf, language_oneOf]
    exact Language.followedBy_mono hx.language fun s => Or.imp (hl.language s) (hr.language s)

/-- One of two is each of them, maybe. -/
theorem oneOf_maybe (hx : x.Within x') (hl : l.Within l') (hr : r.Within r') :
    (x.oneOf l r).Within ((x'.maybe l').maybe r') where
  plain := plain_oneOf hx.plain hl.plain hr.plain
  plain' := plain_maybe (plain_maybe hx.plain' hl.plain') hr.plain'
  language := by
    rw [language_oneOf, language_maybe, language_maybe, Language.followedBy_assoc]
    refine Language.followedBy_mono hx.language fun s hs => ?_
    rcases hs with hs | hs
    · exact ⟨s, [], (List.append_nil s).symm, .inr (hl.language s hs), .inl rfl⟩
    · exact ⟨[], s, rfl, .inl rfl, .inr (hr.language s hs)⟩

end Within

theorem within_refl {S : Survey} (h : S.path.Plain) : S.Within S :=
  ⟨h, h, fun _ hs => hs⟩

variable {P G σ : Type}

theorem concurs_ofTreeWith {deferral : Source P G → Action σ Survey}
    (hd : ∀ source, Action.Concurs Within (deferral source) (deferral source)) (t : Tree P G) :
    Action.Concurs Within (ofTreeWith deferral t) (ofTreeWith deferral t) := by
  induction t using ofTreeWith.induct with
  | case1 v => exact Action.relatesIn_pure (within_refl Path.plain_nothing)
  | case2 e k =>
    refine (Action.concurs_ofExcept e.label).bind fun label label' hlabel => ?_
    subst hlabel
    exact Action.relatesIn_pure (within_refl (Path.plain_step 0 label))
  | case3 t l k route r k' iht ihl ihr =>
    exact iht.bind fun x x' hx => ihl.bind fun y y' hy => ihr.bind fun z z' hz =>
      Action.relatesIn_pure (hx.oneOf hy hz)
  | case4 d h k ihd ihh =>
    rw [ofTreeWith_always]
    exact ihd.bind fun x x' hx => ihh.bind fun y y' hy => Action.relatesIn_pure (hx.inOrder hy)
  | case5 d h k route hexclusive halways ihd ihh =>
    rw [ofTreeWith_maybe hexclusive halways]
    exact ihd.bind fun x x' hx => ihh.bind fun y y' hy => Action.relatesIn_pure (hx.maybe hy)
  | case6 g k => exact hd (.host g)
  | case7 action k => exact hd (.loop action)
  | case8 typeName => exact Action.relatesIn_throw _
  | case9 typeName => exact Action.relatesIn_throw _

end Survey

namespace Tree

variable {P G : Type}

/-- The trees are the same but for a mark on the first, such as selection and application leave. -/
inductive Marks : Tree P G → Tree P G → Prop
  | same (t : Tree P G) : Marks t t
  | always (d h : Tree P G) (k : Post P) :
      Marks (.selection d h k .always) (.selection d h k .optional)
  | exclusive (d l r : Tree P G) (k k' : Post P) :
      Marks (.selection (.selection d l k .optional) r k' .exclusive)
        (.selection (.selection d l k .optional) r k' .optional)

theorem Marks.rerouted {t t' : Tree P G} (h : t.Marks t') : t.Rerouted (· = ·) t' := by
  have hrefl (t : Tree P G) : t.Rerouted (· = ·) t := .refl (fun _ => rfl) t
  cases h with
  | same => exact hrefl t
  | always d h k => exact .selection k .always .optional (hrefl d) (hrefl h)
  | exclusive d l r k k' => exact .selection k' .exclusive .optional (hrefl _) (hrefl r)

theorem Marks.concurs {σ : Type} {deferral : Source P G → Action σ Survey}
    (hd : ∀ source, Action.Concurs Survey.Within (deferral source) (deferral source))
    {t t' : Tree P G} (h : t.Marks t') :
    Action.Concurs Survey.Within (Survey.ofTreeWith deferral t) (Survey.ofTreeWith deferral t') := by
  have hself := Survey.concurs_ofTreeWith hd
  cases h with
  | same => exact hself t
  | always d h k =>
    rw [Survey.ofTreeWith_always, Survey.ofTreeWith_optional]
    exact (hself d).bind fun x x' hx => (hself h).bind fun y y' hy =>
      Action.relatesIn_pure (hx.inOrder_maybe hy)
  | exclusive d l r k k' =>
    rw [Survey.ofTreeWith, Survey.ofTreeWith_optional, Survey.ofTreeWith_optional]
    simp only [bind_assoc, pure_bind]
    exact (hself d).bind fun x x' hx => (hself l).bind fun y y' hy => (hself r).bind fun z z' hz =>
      Action.relatesIn_pure (hx.oneOf_maybe hy hz)

variable [Primitives P]

/-- Selection on trees marks what the derived selection makes. -/
theorem alike_select (x l r : Tree P G) :
    Alike Marks (x.select l r) (Context.free.toSelective.select x l r) := by
  refine .bind_self fun tagged _ => .bind_self fun viaLeft _ => .bind_self fun inner hinner => ?_
  rw [← bind_pure (Context.free.toSelective.handle inner r)]
  refine .bind_self fun outer houter => ?_
  split
  · exact .ok (.same outer)
  · rename_i hcollapses
    rw [Bool.or_eq_true, not_or, Bool.not_eq_true, Bool.not_eq_true] at hcollapses
    obtain rfl := handle_of_not_collapses hinner hcollapses.1
    obtain rfl := handle_of_not_collapses houter hcollapses.2
    exact .ok (.exclusive tagged viaLeft r none none)

/-- Application on trees marks what the derived application makes. -/
theorem alike_ap (f x : Tree P G) : Alike Marks (f.ap x) (Context.free.toSelective.ap f x) := by
  refine .bind_self fun disjunction _ => .bind_self fun handler _ => ?_
  rw [← bind_pure (Context.free.toSelective.handle disjunction handler)]
  refine .bind_self fun tree htree => ?_
  split
  · exact .ok (.same tree)
  · rename_i hcollapses
    rw [Bool.not_eq_true] at hcollapses
    obtain rfl := handle_of_not_collapses htree hcollapses
    exact .ok (.always disjunction handler none)

end Tree

variable {P G σ : Type} [Primitives P] {gen : G → Action σ (Tree P G)}

theorem Source.concurs_expand (hgen : ∀ g, Action.Concurs (· = ·) (gen g) (gen g))
    (source : Source P G) :
    Action.Concurs (· = ·) (source.expand gen) (source.expand gen) := by
  cases source with
  | host g =>
    refine (hgen g).bind fun t t' ht => ?_
    subst ht
    split
    · exact Action.relatesIn_pure rfl
    · exact Action.relatesIn_throw _
  | loop action => exact Action.concurs_ofExcept _

namespace Tree

variable {t t' : Tree P G}

/-- At every bound, a mark takes sequences from the language and does nothing else. -/
theorem Marks.concurs_ofTree (hgen : ∀ g, Action.Concurs (· = ·) (gen g) (gen g)) (strict : Bool)
    (n : Nat) (h : t.Marks t') :
    Action.Concurs Survey.Within (Survey.ofTree gen strict n t) (Survey.ofTree gen strict n t') := by
  induction n generalizing t t' with
  | zero =>
    refine h.concurs fun source => ?_
    cases strict with
    | true => exact Action.relatesIn_throw _
    | false => exact Action.relatesIn_pure (Survey.within_refl Path.plain_nothing)
  | succ n ih =>
    refine h.concurs fun source => (Source.concurs_expand hgen source).bind fun inner _ hinner => ?_
    subst hinner
    exact ih (.same inner)

end Tree

/-- Whatever the bounds, both analyses fail with the same fault or none does, and each sequence that is
possible by the first is possible by the second. -/
def Analysis.Sharpens (gen : G → Action σ (Tree P G)) (t t' : Tree P G) : Prop :=
  ∀ unroll strict cap,
    Action.Concurs (fun S S' => ∀ s, S.contains s = true → S'.contains s = true)
      (possibilities gen t unroll strict cap) (possibilities gen t' unroll strict cap)

theorem Tree.Marks.sharpens (hgen : ∀ g, Action.Concurs (· = ·) (gen g) (gen g)) {t t' : Tree P G}
    (h : t.Marks t') : Analysis.Sharpens gen t t' := by
  intro unroll strict cap
  refine (Action.concurs_ofExcept _).bind fun cap _ hcap => ?_
  subst hcap
  refine Action.RelatesIn.bind (Q := Survey.Within) ?_ fun S S' hS =>
    Action.relatesIn_pure fun s hs => ?_
  · refine (Action.concurs_ofExcept _).bind fun n _ hn => ?_
    subst hn
    exact h.concurs_ofTree hgen strict n
  · rw [(Analysis.denotes_possibilitiesOf cap hS.plain).contains_iff] at hs
    rw [(Analysis.denotes_possibilitiesOf cap hS.plain').contains_iff]
    exact hS.language s hs

/-- Nothing but the analysis tells the trees apart. With all handlers and limits they run alike, and
they hold the same effects. Within a bound every context folds them to the same. Without one, a context
that refuses deferred nodes folds them to the same as well, any other to values that cannot be told
apart by expanding deferred nodes, and the task context to tasks that do the same when called. -/
structure Tree.Indistinct (gen : G → Action σ (Tree P G)) (t t' : Tree P G) : Prop where
  run : ∀ (I : Interpreter P σ) mode fuel, I.run gen mode fuel t = I.run gen mode fuel t'
  effects : t.effectsByStack = t'.effectsByStack
  fold : ∀ {D F : Type} (I : Folding σ P G D F), I.gen = gen →
    ∀ n, I.FoldsAlike (some n) (· = ·) t t'
  refuse : ∀ {D F : Type} (I : Folding σ P G D F),
    (∀ d d', I.context.defer d = I.context.defer d') → I.FoldsAlike none (· = ·) t t'
  defer : ∀ {D F : Type} (I : Folding σ P G D F), I.gen = gen →
    ∀ E, I.Respects E → I.FoldsAlike none (fun x x' => ∀ depth, E depth x x') t t'
  task : ∀ again interpret,
    let I := Folding.into (Context.task again).toContext interpret gen id
    I.FoldsAlike none (fun x x' => ∀ depth, x.call I.unfold depth = x'.call I.unfold depth) t t'

theorem Tree.Rerouted.indistinct {R : G → G → Prop} (hgen : Tree.Reroutes gen R) {t t' : Tree P G}
    (h : t.Rerouted R t') : Tree.Indistinct gen t t' where
  run I mode fuel := I.run_rerouted hgen mode fuel h
  effects := by rw [effectsByStack_eq, effectsByStack_eq, h.effects_eq]
  fold I hI n := Folding.foldsAlike_of_relates
    (Action.relates_of_eq (Folding.foldUpTo_rerouted (hI.symm ▸ hgen) n h))
  refuse I hI := Folding.foldsAlike_of_relates
    (Action.relates_of_eq (Folding.foldLazily_rerouted hI h))
  defer I hI E hE := Folding.foldsAlike_of_relates (hE.foldLazily (hI.symm ▸ hgen) h)
  task again interpret :=
    Folding.foldsAlike_of_relates (Folding.relates_foldLazily_task again interpret hgen h)

theorem Tree.Marks.indistinct {t t' : Tree P G} (h : t.Marks t') : Tree.Indistinct gen t t' :=
  h.rerouted.indistinct (Tree.reroutes_eq gen)

/-- Trees that differ at most in their routes, also in what their generators give, can be told apart by
the analysis alone, and so can the trees that they fold to. Selection and application on trees fail
where the derived ones do. What they build can be told from what the derived ones build by the analysis
alone, and when generators give the same trees again and again, every sequence that is possible by it
is possible by the other. -/
theorem Tree.routes_only_sharpen (gen : G → Action σ (Tree P G)) :
    (∀ R t t', Tree.Reroutes gen R → t.Rerouted R t' → Tree.Indistinct gen t t' ∧
      ∀ interpret,
        let I := Folding.into .free interpret gen id
        I.FoldsAlike none (Tree.Indistinct I.unfold) t t') ∧
    (∀ x l r, Alike
      (fun t t' => Tree.Indistinct gen t t' ∧
        ((∀ g, ∃ u, Generates gen g u) → Analysis.Sharpens gen t t'))
      (x.select l r) (Context.free.toSelective.select x l r)) ∧
    ∀ f x, Alike
      (fun t t' => Tree.Indistinct gen t t' ∧
        ((∀ g, ∃ u, Generates gen g u) → Analysis.Sharpens gen t t'))
      (f.ap x) (Context.free.toSelective.ap f x) := by
  have hmarks (t t' : Tree P G) (h : t.Marks t') : Tree.Indistinct gen t t' ∧
      ((∀ g, ∃ u, Generates gen g u) → Analysis.Sharpens gen t t') := by
    refine ⟨h.indistinct, fun hgen => h.sharpens fun g => ?_⟩
    obtain ⟨u, hu⟩ := hgen g
    exact Action.Settles.concurs hu
  refine ⟨fun R t t' hgen h => ⟨h.indistinct hgen, fun interpret => ?_⟩,
    fun x l r => (Tree.alike_select x l r).imp hmarks, fun f x => (Tree.alike_ap f x).imp hmarks⟩
  obtain ⟨S, hS, hfold⟩ := Folding.exists_reroutes_free interpret hgen h
  exact Folding.foldsAlike_of_relates (hfold.imp fun u u' hu => hu.indistinct hS)

/-- Deferred nodes that stand for one selection, marked and not, as the branches of another that is
marked when it is built. -/
theorem Tree.routes_only_sharpen_deferred :
    let ask : Effect Builtin :=
      { className := "Ask", lineage := ["Ask"], fields := [], label := .ok "Ask" }
    let gen : Bool → Action Nat (Tree Builtin Bool) := fun marked => do
      modify (· + 1)
      return .selection (.lift ask) (.lift ask) none (if marked then .always else .optional)
    let x : Tree Builtin Bool := .lift ask
    let l : Tree Builtin Bool := .deferred true none
    let r : Tree Builtin Bool := .deferred false none
    Tree.Reroutes gen (fun _ _ => True) ∧ l.Rerouted (fun _ _ => True) r ∧ l.Indistinct gen r ∧
      (∀ g, ∃ u, Generates gen g u) ∧
      ∃ t t', x.select l r = .ok t ∧ Context.free.toSelective.select x l r = .ok t' ∧ t ≠ t' ∧
        t.Indistinct gen t' ∧ Analysis.Sharpens gen t t' := by
  intro ask gen x l r
  have hgen : Tree.Reroutes gen fun _ _ => True := by
    rintro g g' - w _ rfl
    exact .ok (.selection none _ _ (.lifted ask none) (.lifted ask none)) rfl
  have hlr : l.Rerouted (fun _ _ => True) r := .deferred none trivial
  have hsame (g : Bool) : ∃ u, Generates gen g u := ⟨_, fun w => ⟨w + 1, rfl⟩⟩
  obtain ⟨hrerouted, hselect, -⟩ := routes_only_sharpen gen
  have hxlr := hselect x l r
  change Alike _ (.ok _) (.ok _) at hxlr
  cases hxlr with
  | ok h =>
    exact ⟨hgen, hlr, (hrerouted _ l r hgen hlr).1, hsame, _, _, rfl, rfl, nofun, h.1, h.2 hsame⟩

end SelectiveEffects
