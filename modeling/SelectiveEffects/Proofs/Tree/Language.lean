import SelectiveEffects.Proofs.Path.OfTree

/-! The languages of the trees that the building operations make, whatever they collapse to. -/

namespace SelectiveEffects

namespace Tree

variable {P G : Type} {D : Source P G → Language}

theorem languageWith_of_isPure {t : Tree P G} (h : t.isPure = true) :
    languageWith D t = .nothing := by
  cases t with
  | pure v => rfl
  | _ => cases h

/-- What a node does to its value last leaves no label. -/
theorem languageWith_post (d h : Tree P G) (k k' : Post P) (route : Route) :
    languageWith D (.selection d h k route) = languageWith D (.selection d h k' route) := by
  cases d <;> cases route <;> rfl

theorem languageWith_fmap {f : Fun P} {t u : Tree P G} (h : t.fmap f = .ok u) :
    languageWith D u = languageWith D t := by
  cases t with
  | pure v =>
    obtain ⟨w, -, rfl⟩ := exists_of_map_eq_ok h
    rfl
  | selection d h' k route =>
    cases h
    exact languageWith_post d h' _ k route
  | foreign typeName => cases h
  | unknown typeName => cases h
  | _ =>
    cases h
    rfl

theorem isPure_fmap {f : Fun P} {t u : Tree P G} (h : t.fmap f = .ok u) :
    u.isPure = t.isPure := by
  cases t with
  | pure v =>
    obtain ⟨w, -, rfl⟩ := exists_of_map_eq_ok h
    rfl
  | foreign typeName => cases h
  | unknown typeName => cases h
  | _ =>
    cases h
    rfl

theorem collapses_of_isPure {x y : Tree P G} (hy : y.isPure = true) : collapses x y = true := by
  cases y with
  | pure v => cases x <;> rfl
  | _ => cases hy

theorem collapses_of_ne {x y : Tree P G} (hx : ∀ a, x ≠ .pure (.left a)) :
    collapses x y = y.isPure := by
  cases y with
  | pure v => exact collapses_of_isPure rfl
  | _ =>
    unfold collapses
    split
    · contradiction
    · exact absurd rfl (hx _)
    · rfl

theorem ne_left_of_isPure {x : Tree P G} (h : x.isPure = false) (a : Val P) :
    x ≠ .pure (.left a) := by
  rintro rfl
  cases h

variable [Primitives P]

/-- A known left tag runs the handler for certain, and otherwise it may be skipped. -/
theorem languageWith_handle {x y t : Tree P G} (h : x.handle y = .ok t)
    (hx : ∀ a, x ≠ .pure (.left a)) :
    languageWith D t = (languageWith D x).followedBy (languageWith D y).maybe := by
  obtain ⟨g, rfl, hmap⟩ | ⟨a, rfl, -⟩ | ⟨-, rfl⟩ := handle_cases h
  · rw [languageWith_fmap hmap, languageWith, Language.maybe_nothing, Language.followedBy_nothing]
  · exact absurd rfl (hx a)
  · exact languageWith_optional D x y none

theorem isPure_handle {x y t : Tree P G} (h : x.handle y = .ok t)
    (hx : x.isPure = false) : t.isPure = false := by
  obtain ⟨g, rfl, hmap⟩ | ⟨a, rfl, -⟩ | ⟨-, rfl⟩ := handle_cases h
  · rw [isPure_fmap hmap, hx]
  · cases hx
  · rfl

theorem languageWith_ap {f x t : Tree P G} (h : f.ap x = .ok t) :
    languageWith D t = (languageWith D f).followedBy (languageWith D x) := by
  obtain ⟨disjunction, handler, tree, hdisjunction, hhandler, htree, rfl⟩ := ap_cases h
  rw [← languageWith_fmap hdisjunction, ← languageWith_fmap hhandler]
  by_cases hc : collapses disjunction handler = true
  · -- One side is known, so it has no label to put before or after.
    rw [if_pos hc]
    obtain ⟨g, rfl, hmap⟩ | ⟨a, rfl, hmap⟩ | ⟨hnot, -⟩ := handle_cases htree
    · rw [languageWith_fmap hmap]
      exact (Language.followedBy_nothing _).symm
    · rw [languageWith_fmap hmap]
      exact (Language.nothing_followedBy _).symm
    · simp [hc] at hnot
  · rw [if_neg hc]
    obtain rfl := handle_of_not_collapses htree (Bool.not_eq_true _ ▸ hc)
    exact languageWith_always D disjunction handler none

theorem languageWith_liftA2 {g : P} {x y t : Tree P G}
    (h : Context.free.liftA2 g x y = .ok t) :
    languageWith D t = (languageWith D x).followedBy (languageWith D y) := by
  obtain ⟨partially, hpartially, hap⟩ := exists_of_bind_eq_ok h
  rw [languageWith_ap hap, languageWith_fmap hpartially]

theorem ne_left_of_retag {x tagged : Tree P G} (h : x.fmap Fun.retag = .ok tagged)
    (hx : ∀ a, x ≠ .pure (.left a)) (a : Val P) : tagged ≠ .pure (.left a) := by
  rintro rfl
  cases x with
  | pure v =>
    obtain ⟨u, hu, hpure⟩ := exists_of_map_eq_ok h
    cases hpure
    obtain ⟨b, rfl, -⟩ | ⟨b, -, hb⟩ := Fun.retag_eq_ok hu
    · exact hx b rfl
    · cases hb
  | foreign typeName => cases h
  | unknown typeName => cases h
  | _ => cases h

/-- With a known branch, a selection is no more than its two handlings. -/
theorem handlings_of_select {x l r t : Tree P G} (h : x.select l r = .ok t)
    (hpure : l.isPure = true ∨ r.isPure = true) :
    ∃ tagged viaLeft inner, x.fmap Fun.retag = .ok tagged ∧ l.fmap Fun.thenRight = .ok viaLeft ∧
      tagged.handle viaLeft = .ok inner ∧ inner.handle r = .ok t := by
  obtain ⟨tagged, viaLeft, inner, outer, htagged, hviaLeft, hinner, houter, rfl⟩ := select_cases h
  have hc : (collapses tagged viaLeft || collapses inner r) = true := by
    rw [Bool.or_eq_true]
    refine hpure.imp (fun hl => ?_) fun hr => collapses_of_isPure hr
    exact collapses_of_isPure ((isPure_fmap hviaLeft).trans hl)
  rw [if_pos hc]
  exact ⟨tagged, viaLeft, inner, htagged, hviaLeft, hinner, houter⟩

/-- Between two branches of which none is known, a selection is read as a choice, unless its tag is
known to be a left one. -/
theorem languageWith_select_of_branches {x l r t : Tree P G} (h : x.select l r = .ok t)
    (hx : ∀ a, x ≠ .pure (.left a)) (hl : l.isPure = false) (hr : r.isPure = false) :
    languageWith D t =
      (languageWith D x).followedBy ((languageWith D l).or (languageWith D r)) := by
  obtain ⟨tagged, viaLeft, inner, outer, htagged, hviaLeft, hinner, houter, rfl⟩ := select_cases h
  have hcinner : collapses tagged viaLeft = false := by
    rw [collapses_of_ne (ne_left_of_retag htagged hx), isPure_fmap hviaLeft, hl]
  obtain rfl := handle_of_not_collapses hinner hcinner
  have hcouter : collapses (.selection tagged viaLeft none .optional) r = false := by
    rw [collapses_of_ne (ne_left_of_isPure rfl), hr]
  obtain rfl := handle_of_not_collapses houter hcouter
  rw [hcinner, hcouter, ← languageWith_fmap htagged, ← languageWith_fmap hviaLeft]
  rfl

/-- Selection on a tag that is not known is read as a choice, whatever its branches are. -/
theorem languageWith_select {x l r t : Tree P G} (h : x.select l r = .ok t)
    (hx : x.isPure = false) :
    languageWith D t =
      (languageWith D x).followedBy ((languageWith D l).or (languageWith D r)) := by
  by_cases hpure : l.isPure = true ∨ r.isPure = true
  · -- The selection is not marked as a choice, but a known branch may as well be left out.
    obtain ⟨tagged, viaLeft, inner, htagged, hviaLeft, hinner, houter⟩ :=
      handlings_of_select h hpure
    have htagged' : tagged.isPure = false := (isPure_fmap htagged).trans hx
    have hinner' : inner.isPure = false := isPure_handle hinner htagged'
    rw [languageWith_handle houter (ne_left_of_isPure hinner'),
      languageWith_handle hinner (ne_left_of_isPure htagged'), languageWith_fmap htagged,
      languageWith_fmap hviaLeft]
    rcases hpure with hl | hr
    · rw [languageWith_of_isPure hl, Language.maybe_nothing, Language.followedBy_nothing]
      rfl
    · rw [languageWith_of_isPure hr, Language.maybe_nothing, Language.followedBy_nothing,
        Language.or_comm]
      rfl
  · rw [not_or, Bool.not_eq_true, Bool.not_eq_true] at hpure
    exact languageWith_select_of_branches h (ne_left_of_isPure hx) hpure.1 hpure.2

end Tree

end SelectiveEffects
