import SelectiveEffects.Proofs.Tree.Known
import SelectiveEffects.Tree.Construction

/-! What building operations guarantee: every node keeps what its route promises. -/

namespace SelectiveEffects

namespace Tree

variable {P G σ : Type} [Primitives P]

/-- Only a disjunction that was mapped into left tags is marked as always handled, and only a
selection between two tagged branches as exclusive. A loop repeats a built action. -/
inductive WellMade : Tree P G → Prop where
  | pure (v : Val P) : WellMade (.pure v)
  | lifted (e : Effect P) (k : Post P) : WellMade (.lifted e k)
  | optional {d h : Tree P G} (k : Post P) :
      WellMade d → WellMade h → WellMade (.selection d h k .optional)
  | always {d₀ d h : Tree P G} (k : Post P) :
      d₀.fmap Val.toLeft.call = .ok d → WellMade d → WellMade h →
      WellMade (.selection d h k .always)
  | exclusive {x t l₀ l r : Tree P G} (k : Post P) :
      x.fmap Fun.retag = .ok t → l₀.fmap Fun.thenRight = .ok l →
      WellMade t → WellMade l → WellMade r →
      WellMade (.selection (.selection t l none .optional) r k .exclusive)
  | deferred (g : G) (k : Post P) : WellMade (.deferred g k)
  | loop {action : Tree P G} (k : Post P) : action.Built → WellMade (.loop action k)

theorem WellMade.fmap {f : Fun P} {t u : Tree P G} (ht : t.WellMade) (h : t.fmap f = .ok u) :
    u.WellMade := by
  cases ht with
  | pure v =>
    obtain ⟨w, -, rfl⟩ := exists_of_map_eq_ok h
    exact .pure w
  | lifted e k => cases h; exact .lifted e _
  | optional k hd hh => cases h; exact .optional _ hd hh
  | always k hleft hd hh => cases h; exact .always _ hleft hd hh
  | exclusive k hx hl ht hl' hr => cases h; exact .exclusive _ hx hl ht hl' hr
  | deferred g k => cases h; exact .deferred g _
  | loop k ha => cases h; exact .loop _ ha

theorem WellMade.disjunction {d h : Tree P G} {k : Post P} {route : Route}
    (ht : (selection d h k route).WellMade) : d.WellMade := by
  cases ht with
  | optional _ hd _ => exact hd
  | always _ _ hd _ => exact hd
  | exclusive _ _ _ ht hl _ => exact .optional none ht hl

theorem WellMade.handler {d h : Tree P G} {k : Post P} {route : Route}
    (ht : (selection d h k route).WellMade) : h.WellMade := by
  cases ht with
  | optional _ _ hh => exact hh
  | always _ _ _ hh => exact hh
  | exclusive _ _ _ _ _ hr => exact hr

theorem handle_of_not_collapses {x y t : Tree P G} (h : x.handle y = .ok t)
    (hc : collapses x y = false) : t = .selection x y none .optional := by
  obtain ⟨g, rfl, -⟩ | ⟨a, rfl, -⟩ | ⟨-, rfl⟩ := handle_cases h
  · simp [collapses] at hc
  · cases y <;> simp [collapses] at hc
  · rfl

omit [Primitives P] in
/-- A selection is settled by a known function, or else by a known left tag. -/
theorem collapses_cases {x y : Tree P G} (h : collapses x y = true) :
    (∃ g, y = .pure g) ∨ (∃ a, x = .pure (.left a)) ∧ y.isPure = false := by
  by_cases hy : ∃ g, y = .pure g
  · exact .inl hy
  · have hpure : y.isPure = false := by
      cases y with
      | pure g => exact absurd ⟨g, rfl⟩ hy
      | _ => rfl
    unfold collapses at h
    split at h
    · cases hpure
    · exact .inr ⟨⟨_, rfl⟩, hpure⟩
    · cases h

theorem handle_pure {x : Tree P G} (hx : x.isNode = true) (g : Val P) :
    x.handle (.pure g) = x.fmap (Val.either g .identity).call := by
  cases x with
  | pure v => cases v <;> rfl
  | foreign typeName => cases hx
  | _ => rfl

theorem handle_left (a : Val P) {y : Tree P G} (hy : y.isNode = true)
    (hpure : y.isPure = false) : (Tree.pure (.left a)).handle y = y.fmap (Val.applyTo a).call := by
  cases y with
  | pure g => cases hpure
  | foreign typeName => cases hy
  | _ => rfl

/-- What cannot be settled is selected. -/
theorem handle_eq_selection {x y : Tree P G} (hx : x.isNode = true) (hy : y.isNode = true)
    (hc : collapses x y = false) : x.handle y = .ok (.selection x y none .optional) := by
  unfold handle
  rw [hx, hy, Bool.and_self, if_pos rfl]
  split
  · simp [collapses] at hc
  · cases y <;> simp [collapses] at hc
  · rfl

theorem handle_of_not_isNode {x y : Tree P G} (h : (x.isNode && y.isNode) = false) :
    x.handle y = .error (.notHandleable x.typeName y.typeName) := by
  unfold handle
  rw [h]
  rfl

theorem WellMade.handle {x y t : Tree P G} (hx : x.WellMade) (hy : y.WellMade)
    (h : x.handle y = .ok t) : t.WellMade := by
  obtain ⟨g, rfl, hmap⟩ | ⟨a, rfl, hmap⟩ | ⟨-, rfl⟩ := handle_cases h
  · exact hx.fmap hmap
  · exact hy.fmap hmap
  · exact .optional none hx hy

theorem WellMade.select {x l r t : Tree P G} (hx : x.WellMade) (hl : l.WellMade) (hr : r.WellMade)
    (h : x.select l r = .ok t) : t.WellMade := by
  obtain ⟨tagged, viaLeft, inner, outer, htagged, hviaLeft, hinner, houter, rfl⟩ := select_cases h
  have hwt := hx.fmap htagged
  have hwl := hl.fmap hviaLeft
  have hwo := (hwt.handle hwl hinner).handle hr houter
  split
  · exact hwo
  · rename_i hc
    rw [Bool.not_eq_true, Bool.or_eq_false_iff] at hc
    obtain rfl := handle_of_not_collapses houter hc.2
    obtain rfl := handle_of_not_collapses hinner hc.1
    exact .exclusive none htagged hviaLeft hwt hwl hr

theorem WellMade.ap {f x t : Tree P G} (hf : f.WellMade) (hx : x.WellMade) (h : f.ap x = .ok t) :
    t.WellMade := by
  obtain ⟨disjunction, handler, tree, hdisjunction, hhandler, htree, rfl⟩ := ap_cases h
  have hwd := hf.fmap hdisjunction
  have hwh := hx.fmap hhandler
  split
  · exact hwd.handle hwh htree
  · rename_i hc
    obtain rfl := handle_of_not_collapses htree (Bool.not_eq_true _ ▸ hc)
    exact .always none hdisjunction hwd hwh

theorem Built.wellMade {t : Tree P G} (h : t.Built) : t.WellMade := by
  induction h with
  | pure v => exact .pure v
  | lift e => exact .lifted e none
  | defer g => exact .deferred g none
  | whileS ha ih => exact .loop none ha
  | fmap _ h ih => exact ih.fmap h
  | handle _ _ h ihx ihy => exact ihx.handle ihy h
  | select _ _ _ h ihx ihl ihr => exact ihx.select ihl ihr h
  | ap _ _ h ihf ihx => exact ihf.ap ihx h

/-- Every effect in the tree, those of its loops included, has a property, and the action of every
loop has another. `other` says whether there may be a node of no known kind. -/
def Every (E : Effect P → Prop) (A : Tree P G → Prop) (other : Prop) : Tree P G → Prop
  | lifted e _ => E e
  | selection d h _ _ => d.Every E A other ∧ h.Every E A other
  | loop action _ => A action ∧ action.Every E A other
  | pure _ | deferred _ _ => True
  | foreign _ | unknown _ => other

section Every

variable {E : Effect P → Prop} {A : Tree P G → Prop} {other : Prop}

omit [Primitives P] in
theorem every_fmap {f : Fun P} {t u : Tree P G} (h : t.fmap f = .ok u) (ht : t.Every E A other) :
    u.Every E A other := by
  cases t with
  | pure v =>
    obtain ⟨w, -, rfl⟩ := exists_of_map_eq_ok h
    trivial
  | foreign typeName => cases h
  | unknown typeName => cases h
  | _ =>
    cases h
    exact ht

theorem every_handle {x y t : Tree P G} (h : x.handle y = .ok t) (hx : x.Every E A other)
    (hy : y.Every E A other) : t.Every E A other := by
  obtain ⟨g, rfl, hmap⟩ | ⟨a, rfl, hmap⟩ | ⟨-, rfl⟩ := handle_cases h
  · exact every_fmap hmap hx
  · exact every_fmap hmap hy
  · exact ⟨hx, hy⟩

omit [Primitives P] in
theorem every_withRoute (route : Route) (t : Tree P G) :
    (t.withRoute route).Every E A other ↔ t.Every E A other := by
  cases t <;> rfl

theorem every_select {x l r t : Tree P G} (h : x.select l r = .ok t) (hx : x.Every E A other)
    (hl : l.Every E A other) (hr : r.Every E A other) : t.Every E A other := by
  obtain ⟨tagged, viaLeft, inner, outer, htagged, hviaLeft, hinner, houter, rfl⟩ := select_cases h
  have hro := every_handle houter
    (every_handle hinner (every_fmap htagged hx) (every_fmap hviaLeft hl)) hr
  split
  · exact hro
  · exact (every_withRoute .exclusive outer).mpr hro

theorem every_ap {f x t : Tree P G} (h : f.ap x = .ok t) (hf : f.Every E A other)
    (hx : x.Every E A other) : t.Every E A other := by
  obtain ⟨disjunction, handler, tree, hdisjunction, hhandler, htree, rfl⟩ := ap_cases h
  have hevery := every_handle htree (every_fmap hdisjunction hf) (every_fmap hhandler hx)
  split
  · exact hevery
  · exact (every_withRoute .always tree).mpr hevery

theorem every_liftA2 {g : P} {x y t : Tree P G} (h : Context.free.liftA2 g x y = .ok t)
    (hx : x.Every E A other) (hy : y.Every E A other) : t.Every E A other := by
  obtain ⟨partially, hpartially, hap⟩ := exists_of_bind_eq_ok h
  exact every_ap hap (every_fmap hpartially hx) hy

theorem every_ifS {condition onTrue onFalse t : Tree P G}
    (h : Context.free.ifS condition onTrue onFalse = .ok t) (hc : condition.Every E A other)
    (ht : onTrue.Every E A other) (hf : onFalse.Every E A other) : t.Every E A other := by
  obtain ⟨tags, left, right, htags, hleft, hright, hselect⟩ := ifS_cases h
  exact every_select hselect (every_fmap htags hc) (every_fmap hleft ht) (every_fmap hright hf)

end Every

/-- The deferred node that generates its subtree from a source. -/
def ofSource (source : Source P G) (k : Post P) : Tree P G :=
  match source with
  | .host g => .deferred g k
  | .loop action => .loop action k

/-- All nodes are of known kinds, and all labels can be read. A loop may fail to start over. -/
def Legible (t : Tree P G) : Prop :=
  t.Every (fun e => ∃ label, e.label = .ok label) (fun _ => True) False

/-- All nodes are of known kinds, all labels can be read, and all loops can start over. -/
def Runnable (t : Tree P G) : Prop :=
  t.Every (fun e => ∃ label, e.label = .ok label) Decides False

theorem built_ifS {condition onTrue onFalse t : Tree P G} (hc : condition.Built)
    (ht : onTrue.Built) (hf : onFalse.Built)
    (h : Context.free.ifS condition onTrue onFalse = .ok t) : t.Built := by
  obtain ⟨tags, left, right, htags, hleft, hright, hselect⟩ := ifS_cases h
  exact .select (hc.fmap htags) (ht.fmap hleft) (hf.fmap hright) hselect

theorem built_whenS {condition action t : Tree P G} (hc : condition.Built) (ha : action.Built)
    (h : Context.free.whenS condition action = .ok t) : t.Built := by
  rw [whenS_eq_ifS] at h
  exact built_ifS hc ha (.pure .null) h

theorem every_whenS {E : Effect P → Prop} {A : Tree P G → Prop} {other : Prop}
    {condition action t : Tree P G} (hc : condition.Every E A other) (ha : action.Every E A other)
    (h : Context.free.whenS condition action = .ok t) : t.Every E A other := by
  rw [whenS_eq_ifS] at h
  exact every_ifS h hc ha trivial

/-- Starting a loop over fails only by the test of a known action. -/
theorem exists_whenS_loop {action : Tree P G} (h : action.Known) (hd : action.Decides) :
    ∃ t, Context.free.whenS action (.loop action none) = .ok t := by
  have hloop : (Tree.loop action none).Known := trivial
  have hskip : (Tree.pure .null : Tree P G).Known := trivial
  obtain ⟨t, ht, -⟩ := exists_ifS h hd hloop hskip
  exact ⟨t, (whenS_eq_ifS action (.loop action none)).trans ht⟩

omit [Primitives P] in
theorem Every.known {E : Effect P → Prop} {A : Tree P G → Prop} {t : Tree P G}
    (h : t.Every E A False) : t.Known := by
  cases t with
  | foreign typeName => exact h.elim
  | unknown typeName => exact h.elim
  | _ => trivial

/-- The nodes of a built tree are of known kinds. -/
theorem Built.every_known {t : Tree P G} (h : t.Built) :
    t.Every (fun _ => True) (fun _ => True) False := by
  induction h with
  | pure v => trivial
  | lift e => trivial
  | defer g => trivial
  | whileS _ ih => exact ⟨trivial, ih⟩
  | fmap _ h ih => exact every_fmap h ih
  | handle _ _ h ihx ihy => exact every_handle h ihx ihy
  | select _ _ _ h ihx ihl ihr => exact every_select h ihx ihl ihr
  | ap _ _ h ihf ihx => exact every_ap h ihf ihx

theorem Built.known {t : Tree P G} (h : t.Built) : t.Known :=
  h.every_known.known

end Tree

namespace Source

variable {P G σ : Type} [Primitives P]

/-- Whatever the world is when a deferred node is forced, it gives this tree. -/
def StandsFor (gen : G → Action σ (Tree P G)) (source : Source P G) (t : Tree P G) : Prop :=
  ∀ w, ∃ w', source.expand gen w = .ok t w'

/-- What holds of some tree that the node gives holds of the one it stands for. -/
theorem StandsFor.exists_iff {gen : G → Action σ (Tree P G)} {source : Source P G} {t : Tree P G}
    (h : StandsFor gen source t) (p : Tree P G → Prop) (w : σ) :
    (∃ w inner w', source.expand gen w = .ok inner w' ∧ p inner) ↔ p t := by
  constructor
  · rintro ⟨w₁, inner, w₂, hinner, hp⟩
    obtain ⟨w₃, ht⟩ := h w₁
    cases hinner.symm.trans ht
    exact hp
  · intro hp
    obtain ⟨w', ht⟩ := h w
    exact ⟨w, t, w', ht, hp⟩

/-- Only what becomes of the one tree matters after a deferred node is forced. -/
theorem StandsFor.bind_congr {gen : G → Action σ (Tree P G)} {source : Source P G} {t : Tree P G}
    (h : StandsFor gen source t) {α : Type} {f f' : Tree P G → Action σ α} (hf : f t = f' t) :
    source.expand gen >>= f = source.expand gen >>= f' := by
  funext w
  obtain ⟨w', ht⟩ := h w
  rw [Action.bind_apply, Action.bind_apply, ht]
  exact congrFun hf w'

theorem standsFor_host {gen : G → Action σ (Tree P G)} {g : G} {t : Tree P G}
    (h : Generates gen g t) (ht : t.Known) : StandsFor gen (.host g) t := by
  intro w
  obtain ⟨w', hw⟩ := h w
  refine ⟨w', ?_⟩
  exact expand_host_eq_ok_iff.mpr ⟨hw, ht.isNode⟩

/-- A loop stands for one turn of it, with the loop again after that. -/
theorem standsFor_loop (gen : G → Action σ (Tree P G)) {action t : Tree P G}
    (h : Context.free.whenS action (.loop action none) = .ok t) :
    StandsFor gen (.loop action) t := by
  exact fun w => ⟨w, expand_loop_eq_ok_iff.mpr ⟨h, rfl⟩⟩

/-- A loop repeats a runnable action and can start over. -/
def Runnable : Source P G → Prop
  | host _ => True
  | loop action => (Tree.loop action none).Runnable

/-- The deferred nodes of a runnable tree stand for runnable trees when the generators give such. -/
theorem exists_standsFor {gen : G → Action σ (Tree P G)}
    (hgen : ∀ g, ∃ t, t.Runnable ∧ Generates gen g t) {source : Source P G}
    (hs : source.Runnable) : ∃ t, t.Runnable ∧ StandsFor gen source t := by
  cases source with
  | host g =>
    obtain ⟨t, ht, hgenerates⟩ := hgen g
    exact ⟨t, ht, standsFor_host hgenerates (Tree.Every.known ht)⟩
  | loop action =>
    have hloop : (Tree.loop action none).Runnable := hs
    obtain ⟨hdecides, haction⟩ := hs
    obtain ⟨t, ht⟩ := Tree.exists_whenS_loop haction.known hdecides
    exact ⟨t, Tree.every_whenS haction hloop ht, standsFor_loop gen ht⟩

/-- When the generators give trees, so does forcing a node, though perhaps another tree each time. -/
theorem exists_expand_every {gen : G → Action σ (Tree P G)} {E : Effect P → Prop}
    (hgen : ∀ g w, ∃ t w', gen g w = .ok t w' ∧ t.Every E Tree.Decides False)
    {source : Source P G} {k : Post P} (hs : (Tree.ofSource source k).Every E Tree.Decides False)
    (w : σ) : ∃ t w', source.expand gen w = .ok t w' ∧ t.Every E Tree.Decides False := by
  cases source with
  | host g =>
    obtain ⟨t, w', hw, ht⟩ := hgen g w
    exact ⟨t, w', expand_host_eq_ok_iff.mpr ⟨hw, ht.known.isNode⟩, ht⟩
  | loop action =>
    have hloop : (Tree.loop action none).Every E Tree.Decides False := hs
    obtain ⟨hdecides, haction⟩ := hs
    obtain ⟨t, ht⟩ := Tree.exists_whenS_loop haction.known hdecides
    obtain ⟨w', hw⟩ := standsFor_loop gen ht w
    exact ⟨t, w', hw, Tree.every_whenS haction hloop ht⟩

end Source

end SelectiveEffects
