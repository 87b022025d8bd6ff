import SelectiveEffects.Path.OfTree
import SelectiveEffects.Proofs.Path.Labels
import SelectiveEffects.Proofs.Tree.WellMade
import SelectiveEffects.Tree.Language

/-! The path of a tree describes the sequences of labels that the tree may perform. -/

namespace SelectiveEffects

namespace Tree

variable {P G : Type}

/-- Only the exclusive route looks into the disjunction. -/
theorem languageWith_optional (L : Source P G → Language) (d h : Tree P G) (k : Post P) :
    languageWith L (.selection d h k .optional) =
      (languageWith L d).followedBy (languageWith L h).maybe := by
  cases d <;> rfl

theorem languageWith_always (L : Source P G → Language) (d h : Tree P G) (k : Post P) :
    languageWith L (.selection d h k .always) =
      (languageWith L d).followedBy (languageWith L h) := by
  cases d <;> rfl

theorem languageWith_maybe {L : Source P G → Language} {d h : Tree P G} {k : Post P}
    {route : Route}
    (hexclusive : ∀ t l k' route', d = .selection t l k' route' → route = .exclusive → False)
    (halways : route = .always → False) :
    languageWith L (.selection d h k route) =
      (languageWith L d).followedBy (languageWith L h).maybe := by
  rw [languageWith]
  · exact hexclusive
  · exact halways

end Tree

/-- The sequences of a deferred node are those of the tree that it stands for. -/
theorem Source.StandsFor.language_eq {P G σ : Type} [Primitives P] {gen : G → Action σ (Tree P G)}
    {source : Source P G} {inner : Tree P G} (h : Source.StandsFor gen source inner) (w : σ) (n : Nat) :
    (fun s => ∃ w inner w', source.expand gen w = .ok inner w' ∧ inner.language gen n s) =
      inner.language gen n :=
  funext fun s => propext (h.exists_iff (fun inner => inner.language gen n s) w)

namespace Survey

variable {P G σ : Type}

theorem ofTreeWith_always (deferral : Source P G → Action σ Survey) (d h : Tree P G)
    (k : Post P) : ofTreeWith deferral (.selection d h k .always) = (do
      let x ← ofTreeWith deferral d
      let y ← ofTreeWith deferral h
      return x.inOrder y) := by
  cases d <;> rfl

theorem ofTreeWith_optional (deferral : Source P G → Action σ Survey) (d h : Tree P G)
    (k : Post P) : ofTreeWith deferral (.selection d h k .optional) = (do
      let x ← ofTreeWith deferral d
      let y ← ofTreeWith deferral h
      return x.maybe y) := by
  cases d <;> rfl

theorem ofTreeWith_maybe {deferral : Source P G → Action σ Survey} {d h : Tree P G} {k : Post P}
    {route : Route}
    (hexclusive : ∀ t l k' route', d = .selection t l k' route' → route = .exclusive → False)
    (halways : route = .always → False) :
    ofTreeWith deferral (.selection d h k route) = (do
      let x ← ofTreeWith deferral d
      let y ← ofTreeWith deferral h
      return x.maybe y) := by
  rw [ofTreeWith]
  · exact hexclusive
  · exact halways

section Operations

variable {x y left right : Survey}

theorem plain_inOrder (hx : x.path.Plain) (hy : y.path.Plain) : (x.inOrder y).path.Plain :=
  Path.plain_seqOf (by simp [hx, hy])

theorem plain_maybe (hx : x.path.Plain) (hy : y.path.Plain) : (x.maybe y).path.Plain := by
  have hoption : Path.Plain (.altOf 0 [.nothing, y.path]) :=
    Path.plain_altOf (by simp [hy, Path.plain_nothing])
  exact Path.plain_seqOf (by simp [hx, hoption])

theorem plain_oneOf (hx : x.path.Plain) (hl : left.path.Plain) (hr : right.path.Plain) :
    (x.oneOf left right).path.Plain := by
  have hoption : Path.Plain (.altOf 0 [left.path, right.path]) :=
    Path.plain_altOf (by simp [hl, hr])
  exact Path.plain_seqOf (by simp [hx, hoption])

theorem language_inOrder (x y : Survey) :
    (x.inOrder y).path.language = x.path.language.followedBy y.path.language := by
  simp only [inOrder, Path.language_seqOf, Path.languageAll, Language.followedBy_nothing]

theorem language_maybe (x y : Survey) :
    (x.maybe y).path.language = x.path.language.followedBy y.path.language.maybe := by
  simp only [maybe, Path.language_seqOf, Path.languageAll, Path.language_altOf, Path.languageAny,
    Language.followedBy_nothing, Language.or_false]
  rfl

theorem language_oneOf (x left right : Survey) :
    (x.oneOf left right).path.language =
      x.path.language.followedBy (left.path.language.or right.path.language) := by
  simp only [oneOf, Path.language_seqOf, Path.languageAll, Path.language_altOf, Path.languageAny,
    Language.followedBy_nothing, Language.or_false]

end Operations

/-- From any world, the survey succeeds with a path for the language, and notes a cut when there is
one. -/
def Describes (x : Action σ Survey) (L : Language) (cut : Prop) : Prop :=
  ∀ w, ∃ S w', x w = .ok S w' ∧ S.path.Plain ∧ S.path.language = L ∧ (S.cut = true ↔ cut)

theorem describes_return {S : Survey} {L : Language} {cut : Prop} (hS : S.path.Plain)
    (hL : S.path.language = L) (hcut : S.cut = true ↔ cut) :
    Describes (σ := σ) (return S) L cut :=
  fun w => ⟨S, w, rfl, hS, hL, hcut⟩

theorem describes_label {e : Effect P} {label : String} (he : e.label = .ok label) :
    Describes (σ := σ) (do
      let label ← Action.ofExcept e.label
      return { path := .step 0 label }) (Tree.labelLanguage e) False := by
  rw [he]
  exact describes_return (Path.plain_step 0 label) (Tree.labelLanguage_eq he).symm (by simp)

variable {a b c : Action σ Survey} {K L M : Language} {A B C : Prop}

theorem Describes.bind {f : Survey → Action σ Survey} (ha : Describes a K A)
    (hf : ∀ S, S.path.Plain → S.path.language = K → (S.cut = true ↔ A) → Describes (f S) L B) :
    Describes (a >>= f) L B := by
  intro w
  obtain ⟨S, w₁, hS, hplain, hK, hA⟩ := ha w
  obtain ⟨T, w₂, hT, h⟩ := hf S hplain hK hA w₁
  refine ⟨T, w₂, ?_, h⟩
  rw [Action.bind_apply, hS]
  exact hT

theorem Describes.inOrder (ha : Describes a K A) (hb : Describes b L B) :
    Describes (do
      let x ← a
      let y ← b
      return x.inOrder y) (K.followedBy L) (A ∨ B) := by
  refine ha.bind fun x hx hK hA => hb.bind fun y hy hL hB =>
    describes_return (plain_inOrder hx hy) ?_ ?_
  · rw [language_inOrder, hK, hL]
  · rw [Survey.inOrder, Bool.or_eq_true, hA, hB]

theorem Describes.maybe (ha : Describes a K A) (hb : Describes b L B) :
    Describes (do
      let x ← a
      let y ← b
      return x.maybe y) (K.followedBy L.maybe) (A ∨ B) := by
  refine ha.bind fun x hx hK hA => hb.bind fun y hy hL hB =>
    describes_return (plain_maybe hx hy) ?_ ?_
  · rw [language_maybe, hK, hL]
  · rw [Survey.maybe, Bool.or_eq_true, hA, hB]

theorem Describes.oneOf (ha : Describes a K A) (hb : Describes b L B) (hc : Describes c M C) :
    Describes (do
      let x ← a
      let left ← b
      let right ← c
      return x.oneOf left right) (K.followedBy (L.or M)) ((A ∨ B) ∨ C) := by
  refine ha.bind fun x hx hK hA => hb.bind fun y hy hL hB => hc.bind fun z hz hM hC =>
    describes_return (plain_oneOf hx hy hz) ?_ ?_
  · rw [language_oneOf, hK, hL, hM]
  · rw [Survey.oneOf, Bool.or_eq_true, Bool.or_eq_true, hA, hB, hC]

/-- Every route describes what it promises, also where no building operation would have put it. -/
theorem describes_ofTreeWith {deferral : Source P G → Action σ Survey}
    {L : Source P G → Language} {cut : Source P G → Prop}
    (hd : ∀ source, source.Runnable → Describes (deferral source) (L source) (cut source))
    {t : Tree P G} (ht : t.Runnable) :
    Describes (ofTreeWith deferral t) (t.languageWith L) (t.Defers cut) := by
  induction t using Tree.languageWith.induct with
  | case1 v => exact describes_return Path.plain_nothing rfl (by simp [nothing, Tree.Defers])
  | case2 e k =>
    obtain ⟨label, he⟩ := ht
    exact describes_label he
  | case3 t l k route r k' iht ihl ihr => exact (iht ht.1.1).oneOf (ihl ht.1.2) (ihr ht.2)
  | case4 d h k ihd ihh =>
    rw [ofTreeWith_always, Tree.languageWith_always]
    exact (ihd ht.1).inOrder (ihh ht.2)
  | case5 d h k route hexclusive halways ihd ihh =>
    rw [ofTreeWith_maybe hexclusive halways, Tree.languageWith_maybe hexclusive halways]
    exact (ihd ht.1).maybe (ihh ht.2)
  | case6 g k => exact hd (.host g) trivial
  | case7 action k => exact hd (.loop action) ht
  | case8 typeName => exact ht.elim
  | case9 typeName => exact ht.elim

variable [Primitives P]

/-- Surveying a runnable tree gives a path for its language, at every bound. -/
theorem describes_ofTree {gen : G → Action σ (Tree P G)}
    (hgen : ∀ g, ∃ t, t.Runnable ∧ Generates gen g t) (n : Nat) {t : Tree P G}
    (ht : t.Runnable) :
    Describes (ofTree gen false n t) (t.language gen n) (t.Exceeds gen n) := by
  induction n generalizing t with
  | zero =>
    refine describes_ofTreeWith (fun source _ => ?_) ht
    exact describes_return Path.plain_nothing rfl (by simp)
  | succ n ih =>
    refine describes_ofTreeWith (fun source hs => ?_) ht
    obtain ⟨inner, hinner, hexpand⟩ := Source.exists_standsFor hgen hs
    intro w
    obtain ⟨w₁, hw₁⟩ := hexpand w
    obtain ⟨S, w₂, hS, hplain, hlanguage, hcut⟩ := ih hinner w₁
    refine ⟨S, w₂, ?_, hplain, ?_, ?_⟩
    · rw [Action.bind_apply, hw₁]
      exact hS
    · exact hlanguage.trans (hexpand.language_eq w n).symm
    · rw [hcut]
      exact (hexpand.exists_iff (fun inner => inner.Exceeds gen n) w).symm

omit [Primitives P] in
theorem exists_settles_ofTreeWith {deferral : Source P G → Action σ Survey}
    (hd : ∀ source, source.Runnable → ∃ S, (deferral source).Settles S) {t : Tree P G}
    (ht : t.Runnable) : ∃ S, (ofTreeWith deferral t).Settles S := by
  induction t using ofTreeWith.induct with
  | case1 v => exact ⟨_, Action.settles_pure _⟩
  | case2 e k =>
    obtain ⟨label, he⟩ := ht
    rw [ofTreeWith, he]
    exact ⟨_, Action.settles_pure _⟩
  | case3 t l k route r k' iht ihl ihr =>
    obtain ⟨x, hx⟩ := iht ht.1.1
    obtain ⟨left, hl⟩ := ihl ht.1.2
    obtain ⟨right, hr⟩ := ihr ht.2
    exact ⟨_, hx.bind (hl.bind (hr.bind (Action.settles_pure (x.oneOf left right))))⟩
  | case4 d h k ihd ihh =>
    obtain ⟨x, hx⟩ := ihd ht.1
    obtain ⟨y, hy⟩ := ihh ht.2
    rw [ofTreeWith_always]
    exact ⟨_, hx.bind (hy.bind (Action.settles_pure (x.inOrder y)))⟩
  | case5 d h k route hexclusive halways ihd ihh =>
    obtain ⟨x, hx⟩ := ihd ht.1
    obtain ⟨y, hy⟩ := ihh ht.2
    rw [ofTreeWith_maybe hexclusive halways]
    exact ⟨_, hx.bind (hy.bind (Action.settles_pure (x.maybe y)))⟩
  | case6 g k => exact hd (.host g) trivial
  | case7 action k => exact hd (.loop action) ht
  | case8 typeName => exact ht.elim
  | case9 typeName => exact ht.elim

/-- The survey of a runnable tree is the same in every world. -/
theorem exists_settles_ofTree {gen : G → Action σ (Tree P G)}
    (hgen : ∀ g, ∃ t, t.Runnable ∧ Generates gen g t) (n : Nat) {t : Tree P G}
    (ht : t.Runnable) : ∃ S, (ofTree gen false n t).Settles S := by
  induction n generalizing t with
  | zero => exact exists_settles_ofTreeWith (fun _ _ => ⟨_, Action.settles_pure _⟩) ht
  | succ n ih =>
    refine exists_settles_ofTreeWith (fun source hs => ?_) ht
    obtain ⟨inner, hinner, hexpand⟩ := Source.exists_standsFor hgen hs
    obtain ⟨S, hS⟩ := ih hinner
    have hexpand : (source.expand gen).Settles inner := hexpand
    exact ⟨S, hexpand.bind hS⟩

section Viable

theorem viable_inOrder {x y : Survey} (hx : x.path.Viable) (hy : y.path.Viable) :
    (x.inOrder y).path.Viable :=
  Path.viable_seqOf ⟨hx, hy, trivial⟩

theorem viable_maybe {x y : Survey} (hx : x.path.Viable) (hy : y.path.Viable) :
    (x.maybe y).path.Viable :=
  Path.viable_seqOf ⟨hx, Path.viable_altOf ⟨Path.viable_nothing, hy, trivial⟩, trivial⟩

theorem viable_oneOf {x left right : Survey} (hx : x.path.Viable) (hl : left.path.Viable)
    (hr : right.path.Viable) : (x.oneOf left right).path.Viable :=
  Path.viable_seqOf ⟨hx, Path.viable_altOf ⟨hl, hr, trivial⟩, trivial⟩

omit [Primitives P] in
theorem viable_ofTreeWith {deferral : Source P G → Action σ Survey}
    (hd : ∀ source w S w', deferral source w = .ok S w' → S.path.Viable) {t : Tree P G}
    {w w' : σ} {S : Survey} (h : ofTreeWith deferral t w = .ok S w') : S.path.Viable := by
  induction t using ofTreeWith.induct generalizing w w' S with
  | case1 v =>
    cases h
    exact Path.viable_nothing
  | case2 e k =>
    simp only [ofTreeWith, Action.bind_eq_ok_iff] at h
    obtain ⟨label, w₁, -, h⟩ := h
    cases h
    trivial
  | case3 t l k route r k' iht ihl ihr =>
    simp only [ofTreeWith, Action.bind_eq_ok_iff] at h
    obtain ⟨x, w₁, hx, left, w₂, hl, right, w₃, hr, h⟩ := h
    cases h
    exact viable_oneOf (iht hx) (ihl hl) (ihr hr)
  | case4 d h' k ihd ihh =>
    simp only [ofTreeWith_always, Action.bind_eq_ok_iff] at h
    obtain ⟨x, w₁, hx, y, w₂, hy, h⟩ := h
    cases h
    exact viable_inOrder (ihd hx) (ihh hy)
  | case5 d h' k route hexclusive halways ihd ihh =>
    simp only [ofTreeWith_maybe hexclusive halways, Action.bind_eq_ok_iff] at h
    obtain ⟨x, w₁, hx, y, w₂, hy, h⟩ := h
    cases h
    exact viable_maybe (ihd hx) (ihh hy)
  | case6 g k => exact hd (.host g) w S w' h
  | case7 action k => exact hd (.loop action) w S w' h
  | case8 typeName => cases h
  | case9 typeName => cases h

/-- There is a way through the path of a tree, whatever the tree is. -/
theorem viable_ofTree {gen : G → Action σ (Tree P G)} {strict : Bool} {n : Nat} {t : Tree P G}
    {w w' : σ} {S : Survey} (h : ofTree gen strict n t w = .ok S w') : S.path.Viable := by
  induction n generalizing t w w' S with
  | zero =>
    refine viable_ofTreeWith (fun source w S w' hcut => ?_) h
    cases strict <;> cases hcut
    exact Path.viable_nothing
  | succ n ih =>
    refine viable_ofTreeWith (fun source w S w' hinner => ?_) h
    obtain ⟨inner, w₁, -, hinner⟩ := Action.bind_eq_ok_iff.mp hinner
    exact ih hinner

end Viable

end Survey

end SelectiveEffects
