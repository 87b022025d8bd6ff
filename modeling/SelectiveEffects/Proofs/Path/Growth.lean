import SelectiveEffects.Proofs.Path.OfTree

/-! Expanding deferred nodes further only adds labels to what a tree may perform: where a node was
left out, the empty sequence stood for it. -/

namespace SelectiveEffects

/-- Every sequence of the first language is one of the second with labels added to it. -/
def Language.Extends (K L : Language) : Prop :=
  ∀ s, K s → ∃ r, r.Sublist s ∧ L r

namespace Language

variable {K K' L L' : Language}

theorem extends_refl (K : Language) : K.Extends K :=
  fun s hs => ⟨s, List.Sublist.refl s, hs⟩

theorem extends_nothing (K : Language) : K.Extends nothing :=
  fun s _ => ⟨[], List.nil_sublist s, rfl⟩

theorem Extends.followedBy (hK : K.Extends K') (hL : L.Extends L') :
    (K.followedBy L).Extends (K'.followedBy L') := by
  rintro s ⟨a, b, rfl, ha, hb⟩
  obtain ⟨a', ha', hKa⟩ := hK a ha
  obtain ⟨b', hb', hLb⟩ := hL b hb
  exact ⟨a' ++ b', ha'.append hb', a', b', rfl, hKa, hLb⟩

theorem Extends.or (hK : K.Extends K') (hL : L.Extends L') : (K.or L).Extends (K'.or L') := by
  rintro s (hs | hs)
  · obtain ⟨r, hr, h⟩ := hK s hs
    exact ⟨r, hr, .inl h⟩
  · obtain ⟨r, hr, h⟩ := hL s hs
    exact ⟨r, hr, .inr h⟩

/-- The first language comes from the second by adding labels to its sequences: each is reached from
one of the second, and none of the second is lost. -/
structure GrowsFrom (K L : Language) : Prop where
  adds : K.Extends L
  keeps : ∀ r, L r → ∃ s, r.Sublist s ∧ K s

theorem growsFrom_refl (K : Language) : K.GrowsFrom K :=
  ⟨extends_refl K, fun r hr => ⟨r, List.Sublist.refl r, hr⟩⟩

theorem growsFrom_nothing (h : ∃ s, K s) : K.GrowsFrom nothing := by
  refine ⟨extends_nothing K, ?_⟩
  rintro r rfl
  obtain ⟨s, hs⟩ := h
  exact ⟨s, List.nil_sublist s, hs⟩

theorem GrowsFrom.followedBy (hK : K.GrowsFrom K') (hL : L.GrowsFrom L') :
    (K.followedBy L).GrowsFrom (K'.followedBy L') := by
  refine ⟨hK.adds.followedBy hL.adds, ?_⟩
  rintro r ⟨a, b, rfl, ha, hb⟩
  obtain ⟨a', ha', hKa⟩ := hK.keeps a ha
  obtain ⟨b', hb', hLb⟩ := hL.keeps b hb
  exact ⟨a' ++ b', ha'.append hb', a', b', rfl, hKa, hLb⟩

theorem GrowsFrom.or (hK : K.GrowsFrom K') (hL : L.GrowsFrom L') :
    (K.or L).GrowsFrom (K'.or L') := by
  refine ⟨hK.adds.or hL.adds, ?_⟩
  rintro r (hr | hr)
  · obtain ⟨s, hs, h⟩ := hK.keeps r hr
    exact ⟨s, hs, .inl h⟩
  · obtain ⟨s, hs, h⟩ := hL.keeps r hr
    exact ⟨s, hs, .inr h⟩

/-- A label that may occur may still occur after growth. -/
theorem GrowsFrom.occurs {l : String} (h : K.GrowsFrom L) (hl : L.Occurs l) : K.Occurs l := by
  obtain ⟨r, hr, hmem⟩ := hl
  obtain ⟨s, hsub, hs⟩ := h.keeps r hr
  exact ⟨s, hs, hsub.subset hmem⟩

/-- A label that is needed is still needed after growth. -/
theorem GrowsFrom.needs {l : String} (h : K.GrowsFrom L) (hl : L.Needs l) : K.Needs l := by
  intro s hs
  obtain ⟨r, hsub, hr⟩ := h.adds s hs
  exact hsub.subset (hl r hr)

theorem Needs.occurs {l : String} (h : K.Needs l) (hK : ∃ s, K s) : K.Occurs l := by
  obtain ⟨s, hs⟩ := hK
  exact ⟨s, hs, h s hs⟩

end Language

namespace Tree

variable {P G : Type}

/-- Whatever the route, the language of a tree grows with those of its deferred nodes. -/
theorem growsFrom_languageWith {K L : Source P G → Language}
    (h : ∀ source, source.Runnable → (K source).GrowsFrom (L source)) {t : Tree P G}
    (ht : t.Runnable) : (t.languageWith K).GrowsFrom (t.languageWith L) := by
  induction t using languageWith.induct with
  | case1 v => exact Language.growsFrom_refl _
  | case2 e k => exact Language.growsFrom_refl _
  | case3 t l k route r k' iht ihl ihr =>
    exact (iht ht.1.1).followedBy ((ihl ht.1.2).or (ihr ht.2))
  | case4 d h k ihd ihh =>
    rw [languageWith_always, languageWith_always]
    exact (ihd ht.1).followedBy (ihh ht.2)
  | case5 d h k route hexclusive halways ihd ihh =>
    rw [languageWith_maybe hexclusive halways, languageWith_maybe hexclusive halways]
    exact (ihd ht.1).followedBy ((Language.growsFrom_refl _).or (ihh ht.2))
  | case6 g k => exact h (.host g) trivial
  | case7 action k => exact h (.loop action) ht
  | case8 typeName => exact ht.elim
  | case9 typeName => exact ht.elim

variable {σ : Type} [Primitives P]

theorem exists_language {gen : G → Action σ (Tree P G)}
    (hgen : ∀ g, ∃ t, t.Runnable ∧ Generates gen g t) (n : Nat) {t : Tree P G} (ht : t.Runnable)
    (w : σ) : ∃ s, t.language gen n s := by
  obtain ⟨S, w', hS, -, hlanguage, -⟩ := Survey.describes_ofTree hgen n ht w
  rw [← hlanguage]
  exact (Survey.viable_ofTree hS).exists_language

/-- A larger bound grows the language of a tree. -/
theorem growsFrom_language {gen : G → Action σ (Tree P G)}
    (hgen : ∀ g, ∃ t, t.Runnable ∧ Generates gen g t) {n N : Nat} (hnN : n ≤ N) {t : Tree P G}
    (ht : t.Runnable) (w : σ) : (t.language gen N).GrowsFrom (t.language gen n) := by
  induction n generalizing N t with
  | zero =>
    cases N with
    | zero => exact Language.growsFrom_refl _
    | succ N =>
      refine growsFrom_languageWith (fun source hs => Language.growsFrom_nothing ?_) ht
      obtain ⟨inner, hinner, hexpand⟩ := Source.exists_standsFor hgen hs
      rw [hexpand.language_eq w N]
      exact exists_language hgen N hinner w
  | succ n ih =>
    obtain ⟨N, rfl⟩ : ∃ M, N = M + 1 := ⟨N - 1, by omega⟩
    refine growsFrom_languageWith (fun source hs => ?_) ht
    obtain ⟨inner, hinner, hexpand⟩ := Source.exists_standsFor hgen hs
    rw [hexpand.language_eq w N, hexpand.language_eq w n]
    exact ih (Nat.le_of_succ_le_succ hnN) hinner

end Tree

end SelectiveEffects
