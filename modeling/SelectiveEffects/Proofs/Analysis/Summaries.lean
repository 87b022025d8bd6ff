import SelectiveEffects.Proofs.Analysis.Enumeration
import SelectiveEffects.Proofs.Path.Stacks
import SelectiveEffects.Proofs.Path.Worklist

/-! The summaries of an analysis are exact: they say what its sequences say, without listing
them. -/

namespace SelectiveEffects.Analysis

open Scenario

variable {P G σ : Type} [Primitives P] {gen : G → Action σ (Tree P G)}

/-- However few sequences are listed, the labels are those of the path. -/
theorem labels_possibilitiesOf (cap : Nat) (S : Survey) :
    (possibilitiesOf cap S).labels = S.path.labels :=
  S.path.labels_numbered

theorem necessary_natCast (gen : G → Action σ (Tree P G)) (n : Nat) (t : Tree P G) :
    necessary gen t n = (fun S => S.path.necessary) <$> Survey.ofTree gen false n t := by
  rw [necessary, survey_natCast, map_eq_pure_bind]

/-- The necessary labels of a tree are those on every sequence of what describes its survey. -/
theorem necessary_of_describes {n : Nat} {t : Tree P G} {L : Language} {cut : Prop}
    (h : Survey.Describes (Survey.ofTree gen false n t) L cut) (w : σ) :
    ∃ labels w', necessary gen t n w = .ok labels w' ∧ ∀ l, l ∈ labels ↔ L.Needs l := by
  obtain ⟨S, w', hsurvey, -, hlanguage, -⟩ := h w
  refine ⟨S.path.necessary, w', ?_, fun l => ?_⟩
  · rw [necessary_natCast, map_eq_pure_bind, Action.bind_apply, hsurvey]
    rfl
  · rw [Path.mem_necessary_iff (Survey.viable_ofTree hsurvey), hlanguage]

/-- The necessary labels of a runnable tree are those on every sequence of its language. -/
theorem necessary_exact (hgen : ∀ g, ∃ t, t.Runnable ∧ Generates gen g t) {t : Tree P G}
    (ht : t.Runnable) (n : Nat) (w : σ) :
    ∃ S w', Survey.ofTree gen false n t w = .ok S w' ∧
      necessary gen t n w = .ok S.path.necessary w' ∧ S.path.necessary.Nodup ∧
      ∀ l, l ∈ S.path.necessary ↔ (t.language gen n).Needs l := by
  obtain ⟨S, w', hsurvey, -, hlanguage, -⟩ := Survey.describes_ofTree hgen n ht w
  have hviable := Survey.viable_ofTree hsurvey
  refine ⟨S, w', hsurvey, ?_, Path.nodup_distinct _, fun l => ?_⟩
  · rw [necessary_natCast, map_eq_pure_bind, Action.bind_apply, hsurvey]
    rfl
  · rw [Path.mem_necessary_iff hviable, hlanguage]

/-- A possibility set has the labels that occur on its sequences, listed or not, and the necessary
labels, as the stack of results joins them, are those that occur on all of them. -/
theorem summaries_exact (hgen : ∀ g, ∃ t, t.Runnable ∧ Generates gen g t) {t : Tree P G}
    (ht : t.Runnable) (n : Nat) {cap : Int} (hcap : 0 < cap) (w w₀ : σ) :
    ∃ S w₁ survey w₂, possibilities gen t n false cap w = .ok S w₁ ∧
      Survey.Yields gen false n t w₀ survey w₂ ∧
      necessary gen t n w₀ = .ok survey.path.necessaryByStack w₂ ∧
      S.path.map Path.labelsByStack = some S.labels ∧
      (∀ l, l ∈ S.labels ↔ ∃ s, S.contains s = true ∧ l ∈ s) ∧
      survey.path.necessaryByStack.Nodup ∧
      ∀ l, l ∈ survey.path.necessaryByStack ↔ ∀ s, S.contains s = true → l ∈ s := by
  obtain ⟨all, w₁, hall, hplain, hlanguage, -⟩ := Survey.describes_ofTree hgen n ht w
  obtain ⟨survey, w₂, hsurvey, hnecessary, hnodup, hneeds⟩ := necessary_exact hgen ht n w₀
  have hdenotes := denotes_possibilitiesOf cap.toNat hplain
  refine ⟨possibilitiesOf cap.toNat all, w₁, survey, w₂, possibilities_of_survey hall hcap,
    Survey.yields_of_ofTree hsurvey, ?_, congrArg some (Path.labelsByStack_eq _), fun l => ?_, ?_,
    fun l => ?_⟩
  · rw [survey.path.necessaryByStack_eq]
    exact hnecessary
  · simp only [labels_possibilitiesOf, Path.mem_labels_iff (Survey.viable_ofTree hall),
      hdenotes.contains_iff, Language.Occurs]
  · rw [survey.path.necessaryByStack_eq]
    exact hnodup
  · rw [survey.path.necessaryByStack_eq, hneeds]
    simp only [hdenotes.contains_iff, hlanguage, Language.Needs]

/-- A choice that is made after a question, with room for one of its two sequences. -/
theorem summaries_exact_exclusive :
    let effect (name : String) : Effect Builtin :=
      { className := name, lineage := [name], fields := [], label := .ok name }
    let gen : Unit → Action Nat (Tree Builtin Unit) := fun _ => do
      modify (· + 1)
      return .lift (effect "Right")
    let t : Tree Builtin Unit :=
      .selection (.selection (.lift (effect "Ask")) (.lift (effect "Left")) none .optional)
        (.deferred () none) none .exclusive
    (∀ g, ∃ t, t.Runnable ∧ Generates gen g t) ∧ t.Runnable ∧ (0 : Int) < 1 ∧
      ∃ S w₁ survey w₂, possibilities gen t (1 : Nat) false 1 0 = .ok S w₁ ∧
        Survey.Yields gen false 1 t 0 survey w₂ ∧
        necessary gen t (1 : Nat) 0 = .ok survey.path.necessaryByStack w₂ ∧
        S.path.map Path.labelsByStack = some S.labels ∧
        (∀ l, l ∈ S.labels ↔ ∃ s, S.contains s = true ∧ l ∈ s) ∧
        survey.path.necessaryByStack.Nodup ∧
        ∀ l, l ∈ survey.path.necessaryByStack ↔ ∀ s, S.contains s = true → l ∈ s := by
  intro effect gen t
  have hgen (g : Unit) : ∃ t, t.Runnable ∧ Generates gen g t :=
    ⟨.lift (effect "Right"), ⟨"Right", rfl⟩, fun w => ⟨w + 1, rfl⟩⟩
  have ht : t.Runnable := ⟨⟨⟨"Ask", rfl⟩, ⟨"Left", rfl⟩⟩, trivial⟩
  have hcap : (0 : Int) < 1 := by decide
  exact ⟨hgen, ht, hcap, summaries_exact hgen ht 1 hcap 0 0⟩

end SelectiveEffects.Analysis
