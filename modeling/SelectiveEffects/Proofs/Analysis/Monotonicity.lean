import SelectiveEffects.Proofs.Analysis.Listing
import SelectiveEffects.Proofs.Analysis.Summaries
import SelectiveEffects.Proofs.Path.Growth

/-! A larger bound only adds labels to the summaries of a tree, although its sequences change. -/

namespace SelectiveEffects.Analysis

open Scenario

variable {P G σ : Type} [Primitives P] {gen : G → Action σ (Tree P G)}

/-- From any world, both summaries come to labels of the language: those that may occur, and those
that every sequence needs. -/
theorem exists_summaries (hgen : ∀ g, ∃ t, t.Runnable ∧ Generates gen g t) {t : Tree P G}
    (ht : t.Runnable) (n : Nat) (w : σ) :
    ∃ possible needed, (dependencies gen t n).Settles possible ∧
      (necessary gen t n).Settles needed ∧
      (∀ l, l ∈ possible ↔ (t.language gen n).Occurs l) ∧
      ∀ l, l ∈ needed ↔ (t.language gen n).Needs l := by
  obtain ⟨S, hS⟩ := Survey.exists_settles_ofTree hgen n ht
  obtain ⟨S', w', hsurvey, -, hlanguage, -⟩ := Survey.describes_ofTree hgen n ht w
  obtain rfl := hS.unique hsurvey
  have hviable := Survey.viable_ofTree hsurvey
  refine ⟨S'.path.labels, S'.path.necessary, ?_, ?_, fun l => ?_, fun l => ?_⟩
  · rw [dependencies_natCast, foldUpTo_listing hgen n ht]
    exact (hS.map _).map _
  · rw [necessary_natCast]
    exact hS.map _
  · rw [Path.mem_labels_iff hviable, hlanguage]
  · rw [Path.mem_necessary_iff hviable, hlanguage]

/-- With a larger bound, no label that could be performed and none that is needed is lost, and what
is needed could always be performed. -/
theorem summaries_grow (hgen : ∀ g, ∃ t, t.Runnable ∧ Generates gen g t) {t : Tree P G}
    (ht : t.Runnable) {n m : Nat} (hnm : n ≤ m) (w : σ) :
    ∃ possible possible' needed needed',
      (dependencies gen t n).Settles possible ∧ (dependencies gen t m).Settles possible' ∧
      (necessary gen t n).Settles needed ∧ (necessary gen t m).Settles needed' ∧
      possible ⊆ possible' ∧ needed ⊆ needed' ∧ needed' ⊆ possible' := by
  obtain ⟨possible, needed, hpossible, hneeded, hoccurs, hneeds⟩ := exists_summaries hgen ht n w
  obtain ⟨possible', needed', hpossible', hneeded', hoccurs', hneeds'⟩ :=
    exists_summaries hgen ht m w
  have hgrows := Tree.growsFrom_language hgen hnm ht w
  refine ⟨possible, possible', needed, needed', hpossible, hpossible', hneeded, hneeded',
    fun l hl => ?_, fun l hl => ?_, fun l hl => ?_⟩
  · exact (hoccurs' l).mpr (hgrows.occurs ((hoccurs l).mp hl))
  · exact (hneeds' l).mpr (hgrows.needs ((hneeds l).mp hl))
  · exact (hoccurs' l).mpr (((hneeds' l).mp hl).occurs (Tree.exists_language hgen m ht w))

/-- A loop that asks before each turn, before its first turn and after two. What was not seen at first
is seen then. -/
theorem summaries_grow_loop :
    let ask : Effect Builtin :=
      { className := "Ask", lineage := ["Ask"], fields := [], label := .ok "Ask" }
    let gen : Unit → Action Nat (Tree Builtin Unit) := fun _ => do
      modify (· + 1)
      return .loop (.lift ask) none
    let t : Tree Builtin Unit := .deferred () none
    (∀ g, ∃ t, t.Runnable ∧ Generates gen g t) ∧ t.Runnable ∧ 0 ≤ 3 ∧
      ∃ possible possible' needed needed',
        (dependencies gen t (0 : Nat)).Settles possible ∧
        (dependencies gen t (3 : Nat)).Settles possible' ∧
        (necessary gen t (0 : Nat)).Settles needed ∧ (necessary gen t (3 : Nat)).Settles needed' ∧
        possible ⊆ possible' ∧ needed ⊆ needed' ∧ needed' ⊆ possible' ∧
        possible = [] ∧ possible' = ["Ask"] ∧ needed = [] ∧ needed' = ["Ask"] := by
  intro ask gen t
  have hgen (g : Unit) : ∃ t, t.Runnable ∧ Generates gen g t :=
    ⟨.loop (.lift ask) none, ⟨rfl, "Ask", rfl⟩, fun w => ⟨w + 1, rfl⟩⟩
  have ht : t.Runnable := trivial
  have hbounds : 0 ≤ 3 := by decide
  obtain ⟨_, _, _, _, hpossible, hpossible', hneeded, hneeded', hgrows, hgrows', hwithin⟩ :=
    summaries_grow hgen ht hbounds 0
  have hseen : dependencies gen t (0 : Nat) 0 = .ok [] 0 := rfl
  have hseen' : dependencies gen t (3 : Nat) 0 = .ok ["Ask"] 1 := rfl
  have hcertain : necessary gen t (0 : Nat) 0 = .ok [] 0 := rfl
  have hcertain' : necessary gen t (3 : Nat) 0 = .ok ["Ask"] 1 := rfl
  exact ⟨hgen, ht, hbounds, _, _, _, _, hpossible, hpossible', hneeded, hneeded', hgrows, hgrows',
    hwithin, (hpossible.unique hseen).symm, (hpossible'.unique hseen').symm,
    (hneeded.unique hcertain).symm, (hneeded'.unique hcertain').symm⟩

end SelectiveEffects.Analysis
