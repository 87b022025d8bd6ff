import Mathlib.Data.Set.Card
import SelectiveEffects.Proofs.Analysis.Soundness
import SelectiveEffects.Proofs.Path.Enumeration

/-! The possibility analysis computes the language of a tree, up to its two bounds. -/

namespace SelectiveEffects

open Scenario

/-- A collection of what it was fed: distinct sequences, and all of them unless one was refused. -/
structure Collected.Tallies (cap : Nat) (fed : List (List String)) (c : Collected) : Prop where
  mem_found : ∀ s, c.found.contains s = true ↔ s ∈ c.order
  size_found : c.found.size = c.order.length
  nodup : c.order.Nodup
  subset : ∀ s ∈ c.order, s ∈ fed
  le_cap : c.order.length ≤ cap
  complete : c.capped = false → ∀ s ∈ fed, s ∈ c.order
  full : c.capped = true → c.order.length = cap ∧ ∃ s ∈ fed, s ∉ c.order

namespace Collected

variable {cap : Nat} {fed : List (List String)} {c : Collected}

theorem tallies_nil (cap : Nat) : Tallies cap [] {} where
  mem_found s := by simp
  size_found := by simp
  nodup := List.nodup_nil
  subset s h := by simp at h
  le_cap := Nat.zero_le cap
  complete _ s h := by simp at h
  full h := by simp at h

/-- A collection that refused a sequence looks at no other. -/
theorem Tallies.mono (h : Tallies cap fed c) (hc : c.capped = true) {fed' : List (List String)}
    (hfed : ∀ s ∈ fed, s ∈ fed') : Tallies cap fed' c where
  mem_found := h.mem_found
  size_found := h.size_found
  nodup := h.nodup
  subset s hs := hfed s (h.subset s hs)
  le_cap := h.le_cap
  complete hc' := by simp [hc] at hc'
  full hc' := by
    obtain ⟨hlength, s, hs, hnot⟩ := h.full hc'
    exact ⟨hlength, s, hfed s hs, hnot⟩

/-- A sequence met again changes nothing. -/
theorem Tallies.again (h : Tallies cap fed c) {s : List String} (hs : s ∈ c.order) :
    Tallies cap (fed ++ [s]) c where
  mem_found := h.mem_found
  size_found := h.size_found
  nodup := h.nodup
  subset s' hs' := List.mem_append_left _ (h.subset s' hs')
  le_cap := h.le_cap
  complete hc s' hs' := by
    rcases List.mem_append.mp hs' with hs' | hs'
    · exact h.complete hc s' hs'
    · exact List.mem_singleton.mp hs' ▸ hs
  full hc := by
    obtain ⟨hlength, s', hs', hnot⟩ := h.full hc
    exact ⟨hlength, s', List.mem_append_left _ hs', hnot⟩

theorem Tallies.refuse (h : Tallies cap fed c) {s : List String} (hs : s ∉ c.order)
    (hcap : cap ≤ c.order.length) : Tallies cap (fed ++ [s]) { c with capped := true } where
  mem_found := h.mem_found
  size_found := h.size_found
  nodup := h.nodup
  subset s' hs' := List.mem_append_left _ (h.subset s' hs')
  le_cap := h.le_cap
  complete hc := by simp at hc
  full _ := ⟨Nat.le_antisymm h.le_cap hcap, s, by simp, hs⟩

theorem Tallies.insert (h : Tallies cap fed c) (hc : c.capped = false) {s : List String}
    (hs : s ∉ c.order) (hcap : c.order.length < cap) :
    Tallies cap (fed ++ [s]) { c with found := c.found.insert s, order := s :: c.order } where
  mem_found s' := by
    rw [Std.HashSet.contains_insert, Bool.or_eq_true, beq_iff_eq, h.mem_found, List.mem_cons,
      eq_comm]
  size_found := by
    have hnot : s ∉ c.found := fun hmem => hs ((h.mem_found s).mp hmem)
    rw [Std.HashSet.size_insert, if_neg hnot, h.size_found, List.length_cons]
  nodup := List.nodup_cons.mpr ⟨hs, h.nodup⟩
  subset s' hs' := by
    rcases List.mem_cons.mp hs' with rfl | hs'
    · simp
    · exact List.mem_append_left _ (h.subset s' hs')
  le_cap := hcap
  complete _ s' hs' := by
    rcases List.mem_append.mp hs' with hs' | hs'
    · exact List.mem_cons_of_mem _ (h.complete hc s' hs')
    · exact List.mem_singleton.mp hs' ▸ List.mem_cons_self
  full hc' := by simp [hc] at hc'

theorem Tallies.step (h : Tallies cap fed c) (hc : c.capped = false) (s : List String) :
    match c.step cap s with
    | .yield c' => Tallies cap (fed ++ [s]) c' ∧ c'.capped = false
    | .done c' => Tallies cap (fed ++ [s]) c' ∧ c'.capped = true := by
  unfold Collected.step
  by_cases hs : c.found.contains s = true
  · rw [if_pos hs]
    exact ⟨h.again ((h.mem_found s).mp hs), hc⟩
  · have hnew : s ∉ c.order := fun hmem => hs ((h.mem_found s).mpr hmem)
    rw [if_neg hs]
    by_cases hcap : cap ≤ c.found.size
    · rw [if_pos hcap]
      exact ⟨h.refuse hnew (h.size_found ▸ hcap), rfl⟩
    · rw [if_neg hcap]
      exact ⟨h.insert hc hnew (by rw [← h.size_found]; omega), hc⟩

theorem Tallies.feedAll (h : Tallies cap fed c) (hc : c.capped = false) (ls : List (List String)) :
    Tallies cap (fed ++ ls) (Path.feedAll (Collected.step cap) ls c) := by
  induction ls generalizing fed c with
  | nil => rwa [List.append_nil]
  | cons s ls ih =>
    have hs := h.step hc s
    rw [List.append_cons, Path.feedAll]
    cases hstep : c.step cap s with
    | done c' =>
      rw [hstep] at hs
      exact hs.1.mono hs.2 fun s' hs' => List.mem_append_left _ hs'
    | yield c' =>
      rw [hstep] at hs
      exact ih hs.1 hs.2

/-- The sequences kept, and one more if some are missing, are among those fed. -/
theorem Tallies.counts (h : Tallies cap fed c) :
    c.order.length = min cap fed.toFinset.card ∧ (c.capped = true ↔ cap < fed.toFinset.card) := by
  have hsubset : c.order.toFinset ⊆ fed.toFinset := fun s hs =>
    List.mem_toFinset.mpr (h.subset s (List.mem_toFinset.mp hs))
  have hcard : c.order.toFinset.card = c.order.length := List.toFinset_card_of_nodup h.nodup
  have hle := h.le_cap
  by_cases hc : c.capped = true
  · obtain ⟨hlength, s, hs, hnot⟩ := h.full hc
    have hssubset : c.order.toFinset ⊂ fed.toFinset :=
      (Finset.ssubset_iff_of_subset hsubset).mpr
        ⟨s, List.mem_toFinset.mpr hs, fun hmem => hnot (List.mem_toFinset.mp hmem)⟩
    have hlt := Finset.card_lt_card hssubset
    simp only [hc, true_iff]
    omega
  · rw [Bool.not_eq_true] at hc
    have hall : fed.toFinset ⊆ c.order.toFinset := fun s hs =>
      List.mem_toFinset.mpr (h.complete hc s (List.mem_toFinset.mp hs))
    have hge := Finset.card_le_card hall
    have hlt := Finset.card_le_card hsubset
    simp only [hc, Bool.false_eq_true, false_iff]
    omega

end Collected

theorem Analysis.tallies_collect (cap : Nat) (p : Path) :
    Collected.Tallies cap p.sequences (collect cap p) := by
  rw [collect, Path.feed_eq]
  exact (Collected.tallies_nil cap).feedAll rfl p.sequences

/-- A possibility set stands for a finite language: it recognises just the sequences of the language,
lists as many of them as the cap allows, and says whether anything was left out. -/
structure PossibilitySet.Denotes (S : PossibilitySet) (L : Language) (cap : Nat) (cut : Prop) :
    Prop where
  contains_iff : ∀ s, S.contains s = true ↔ L s
  finite : {s | L s}.Finite
  nodup : S.sequences.Nodup
  subset : ∀ s ∈ S.sequences, L s
  length_sequences : S.sequences.length = min cap {s | L s}.ncard
  truncated_iff : S.truncated = true ↔ cut ∨ cap < {s | L s}.ncard

/-- A deferred node stands for what it generates, with one expansion less to spend. -/
theorem Tree.language_deferred {P G σ : Type} [Primitives P] {gen : G → Action σ (Tree P G)} {g : G}
    {t : Tree P G} (ht : t.isNode = true) (hg : Generates gen g t) (w : σ) (n : Nat) (k : Post P) :
    (deferred g k).language gen (n + 1) = t.language gen n := by
  funext s
  refine propext ⟨?_, fun hs => ?_⟩
  · rintro ⟨w₁, inner, w₂, hinner, hs⟩
    obtain ⟨w₃, hw⟩ := hg w₁
    cases hw.symm.trans (Source.expand_host_eq_ok_iff.mp hinner).1
    exact hs
  · obtain ⟨w₁, hw⟩ := hg w
    exact ⟨w, t, w₁, Source.expand_host_eq_ok_iff.mpr ⟨hw, ht⟩, hs⟩

namespace Analysis

variable {P G σ : Type} [Primitives P]

theorem denotes_possibilitiesOf (cap : Nat) {S : Survey} (hS : S.path.Plain) :
    (possibilitiesOf cap S).Denotes S.path.language cap (S.cut = true) := by
  have haccepts (s : List String) : S.path.numbered.accepts s = true ↔ S.path.language s :=
    Path.accepts_numbered hS s
  have hmem (s : List String) : s ∈ S.path.numbered.sequences ↔ S.path.language s :=
    (Path.mem_sequences_iff _ s).trans (haccepts s)
  have hset : {s | S.path.language s} = ↑S.path.numbered.sequences.toFinset := by
    ext s
    simp [hmem]
  have htallies := tallies_collect cap S.path.numbered
  have hcounts := htallies.counts
  have hlisted (s : List String) (hs : s ∈ (possibilitiesOf cap S).sequences) :
      S.path.language s :=
    (hmem s).mp (htallies.subset s (List.mem_reverse.mp hs))
  refine ⟨fun s => ?_, ?_, ?_, hlisted, ?_, ?_⟩
  · have hpath : (possibilitiesOf cap S).path = some S.path.numbered := rfl
    rw [PossibilitySet.contains, Bool.or_eq_true, List.contains_iff_mem, hpath, Option.any_some,
      haccepts s]
    exact or_iff_right_of_imp (hlisted s)
  · rw [hset]
    exact Finset.finite_toSet _
  · exact List.nodup_reverse.mpr htallies.nodup
  · rw [hset, Set.ncard_coe_finset]
    exact List.length_reverse.trans hcounts.1
  · rw [hset, Set.ncard_coe_finset, ← hcounts.2, PossibilitySet.truncated, Bool.or_eq_true]
    rfl

/-- The possibility set of a tree stands for the language that describes its survey. -/
theorem denotes_of_describes {gen : G → Action σ (Tree P G)} {n : Nat} {t : Tree P G}
    {L : Language} {cut : Prop} (h : Survey.Describes (Survey.ofTree gen false n t) L cut)
    {cap : Int} (hcap : 0 < cap) (w : σ) :
    ∃ S w', possibilities gen t n false cap w = .ok S w' ∧ S.Denotes L cap.toNat cut := by
  obtain ⟨survey, w', hsurvey, hplain, hlanguage, hcut⟩ := h w
  refine ⟨_, w', possibilities_of_survey hsurvey hcap, ?_⟩
  have hdenotes := denotes_possibilitiesOf cap.toNat hplain
  rw [hlanguage, hcut] at hdenotes
  exact hdenotes

/-- The analysis of a runnable tree computes its language. Thunks may leave their mark on the world,
but give the same runnable tree whenever they are forced. -/
theorem possibilities_denote {gen : G → Action σ (Tree P G)}
    (hgen : ∀ g, ∃ t, t.Runnable ∧ Generates gen g t) {t : Tree P G} (ht : t.Runnable)
    (n : Nat) {cap : Nat} (hcap : 0 < cap) (w : σ) :
    ∃ S w', possibilities gen t n false cap w = .ok S w' ∧
      S.Denotes (t.language gen n) cap (t.Exceeds gen n) := by
  obtain ⟨survey, w', hsurvey, hplain, hlanguage, hcut⟩ := Survey.describes_ofTree hgen n ht w
  refine ⟨_, w', possibilities_of_survey hsurvey (by omega), ?_⟩
  have hdenotes := denotes_possibilitiesOf cap hplain
  rw [hlanguage, hcut] at hdenotes
  exact hdenotes

/-- An exclusive choice of which one side is deferred, with room for one of its two sequences. -/
theorem possibilities_denote_exclusive :
    let effect (name : String) : Effect Builtin :=
      { className := name, lineage := [name], fields := [], label := .ok name }
    let gen : Unit → Action Nat (Tree Builtin Unit) := fun _ => do
      modify (· + 1)
      return .lift (effect "Right")
    let t : Tree Builtin Unit :=
      .selection (.selection (.lift (effect "Ask")) (.lift (effect "Left")) none .optional)
        (.deferred () none) none .exclusive
    (∀ g, ∃ t, t.Runnable ∧ Generates gen g t) ∧ t.Runnable ∧ 0 < 1 ∧
      ∃ S w', possibilities gen t (1 : Nat) false (1 : Nat) 0 = .ok S w' ∧
        (∀ s, S.contains s = true ↔ s = ["Ask", "Left"] ∨ s = ["Ask", "Right"]) ∧
        S.sequences.length = 1 ∧ S.truncated = true := by
  intro effect gen t
  have hgenerates : Generates gen () (.lift (effect "Right")) := fun w => ⟨w + 1, rfl⟩
  have hright : (Tree.lift (effect "Right") : Tree Builtin Unit).Runnable := ⟨"Right", rfl⟩
  have hgen (g : Unit) : ∃ t, t.Runnable ∧ Generates gen g t := ⟨_, hright, hgenerates⟩
  have ht : t.Runnable := ⟨⟨⟨"Ask", rfl⟩, ⟨"Left", rfl⟩⟩, trivial⟩
  have hcap : 0 < 1 := by decide
  have hlabel (name : String) : (Tree.lift (effect name) : Tree Builtin Unit).language gen 0 =
      .single name := Tree.labelLanguage_eq rfl
  have hlanguage : t.language gen 1 = fun s => s = ["Ask", "Left"] ∨ s = ["Ask", "Right"] := by
    have hroot : t.language gen 1 = ((Tree.lift (effect "Ask")).language gen 0).followedBy
        (((Tree.lift (effect "Left")).language gen 0).or
          ((Tree.deferred () none).language gen 1)) := rfl
    have hdeferred : (Tree.deferred () none).language gen 1 = .single "Right" :=
      (Tree.language_deferred rfl hgenerates 0 0 none).trans (hlabel "Right")
    rw [hroot, hlabel, hlabel, hdeferred, Language.followedBy_or]
    funext s
    simp [Language.or, Language.followedBy, Language.single]
  obtain ⟨S, w', hS, hdenotes⟩ := possibilities_denote hgen ht 1 hcap 0
  have hcount : {s | t.language gen 1 s}.ncard = 2 := by
    rw [hlanguage]
    exact Set.ncard_pair (by decide)
  refine ⟨hgen, ht, hcap, S, w', hS, fun s => ?_, ?_, ?_⟩
  · rw [hdenotes.contains_iff, hlanguage]
  · rw [hdenotes.length_sequences, hcount]
    rfl
  · rw [hdenotes.truncated_iff, hcount]
    exact .inr (by decide)

end Analysis

end SelectiveEffects
