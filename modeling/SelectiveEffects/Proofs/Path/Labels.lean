import SelectiveEffects.Proofs.Path.Numbering

/-! The labels of a path: those that occur on some sequence of it, and those on every one. -/

namespace SelectiveEffects

namespace Language

/-- The label is on some sequence of the language. -/
def Occurs (L : Language) (l : String) : Prop :=
  ∃ s, L s ∧ l ∈ s

/-- The label is on every sequence of the language. -/
def Needs (L : Language) (l : String) : Prop :=
  ∀ s, L s → l ∈ s

variable {K L : Language} {l : String}

theorem occurs_single {label : String} : (single label).Occurs l ↔ l = label := by
  simp [Occurs, single]

theorem occurs_or : (K.or L).Occurs l ↔ K.Occurs l ∨ L.Occurs l := by
  simp only [Occurs, or, or_and_right, exists_or]

theorem occurs_followedBy (hK : ∃ s, K s) (hL : ∃ s, L s) :
    (K.followedBy L).Occurs l ↔ K.Occurs l ∨ L.Occurs l := by
  constructor
  · rintro ⟨_, ⟨a, b, rfl, ha, hb⟩, hl⟩
    exact (List.mem_append.mp hl).imp (fun h => ⟨a, ha, h⟩) fun h => ⟨b, hb, h⟩
  · rintro (⟨a, ha, h⟩ | ⟨b, hb, h⟩)
    · obtain ⟨b, hb⟩ := hL
      exact ⟨a ++ b, ⟨a, b, rfl, ha, hb⟩, List.mem_append_left b h⟩
    · obtain ⟨a, ha⟩ := hK
      exact ⟨a ++ b, ⟨a, b, rfl, ha, hb⟩, List.mem_append_right a h⟩

theorem needs_single {label : String} : (single label).Needs l ↔ l = label := by
  simp [Needs, single]

theorem needs_or : (K.or L).Needs l ↔ K.Needs l ∧ L.Needs l := by
  simp only [Needs, or, or_imp, forall_and]

/-- A label that is on every sequence of one language after another is on every sequence of the
first or on every sequence of the second: two sequences without it could be put together. -/
theorem needs_followedBy : (K.followedBy L).Needs l ↔ K.Needs l ∨ L.Needs l := by
  constructor
  · intro h
    by_cases hneeds : K.Needs l
    · exact .inl hneeds
    · obtain ⟨a, hnot⟩ := Classical.not_forall.mp hneeds
      obtain ⟨ha, hla⟩ := Classical.not_imp.mp hnot
      refine .inr fun b hb => ?_
      have hmem : l ∈ a ++ b := h (a ++ b) ⟨a, b, rfl, ha, hb⟩
      exact (List.mem_append.mp hmem).resolve_left hla
  · rintro (h | h) _ ⟨a, b, rfl, ha, hb⟩
    · exact List.mem_append_left b (h a ha)
    · exact List.mem_append_right a (h b hb)

end Language

namespace Path

theorem mem_distinct {l : String} {ls : List String} : l ∈ distinct ls ↔ l ∈ ls := by
  induction ls with
  | nil => rfl
  | cons l' ls ih =>
    rw [distinct, List.mem_cons, List.mem_filter, ih, List.mem_cons]
    by_cases h : l = l' <;> simp [h]

theorem nodup_distinct (ls : List String) : (distinct ls).Nodup := by
  induction ls with
  | nil => exact List.nodup_nil
  | cons l ls ih => exact List.nodup_cons.mpr ⟨by simp, ih.filter _⟩

theorem mem_common_iff {l : String} {lists : List (List String)} (h : lists ≠ []) :
    l ∈ common lists ↔ ∀ ls ∈ lists, l ∈ ls := by
  cases lists with
  | nil => exact absurd rfl h
  | cons first rest => simp [common, List.all_eq_true]

theorem leavesAll_eq (ps : List Path) : leavesAll ps = ps.flatMap leaves := by
  induction ps with
  | nil => rfl
  | cons p ps ih => rw [leavesAll, ih, List.flatMap_cons]

theorem requiredAll_eq (ps : List Path) : requiredAll ps = ps.map required := by
  induction ps with
  | nil => rfl
  | cons p ps ih => rw [requiredAll, ih, List.map_cons]

theorem leaves_of_isNothing {p : Path} (h : p.isNothing = true) : p.leaves = [] := by
  cases p with
  | empty tag => rfl
  | _ => cases h

/-- Flattening splices a sequence, drops the shared empty path, and leaves all others as they
are. -/
theorem flattened_cases (p : Path) :
    (∃ tag, p = seq tag p.flattened) ∨ (p = nothing ∧ p.flattened = []) ∨ p.flattened = [p] := by
  cases p with
  | seq tag ps => exact .inl ⟨tag, rfl⟩
  | empty tag =>
    cases tag with
    | zero => exact .inr (.inl ⟨rfl, rfl⟩)
    | succ tag => exact .inr (.inr rfl)
  | step tag l => exact .inr (.inr rfl)
  | alt tag ps => exact .inr (.inr rfl)

theorem leavesAll_flattened (p : Path) : leavesAll p.flattened = p.leaves := by
  obtain ⟨tag, hp⟩ | ⟨rfl, -⟩ | h := flattened_cases p
  · exact (congrArg leaves hp).symm
  · rfl
  · rw [h]
    exact List.append_nil p.leaves

/-- Splicing sequences and dropping empty ones leaves the labels where they were. -/
theorem leaves_seqOf (tag : Nat) (parts : List Path) :
    (seqOf tag parts).leaves = leavesAll parts := by
  have hparts : leavesAll (parts.flatMap flattened) = leavesAll parts := by
    simp only [leavesAll_eq, List.flatMap_assoc]
    exact congrArg parts.flatMap (funext fun p => leavesAll_eq p.flattened ▸ leavesAll_flattened p)
  rw [← hparts, seqOf]
  split
  · rename_i h
    rw [h]
    rfl
  · rename_i p h
    rw [h]
    exact (List.append_nil p.leaves).symm
  · rfl

theorem leavesAll_withoutRepeats (seen : Bool) (ps : List Path) :
    leavesAll (withoutRepeats seen ps) = leavesAll ps := by
  induction ps generalizing seen with
  | nil => rfl
  | cons p ps ih =>
    by_cases hp : p.isNothing = true
    · cases seen <;> simp [withoutRepeats, hp, leavesAll, ih, leaves_of_isNothing hp]
    · simp [withoutRepeats, hp, leavesAll, ih]

theorem leaves_altOf (tag : Nat) (options : List Path) :
    (altOf tag options).leaves = leavesAll options := by
  rw [← leavesAll_withoutRepeats false options, altOf]
  split
  · rename_i p h
    rw [h]
    exact (List.append_nil p.leaves).symm
  · rfl

mutual

theorem leaves_number (p : Path) (next : Nat) : (p.number next).1.leaves = p.leaves := by
  cases p with
  | empty tag => rfl
  | step tag l => rfl
  | seq tag ps => exact leavesAll_numberAll ps (next + 1)
  | alt tag ps => exact leavesAll_numberAll ps (next + 1)

theorem leavesAll_numberAll (ps : List Path) (next : Nat) :
    leavesAll (numberAll next ps).1 = leavesAll ps := by
  cases ps with
  | nil => rfl
  | cons p ps => simp only [numberAll, leavesAll, leaves_number p, leavesAll_numberAll ps]

end

@[simp] theorem labels_numbered (p : Path) : p.numbered.labels = p.labels :=
  congrArg distinct (leaves_number p 1)

mutual

/-- Every choice inside has an option, so that there is a way through. -/
def Viable : Path → Prop
  | empty _ | step _ _ => True
  | seq _ ps => ViableAll ps
  | alt _ ps => ps ≠ [] ∧ ViableAll ps

def ViableAll : List Path → Prop
  | [] => True
  | p :: ps => p.Viable ∧ ViableAll ps

end

theorem viableAll_iff {ps : List Path} : ViableAll ps ↔ ∀ p ∈ ps, p.Viable := by
  induction ps with
  | nil => simp [ViableAll]
  | cons p ps ih => simp [ViableAll, ih]

theorem viable_nothing : Viable nothing :=
  trivial

theorem viableAll_flattened {p : Path} (h : p.Viable) : ViableAll p.flattened := by
  obtain ⟨tag, hp⟩ | ⟨rfl, -⟩ | hself := flattened_cases p
  · exact (congrArg Viable hp).mp h
  · trivial
  · rw [hself]
    exact ⟨h, trivial⟩

theorem viable_seqOf {tag : Nat} {parts : List Path} (h : ViableAll parts) :
    (seqOf tag parts).Viable := by
  have hparts : ∀ q ∈ parts.flatMap flattened, q.Viable := by
    intro q hq
    obtain ⟨p, hp, hmem⟩ := List.mem_flatMap.mp hq
    exact viableAll_iff.mp (viableAll_flattened (viableAll_iff.mp h p hp)) q hmem
  unfold seqOf
  split
  · trivial
  · rename_i p hp
    exact hparts p (hp ▸ List.mem_singleton_self p)
  · exact viableAll_iff.mpr hparts

theorem viable_altOf {tag : Nat} {p : Path} {options : List Path} (h : ViableAll (p :: options)) :
    (altOf tag (p :: options)).Viable := by
  have hkept : ∀ q ∈ withoutRepeats false (p :: options), q.Viable := fun q hq =>
    viableAll_iff.mp h q (mem_of_mem_withoutRepeats hq)
  have hne : withoutRepeats false (p :: options) ≠ [] := by
    cases hp : p.isNothing <;> simp [withoutRepeats, hp]
  unfold altOf
  split
  · rename_i q hq
    exact hkept q (hq ▸ List.mem_singleton_self q)
  · exact ⟨hne, viableAll_iff.mpr hkept⟩

mutual

theorem Viable.exists_language (p : Path) (h : p.Viable) : ∃ s, p.language s := by
  cases p with
  | empty tag => exact ⟨[], rfl⟩
  | step tag l => exact ⟨[l], rfl⟩
  | seq tag ps => exact ViableAll.exists_languageAll ps h
  | alt tag ps =>
    cases ps with
    | nil => exact absurd rfl h.1
    | cons p ps =>
      obtain ⟨s, hs⟩ := Viable.exists_language p h.2.1
      exact ⟨s, .inl hs⟩

theorem ViableAll.exists_languageAll (ps : List Path) (h : ViableAll ps) :
    ∃ s, languageAll ps s := by
  cases ps with
  | nil => exact ⟨[], rfl⟩
  | cons p ps =>
    obtain ⟨a, ha⟩ := Viable.exists_language p h.1
    obtain ⟨b, hb⟩ := ViableAll.exists_languageAll ps h.2
    exact ⟨a ++ b, a, b, rfl, ha, hb⟩

end

mutual

/-- The labels of a path are those that occur on its sequences. -/
theorem mem_leaves_iff (p : Path) (h : p.Viable) {l : String} :
    l ∈ p.leaves ↔ p.language.Occurs l := by
  cases p with
  | empty tag => simp [leaves, language, Language.Occurs, Language.nothing]
  | step tag label => simp [leaves, language, Language.occurs_single]
  | seq tag ps => exact mem_leavesAll_iff ps h
  | alt tag ps => exact mem_leavesAll_iff_any ps h.2

theorem mem_leavesAll_iff (ps : List Path) (h : ViableAll ps) {l : String} :
    l ∈ leavesAll ps ↔ (languageAll ps).Occurs l := by
  cases ps with
  | nil => simp [leavesAll, languageAll, Language.Occurs, Language.nothing]
  | cons p ps =>
    rw [leavesAll, languageAll, List.mem_append, mem_leaves_iff p h.1, mem_leavesAll_iff ps h.2]
    exact (Language.occurs_followedBy h.1.exists_language h.2.exists_languageAll).symm

theorem mem_leavesAll_iff_any (ps : List Path) (h : ViableAll ps) {l : String} :
    l ∈ leavesAll ps ↔ (languageAny ps).Occurs l := by
  cases ps with
  | nil => simp [leavesAll, languageAny, Language.Occurs]
  | cons p ps =>
    rw [leavesAll, languageAny, List.mem_append, mem_leaves_iff p h.1,
      mem_leavesAll_iff_any ps h.2]
    exact Language.occurs_or.symm

end

mutual

/-- The labels that a path requires are those on all of its sequences. -/
theorem mem_required_iff (p : Path) (h : p.Viable) {l : String} :
    l ∈ p.required ↔ p.language.Needs l := by
  cases p with
  | empty tag => simp [required, language, Language.Needs, Language.nothing]
  | step tag label => simp [required, language, Language.needs_single]
  | seq tag ps => exact mem_requiredAll_iff ps h
  | alt tag ps =>
    have hne : requiredAll ps ≠ [] := by simpa [requiredAll_eq] using h.1
    exact (mem_common_iff hne).trans (forall_requiredAll_iff ps h.2)

theorem mem_requiredAll_iff (ps : List Path) (h : ViableAll ps) {l : String} :
    l ∈ (requiredAll ps).flatten ↔ (languageAll ps).Needs l := by
  cases ps with
  | nil => simp [requiredAll, languageAll, Language.Needs, Language.nothing]
  | cons p ps =>
    rw [requiredAll, languageAll, List.flatten_cons, List.mem_append, mem_required_iff p h.1,
      mem_requiredAll_iff ps h.2]
    exact Language.needs_followedBy.symm

theorem forall_requiredAll_iff (ps : List Path) (h : ViableAll ps) {l : String} :
    (∀ ls ∈ requiredAll ps, l ∈ ls) ↔ (languageAny ps).Needs l := by
  cases ps with
  | nil => simp [requiredAll, languageAny, Language.Needs]
  | cons p ps =>
    rw [requiredAll, languageAny, List.forall_mem_cons, mem_required_iff p h.1,
      forall_requiredAll_iff ps h.2]
    exact Language.needs_or.symm

end

theorem mem_labels_iff {p : Path} (h : p.Viable) {l : String} :
    l ∈ p.labels ↔ p.language.Occurs l :=
  mem_distinct.trans (mem_leaves_iff p h)

theorem mem_necessary_iff {p : Path} (h : p.Viable) {l : String} :
    l ∈ p.necessary ↔ p.language.Needs l :=
  mem_distinct.trans (mem_required_iff p h)

end Path

end SelectiveEffects
