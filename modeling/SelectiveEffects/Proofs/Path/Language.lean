import SelectiveEffects.Path.Language

/-! What joining and numbering paths does to the sequences that they describe: nothing. -/

namespace SelectiveEffects.Path

theorem language_of_isNothing {p : Path} (h : p.isNothing = true) : p.language = .nothing := by
  cases p with
  | empty tag => rfl
  | _ => cases h

theorem languageAll_singleton (p : Path) : languageAll [p] = p.language :=
  Language.followedBy_nothing p.language

theorem languageAll_flattened (p : Path) : languageAll p.flattened = p.language := by
  have hother (p : Path) : languageAll (if p.isNothing then [] else [p]) = p.language := by
    by_cases h : p.isNothing = true
    · rw [if_pos h, language_of_isNothing h]
      rfl
    · rw [if_neg h]
      exact languageAll_singleton p
  cases p with
  | seq tag ps => rfl
  | empty tag => exact hother (empty tag)
  | step tag l => exact hother (step tag l)
  | alt tag ps => exact hother (alt tag ps)

theorem languageAll_flatMap_flattened (ps : List Path) :
    languageAll (ps.flatMap flattened) = languageAll ps := by
  induction ps with
  | nil => rfl
  | cons p ps ih =>
    rw [List.flatMap_cons, languageAll_append, languageAll_flattened, ih]
    rfl

/-- Splicing sequences and dropping empty ones leaves the sequences of labels as they were. -/
theorem language_seqOf (tag : Nat) (parts : List Path) :
    (seqOf tag parts).language = languageAll parts := by
  rw [← languageAll_flatMap_flattened parts, seqOf]
  split
  · rename_i h
    rw [h]
    rfl
  · rename_i p h
    rw [h]
    exact (languageAll_singleton p).symm
  · rfl

/-- Where an empty path was seen already, further ones add nothing. -/
theorem languageAny_withoutRepeats (seen : Bool) (ps : List Path) (s : List String) :
    languageAny (withoutRepeats seen ps) s ∨ (seen = true ∧ s = []) ↔
      languageAny ps s ∨ (seen = true ∧ s = []) := by
  induction ps generalizing seen with
  | nil => simp [withoutRepeats]
  | cons p ps ih =>
    have hrest := ih true
    by_cases hp : p.isNothing = true
    · have hl : p.language s ↔ s = [] := by rw [language_of_isNothing hp]; rfl
      by_cases hs : s = []
      · subst hs
        have hnil := hl.mpr rfl
        cases seen <;> simp [withoutRepeats, hp, languageAny, Language.or, hnil]
      · simp only [hs, and_false, or_false] at hrest
        cases seen <;> simp [withoutRepeats, hp, languageAny, Language.or, hl, hs, hrest]
    · simp [withoutRepeats, hp, languageAny, Language.or, or_assoc, ih seen]

theorem language_altOf (tag : Nat) (options : List Path) :
    (altOf tag options).language = languageAny options := by
  funext s
  apply propext
  have hkept : languageAny (withoutRepeats false options) s ↔ languageAny options s := by
    simpa using languageAny_withoutRepeats false options s
  rw [← hkept, altOf]
  split
  · rename_i p h
    rw [h]
    simp [languageAny, Language.or]
  · rfl

mutual

theorem language_number (p : Path) (next : Nat) : (p.number next).1.language = p.language := by
  cases p with
  | empty tag => rfl
  | step tag l => rfl
  | seq tag ps => exact languageAll_numberAll ps (next + 1)
  | alt tag ps => exact languageAny_numberAll ps (next + 1)

theorem languageAll_numberAll (ps : List Path) (next : Nat) :
    languageAll (numberAll next ps).1 = languageAll ps := by
  cases ps with
  | nil => rfl
  | cons p ps =>
    simp only [numberAll, languageAll, language_number p, languageAll_numberAll ps]

theorem languageAny_numberAll (ps : List Path) (next : Nat) :
    languageAny (numberAll next ps).1 = languageAny ps := by
  cases ps with
  | nil => rfl
  | cons p ps =>
    simp only [numberAll, languageAny, language_number p, languageAny_numberAll ps]

end

@[simp] theorem language_numbered (p : Path) : p.numbered.language = p.language :=
  language_number p 1

end SelectiveEffects.Path
