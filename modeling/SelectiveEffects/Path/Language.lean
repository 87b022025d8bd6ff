import SelectiveEffects.Path.Basic

/-! The sequences of labels that a path describes. -/

namespace SelectiveEffects

abbrev Language := List String → Prop

namespace Language

/-- The empty sequence alone. -/
def nothing : Language :=
  fun s => s = []

def single (label : String) : Language :=
  fun s => s = [label]

def followedBy (K L : Language) : Language :=
  fun s => ∃ a b, s = a ++ b ∧ K a ∧ L b

def or (K L : Language) : Language :=
  fun s => K s ∨ L s

/-- The empty sequence or one of the language. -/
def maybe (L : Language) : Language :=
  nothing.or L

theorem followedBy_nothing (L : Language) : L.followedBy nothing = L := by
  funext s
  simp [followedBy, nothing]

theorem nothing_followedBy (L : Language) : nothing.followedBy L = L := by
  funext s
  apply propext
  constructor
  · rintro ⟨_, b, rfl, rfl, hb⟩
    exact hb
  · intro h
    exact ⟨[], s, rfl, rfl, h⟩

theorem followedBy_assoc (K L M : Language) :
    (K.followedBy L).followedBy M = K.followedBy (L.followedBy M) := by
  funext s
  apply propext
  constructor
  · rintro ⟨_, c, rfl, ⟨a, b, rfl, ha, hb⟩, hc⟩
    exact ⟨a, b ++ c, List.append_assoc a b c, ha, b, c, rfl, hb, hc⟩
  · rintro ⟨a, _, rfl, ha, b, c, rfl, hb, hc⟩
    exact ⟨a ++ b, c, (List.append_assoc a b c).symm, ⟨a, b, rfl, ha, hb⟩, hc⟩

theorem or_false (L : Language) : (L.or fun _ => False) = L := by
  funext s
  simp [or]

theorem or_comm (K L : Language) : K.or L = L.or K := by
  funext s
  exact propext Or.comm

theorem maybe_nothing : nothing.maybe = nothing := by
  funext s
  exact propext (or_self_iff)

theorem followedBy_or (K L M : Language) :
    K.followedBy (L.or M) = (K.followedBy L).or (K.followedBy M) := by
  funext s
  apply propext
  constructor
  · rintro ⟨a, b, hs, ha, hb | hb⟩
    · exact .inl ⟨a, b, hs, ha, hb⟩
    · exact .inr ⟨a, b, hs, ha, hb⟩
  · rintro (⟨a, b, hs, ha, hb⟩ | ⟨a, b, hs, ha, hb⟩)
    · exact ⟨a, b, hs, ha, .inl hb⟩
    · exact ⟨a, b, hs, ha, .inr hb⟩

theorem followedBy_mono {K K' L L' : Language} (hK : ∀ s, K s → K' s) (hL : ∀ s, L s → L' s)
    (s : List String) (hs : K.followedBy L s) : K'.followedBy L' s := by
  obtain ⟨a, b, hab, ha, hb⟩ := hs
  exact ⟨a, b, hab, hK a ha, hL b hb⟩

end Language

namespace Path

mutual

def language : Path → Language
  | empty _ => .nothing
  | step _ l => .single l
  | seq _ ps => languageAll ps
  | alt _ ps => languageAny ps

/-- A sequence of every path, in order. -/
def languageAll : List Path → Language
  | [] => .nothing
  | p :: ps => p.language.followedBy (languageAll ps)

/-- A sequence of one of the paths. -/
def languageAny : List Path → Language
  | [] => fun _ => False
  | p :: ps => p.language.or (languageAny ps)

end

theorem languageAll_append (ps qs : List Path) :
    languageAll (ps ++ qs) = (languageAll ps).followedBy (languageAll qs) := by
  induction ps with
  | nil => simp only [List.nil_append, languageAll, Language.nothing_followedBy]
  | cons p ps ih => simp only [List.cons_append, languageAll, ih, Language.followedBy_assoc]

theorem languageAny_iff {ps : List Path} {s : List String} :
    languageAny ps s ↔ ∃ p ∈ ps, p.language s := by
  induction ps with
  | nil => simp [languageAny]
  | cons p ps ih => simp [languageAny, Language.or, ih]

end Path

end SelectiveEffects
