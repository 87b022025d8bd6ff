import SelectiveEffects.Proofs.Path.Labels

/-! Languages in turn, up to one of them: what may be performed by steps of which each but the first
is only taken after the one before it. -/

namespace SelectiveEffects.Language

/-- A sequence of each language, one after another. -/
def inOrder : List Language → Language
  | [] => nothing
  | L :: Ls => L.followedBy (inOrder Ls)

/-- A sequence of each of the first languages, of at least one. -/
def initials (Ls : List Language) : Language :=
  fun s => ∃ j, 0 < j ∧ j ≤ Ls.length ∧ inOrder (Ls.take j) s

/-- Each language is followed by those after it, or by nothing. -/
def stages (Ls : List Language) : Language :=
  Ls.foldr (fun L K => L.followedBy K.maybe) nothing

variable {L : Language} {Ls : List Language} {l : String}

theorem initials_nil : initials [] = fun _ => False := by
  funext s
  refine eq_false ?_
  rintro ⟨j, hpos, hle, -⟩
  exact absurd (Nat.lt_of_lt_of_le hpos hle) (Nat.lt_irrefl 0)

/-- One stops after the first language, or goes on with some of the others. -/
theorem initials_cons : initials (L :: Ls) = L.followedBy (initials Ls).maybe := by
  funext s
  apply propext
  constructor
  · rintro ⟨_ | j, hpos, hle, h⟩
    · exact absurd hpos (Nat.lt_irrefl 0)
    · obtain ⟨a, b, rfl, ha, hb⟩ := h
      refine ⟨a, b, rfl, ha, ?_⟩
      cases j with
      | zero => exact .inl hb
      | succ j => exact .inr ⟨j + 1, j.succ_pos, Nat.le_of_succ_le_succ hle, hb⟩
  · rintro ⟨a, b, rfl, ha, rfl | ⟨j, -, hle, hb⟩⟩
    · exact ⟨1, Nat.one_pos, Nat.le_add_left 1 Ls.length, a, [], rfl, ha, rfl⟩
    · exact ⟨j + 1, j.succ_pos, Nat.succ_le_succ hle, a, b, rfl, ha, hb⟩

theorem maybe_stages (Ls : List Language) : (stages Ls).maybe = (initials Ls).maybe := by
  induction Ls with
  | nil => exact maybe_nothing.trans (initials_nil ▸ (or_false nothing).symm)
  | cons L Ls ih =>
    have hstages : stages (L :: Ls) = L.followedBy (stages Ls).maybe := rfl
    rw [hstages, ih, initials_cons]

/-- Stages that may be left out from some point on come to the initial ones. -/
theorem stages_eq_initials (h : Ls ≠ []) : stages Ls = initials Ls := by
  cases Ls with
  | nil => exact absurd rfl h
  | cons L Ls =>
    rw [initials_cons, ← maybe_stages]
    rfl

theorem initials_replicate (n : Nat) (L : Language) : initials (List.replicate n L) =
    fun s => ∃ j, 0 < j ∧ j ≤ n ∧ inOrder (List.replicate j L) s := by
  funext s
  apply propext
  refine exists_congr fun j => and_congr_right fun _ => ?_
  rw [List.length_replicate]
  refine and_congr_right fun hle => ?_
  rw [List.take_replicate, Nat.min_eq_left hle]

/-- What the first language needs is needed, and nothing else, as nothing has to follow it. -/
theorem needs_initials_cons : (initials (L :: Ls)).Needs l ↔ L.Needs l := by
  rw [initials_cons, needs_followedBy]
  refine or_iff_left fun h => ?_
  exact absurd (h [] (.inl rfl)) (List.not_mem_nil)

end SelectiveEffects.Language
