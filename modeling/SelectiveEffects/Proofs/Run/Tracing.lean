import SelectiveEffects.Proofs.Path.OfTree
import SelectiveEffects.Proofs.Run.Journal
import SelectiveEffects.Proofs.Tree.Equations

/-! The labels that evaluation adds to a journal are those the tree's language foretells. -/

namespace SelectiveEffects

namespace Evaluation

variable {P G σ α β : Type}

/-- A value comes with a sequence of the language, and anything else with a first part of one. -/
def Traces (L : Language) (x : Evaluation (Journal P G σ) α) : Prop :=
  ∀ j, match x j with
    | .ok (some _) j' => ∃ s, j'.labels = j.labels ++ s ∧ L s
    | .ok none j' | .error _ j' => ∃ s rest, j'.labels = j.labels ++ s ∧ L (s ++ rest)

theorem traces_pure (a : α) : (pure a : Evaluation (Journal P G σ) α).Traces .nothing :=
  fun _ => ⟨[], by simp, rfl⟩

theorem traces_ofExcept (r : Except Fault α) :
    (ofExcept r : Evaluation (Journal P G σ) α).Traces .nothing := by
  cases r with
  | ok a => exact traces_pure a
  | error e => exact fun _ => ⟨[], [], by simp, rfl⟩

theorem Traces.mono {K L : Language} {x : Evaluation (Journal P G σ) α} (h : x.Traces K)
    (hKL : ∀ s, K s → L s) : x.Traces L := by
  intro j
  have hj := h j
  match x j, hj with
  | .ok (some a) j', ⟨s, hs, hK⟩ => exact ⟨s, hs, hKL s hK⟩
  | .ok none j', ⟨s, rest, hs, hK⟩ => exact ⟨s, rest, hs, hKL _ hK⟩
  | .error e j', ⟨s, rest, hs, hK⟩ => exact ⟨s, rest, hs, hKL _ hK⟩

theorem Traces.bind {K L : Language} {x : Evaluation (Journal P G σ) α}
    {f : α → Evaluation (Journal P G σ) β} (hx : x.Traces K)
    (hL : ∀ _ : Journal P G σ, ∃ s, L s)
    (hf : ∀ j a j', x j = .ok (some a) j' → (f a).Traces L) :
    (x >>= f).Traces (K.followedBy L) := by
  intro j
  have hj := hx j
  rw [bind_apply]
  match hxj : x j, hj with
  | .ok (some a) j', ⟨s, hs, hK⟩ =>
    have hj' := hf j a j' hxj j'
    dsimp only
    match f a j', hj' with
    | .ok (some b) j'', ⟨s', hs', hL'⟩ =>
      exact ⟨s ++ s', by rw [hs', hs, List.append_assoc], s, s', rfl, hK, hL'⟩
    | .ok none j'', ⟨s', rest, hs', hL'⟩ =>
      exact ⟨s ++ s', rest, by rw [hs', hs, List.append_assoc], s, s' ++ rest,
        List.append_assoc s s' rest, hK, hL'⟩
    | .error e j'', ⟨s', rest, hs', hL'⟩ =>
      exact ⟨s ++ s', rest, by rw [hs', hs, List.append_assoc], s, s' ++ rest,
        List.append_assoc s s' rest, hK, hL'⟩
  | .ok none j', ⟨s, rest, hs, hK⟩ =>
    obtain ⟨s', hL'⟩ := hL j
    exact ⟨s, rest ++ s', hs, s ++ rest, s', (List.append_assoc s rest s').symm, hK, hL'⟩
  | .error e j', ⟨s, rest, hs, hK⟩ =>
    obtain ⟨s', hL'⟩ := hL j
    exact ⟨s, rest ++ s', hs, s ++ rest, s', (List.append_assoc s rest s').symm, hK, hL'⟩

theorem Traces.map {L : Language} {x : Evaluation (Journal P G σ) α} (hx : x.Traces L)
    (f : α → Except Fault β) : (x >>= fun a => ofExcept (f a)).Traces L := by
  rw [← Language.followedBy_nothing L]
  exact hx.bind (fun _ => ⟨[], rfl⟩) fun _ a _ _ => traces_ofExcept (f a)

end Evaluation

namespace Interpreter

variable {P G σ : Type}

end Interpreter

namespace Tree

open Evaluation (Traces traces_ofExcept map_eq_ok_iff)

variable {P G σ : Type} [Primitives P]

end Tree

namespace Interpreter

variable {P G σ : Type} [Primitives P]

end Interpreter

end SelectiveEffects
