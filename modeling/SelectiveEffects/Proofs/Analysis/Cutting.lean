import SelectiveEffects.Proofs.Analysis.Listing
import SelectiveEffects.Proofs.Analysis.Summaries

/-! Every analysis notes the same cuts, and one that cut nothing says the same at all larger
bounds. -/

namespace SelectiveEffects

open Scenario

namespace Survey

variable {P G σ : Type}

/-- Only the deferred nodes that a tree has matter to its survey. -/
theorem ofTreeWith_congr {deferral deferral' : Source P G → Action σ Survey}
    {p : Source P G → Prop}
    (hd : ∀ source, source.Runnable → ¬ p source → deferral source = deferral' source)
    {t : Tree P G} (ht : t.Runnable) (hp : ¬ t.Defers p) :
    ofTreeWith deferral t = ofTreeWith deferral' t := by
  induction t using ofTreeWith.induct with
  | case1 v => rfl
  | case2 e k => rfl
  | case3 t l k route r k' iht ihl ihr =>
    simp only [Tree.Defers, not_or] at hp
    rw [ofTreeWith, ofTreeWith, iht ht.1.1 hp.1.1, ihl ht.1.2 hp.1.2, ihr ht.2 hp.2]
  | case4 d h k ihd ihh =>
    rw [Tree.Defers, not_or] at hp
    rw [ofTreeWith_always, ofTreeWith_always, ihd ht.1 hp.1, ihh ht.2 hp.2]
  | case5 d h k route hexclusive halways ihd ihh =>
    rw [Tree.Defers, not_or] at hp
    rw [ofTreeWith_maybe hexclusive halways, ofTreeWith_maybe hexclusive halways, ihd ht.1 hp.1,
      ihh ht.2 hp.2]
  | case6 g k => exact hd (.host g) trivial hp
  | case7 action k => exact hd (.loop action) ht hp
  | case8 typeName => exact ht.elim
  | case9 typeName => exact ht.elim

variable [Primitives P]

/-- A survey that cut nothing is the survey at every larger bound, strict or not. -/
theorem ofTree_eq_of_not_exceeds {gen : G → Action σ (Tree P G)}
    (hgen : ∀ g, ∃ t, t.Runnable ∧ Generates gen g t) (strict : Bool) {n m : Nat} (hnm : n ≤ m)
    {t : Tree P G} (ht : t.Runnable) (hcut : ¬ t.Exceeds gen n) :
    ofTree gen strict m t = ofTree gen false n t := by
  induction n generalizing m t with
  | zero =>
    -- Nothing exceeds bound zero where there is no deferred node at all.
    cases m with
    | zero => exact ofTreeWith_congr (fun _ _ hnone => absurd trivial hnone) ht hcut
    | succ m => exact ofTreeWith_congr (fun _ _ hnone => absurd trivial hnone) ht hcut
  | succ n ih =>
    obtain ⟨m, rfl⟩ : ∃ m', m = m' + 1 := ⟨m - 1, by omega⟩
    refine ofTreeWith_congr (fun source hs hwithin => funext fun w => ?_) ht hcut
    obtain ⟨inner, hinner, hexpand⟩ := Source.exists_standsFor hgen hs
    have hcut' : ¬ inner.Exceeds gen n := fun hex =>
      hwithin ((hexpand.exists_iff (fun inner => inner.Exceeds gen n) w).mpr hex)
    have hsame := ih (Nat.le_of_succ_le_succ hnm) hinner hcut'
    exact congrFun (hexpand.bind_congr hsame) w

end Survey

/-- In every world the action refuses a deferred node when something was cut, and else returns. -/
def RefusesIf {σ α : Type} (a : Action σ α) (cut : Prop) : Prop :=
  ∀ w, (cut ∧ ∃ w', a w = .error (.unboundedTree Fault.loopReason) w') ∨
    (¬ cut ∧ ∃ x w', a w = .ok x w')

section Refusal

variable {σ α β : Type} {a : Action σ α} {f : α → Action σ β} {A B : Prop}

theorem refusesIf_pure (x : α) : RefusesIf (pure x : Action σ α) False :=
  fun w => .inr ⟨id, x, w, rfl⟩

theorem RefusesIf.bind (ha : RefusesIf a A) (hf : ∀ x, RefusesIf (f x) B) :
    RefusesIf (a >>= f) (A ∨ B) := by
  intro w
  simp only [Action.bind_apply]
  obtain ⟨hA, w₁, hw⟩ | ⟨hA, x, w₁, hw⟩ := ha w
  · exact .inl ⟨.inl hA, w₁, by rw [hw]⟩
  · rw [hw]
    exact (hf x w₁).imp (And.imp_left .inr) (And.imp_left fun hB => not_or.mpr ⟨hA, hB⟩)

theorem RefusesIf.map (ha : RefusesIf a A) (f : α → β) : RefusesIf (f <$> a) A := by
  rw [map_eq_pure_bind, ← or_false A]
  exact ha.bind fun x => refusesIf_pure (f x)

theorem RefusesIf.error_iff (ha : RefusesIf a A) (w : σ) :
    (∃ w', a w = .error (.unboundedTree Fault.loopReason) w') ↔ A := by
  obtain ⟨hA, h⟩ | ⟨hA, x, w₁, hw⟩ := ha w
  · exact iff_of_true h hA
  · exact iff_of_false (by simp [hw]) hA

end Refusal

namespace Survey

variable {P G σ : Type}

theorem refusesIf_ofTreeWith {deferral : Source P G → Action σ Survey} {p : Source P G → Prop}
    (hd : ∀ source, source.Runnable → RefusesIf (deferral source) (p source)) {t : Tree P G}
    (ht : t.Runnable) : RefusesIf (ofTreeWith deferral t) (t.Defers p) := by
  induction t using ofTreeWith.induct with
  | case1 v => exact refusesIf_pure nothing
  | case2 e k =>
    obtain ⟨label, he⟩ := ht
    rw [ofTreeWith, he]
    exact refusesIf_pure _
  | case3 t l k route r k' iht ihl ihr =>
    have hall := (iht ht.1.1).bind fun x => (ihl ht.1.2).bind fun left =>
      (ihr ht.2).map fun right => x.oneOf left right
    rw [ofTreeWith]
    simpa only [Tree.Defers, map_eq_pure_bind, or_assoc] using hall
  | case4 d h k ihd ihh =>
    have hboth := (ihd ht.1).bind fun x => (ihh ht.2).map fun y => x.inOrder y
    rw [ofTreeWith_always]
    simpa only [Tree.Defers, map_eq_pure_bind] using hboth
  | case5 d h k route hexclusive halways ihd ihh =>
    have hboth := (ihd ht.1).bind fun x => (ihh ht.2).map fun y => x.maybe y
    rw [ofTreeWith_maybe hexclusive halways]
    simpa only [Tree.Defers, map_eq_pure_bind] using hboth
  | case6 g k => exact hd (.host g) trivial
  | case7 action k => exact hd (.loop action) ht
  | case8 typeName => exact ht.elim
  | case9 typeName => exact ht.elim

variable [Primitives P]

/-- The strict survey of a runnable tree refuses just the trees that exceed the bound. -/
theorem refusesIf_ofTree {gen : G → Action σ (Tree P G)}
    (hgen : ∀ g, ∃ t, t.Runnable ∧ Generates gen g t) (n : Nat) {t : Tree P G}
    (ht : t.Runnable) : RefusesIf (ofTree gen true n t) (t.Exceeds gen n) := by
  induction n generalizing t with
  | zero => exact refusesIf_ofTreeWith (fun _ _ w => .inl ⟨trivial, w, rfl⟩) ht
  | succ n ih =>
    refine refusesIf_ofTreeWith (fun source hs w => ?_) ht
    obtain ⟨inner, hinner, hexpand⟩ := Source.exists_standsFor hgen hs
    obtain ⟨w₁, hw₁⟩ := hexpand w
    rw [hexpand.exists_iff (fun inner => inner.Exceeds gen n) w, Action.bind_apply, hw₁]
    exact ih hinner w₁

end Survey

namespace Analysis

variable {P G σ : Type} [Primitives P] {gen : G → Action σ (Tree P G)}

theorem possibilities_natCast (gen : G → Action σ (Tree P G)) (n : Nat) (strict : Bool)
    (t : Tree P G) {cap : Nat} (hcap : 0 < cap) :
    possibilities gen t n strict cap = possibilitiesOf cap <$> Survey.ofTree gen strict n t := by
  have hc : Fault.Limit.maxSequences.positive (cap : Int) = .ok cap := by
    rw [Fault.Limit.positive, if_neg (by omega), Int.toNat_natCast]
  rw [possibilities, hc, Action.ofExcept_ok, pure_bind, survey_natCast, map_eq_pure_bind]

/-- The strict analysis, the fold with no value past the bound and the mark on the possibility set
report a cut in the same cases: when some deferred node lies below as many others as the bound
allows. When none does, all larger bounds give the same answers. -/
theorem analyses_cut_alike (hgen : ∀ g, ∃ t, t.Runnable ∧ Generates gen g t) {t : Tree P G}
    (ht : t.Runnable) (n : Nat) {cap cap' : Nat} (hcap : 0 < cap) (hcap' : 0 < cap')
    (hmany : {s | t.language gen n s}.ncard ≤ cap') (w₁ w₂ w₃ : σ) :
    ((∃ w', possibilities gen t n true cap w₁ =
        .error (.unboundedTree Fault.loopReason) w') ↔ t.Exceeds gen n) ∧
    ((∃ w', (listing gen true).fold (some n) t w₂ =
        .error (.unboundedTree Fault.loopReason) w') ↔ t.Exceeds gen n) ∧
    ((∃ S w', possibilities gen t n false cap' w₃ = .ok S w' ∧ S.truncated = true) ↔
        t.Exceeds gen n) ∧
    (¬ t.Exceeds gen n → ∃ S labels needed, ∀ strict m, n ≤ m →
      (possibilities gen t m strict cap).Settles S ∧ (dependencies gen t m).Settles labels ∧
        (necessary gen t m).Settles needed) := by
  refine ⟨?_, ?_, ?_, fun hcut => ?_⟩
  · rw [possibilities_natCast gen n true t hcap]
    exact ((Survey.refusesIf_ofTree hgen n ht).map _).error_iff w₁
  · rw [Folding.fold, foldUpTo_listing hgen n ht]
    exact ((Survey.refusesIf_ofTree hgen n ht).map _).error_iff w₂
  · obtain ⟨S, w', hS, hdenotes⟩ := possibilities_denote hgen ht n hcap' w₃
    have hmarked : S.truncated = true ↔ t.Exceeds gen n :=
      hdenotes.truncated_iff.trans (or_iff_left (Nat.not_lt.mpr hmany))
    rw [← hmarked]
    constructor
    · rintro ⟨S', w'', hS', htruncated⟩
      cases hS.symm.trans hS'
      exact htruncated
    · exact fun htruncated => ⟨S, w', hS, htruncated⟩
  · obtain ⟨S, hS⟩ := Survey.exists_settles_ofTree hgen n ht
    refine ⟨possibilitiesOf cap S, S.path.labels, S.path.necessary, fun strict m hnm => ?_⟩
    have hsame (strict : Bool) : (Survey.ofTree gen strict m t).Settles S := by
      rwa [Survey.ofTree_eq_of_not_exceeds hgen strict hnm ht hcut]
    refine ⟨?_, ?_, ?_⟩
    · rw [possibilities_natCast gen m strict t hcap]
      exact (hsame strict).map _
    · rw [dependencies_natCast, foldUpTo_listing hgen m ht]
      exact ((hsame false).map _).map _
    · rw [necessary_natCast]
      exact (hsame false).map _

/-- A handler that is left out at bound zero, where one sequence remains. -/
theorem analyses_cut_alike_deferred :
    let effect (name : String) : Effect Builtin :=
      { className := name, lineage := [name], fields := [], label := .ok name }
    let gen : Unit → Action Nat (Tree Builtin Unit) := fun _ => do
      modify (· + 1)
      return .lift (effect "Answer")
    let t : Tree Builtin Unit :=
      .selection (.lift (effect "Ask")) (.deferred () none) none .optional
    (∀ g, ∃ t, t.Runnable ∧ Generates gen g t) ∧ t.Runnable ∧ 0 < 5 ∧ 0 < 1 ∧
      {s | t.language gen 0 s}.ncard ≤ 1 ∧
      ((∃ w', possibilities gen t (0 : Nat) true (5 : Nat) 0 =
          .error (.unboundedTree Fault.loopReason) w') ↔ t.Exceeds gen 0) ∧
      ((∃ w', (listing gen true).fold (some 0) t 0 =
          .error (.unboundedTree Fault.loopReason) w') ↔ t.Exceeds gen 0) ∧
      ((∃ S w', possibilities gen t (0 : Nat) false (1 : Nat) 0 = .ok S w' ∧
          S.truncated = true) ↔ t.Exceeds gen 0) ∧
      (¬ t.Exceeds gen 0 → ∃ S labels needed, ∀ strict (m : Nat), 0 ≤ m →
        (possibilities gen t m strict (5 : Nat)).Settles S ∧ (dependencies gen t m).Settles labels ∧
          (necessary gen t m).Settles needed) := by
  intro effect gen t
  have hgen (g : Unit) : ∃ t, t.Runnable ∧ Generates gen g t :=
    ⟨.lift (effect "Answer"), ⟨"Answer", rfl⟩, fun w => ⟨w + 1, rfl⟩⟩
  have ht : t.Runnable := ⟨⟨"Ask", rfl⟩, trivial⟩
  have honly : {s | t.language gen 0 s} ⊆ {["Ask"]} := by
    rintro s ⟨a, b, rfl, ⟨label, hlabel, rfl⟩, hb⟩
    cases hlabel
    have hnone : b = [] := hb.elim id id
    rw [hnone]
    rfl
  have hmany : {s | t.language gen 0 s}.ncard ≤ 1 :=
    (Set.ncard_le_ncard honly).trans_eq (Set.ncard_singleton _)
  have hroom : 0 < 5 := by decide
  have hone : 0 < 1 := by decide
  exact ⟨hgen, ht, hroom, hone, hmany, analyses_cut_alike hgen ht 0 hroom hone hmany 0 0 0⟩

end Analysis

end SelectiveEffects
