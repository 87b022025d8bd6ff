import SelectiveEffects.Proofs.Analysis.Composition
import SelectiveEffects.Proofs.Path.Initials

/-! The possibilities of a chain of conditionals are those of its initial trees. -/

namespace SelectiveEffects

open Scenario

namespace Tree

variable {P G : Type} [Primitives P] {D : Source P G → Language}

/-- A conditional on what is not known can be built, and is read as a choice. -/
theorem exists_ifS_choice {x a b : Tree P G} (hx : x.Runnable) (hpure : x.isPure = false)
    (ha : a.Runnable) (hb : b.Runnable) :
    ∃ t, Context.free.ifS x a b = .ok t ∧ t.Runnable ∧
      languageWith D t =
        (languageWith D x).followedBy ((languageWith D a).or (languageWith D b)) := by
  obtain ⟨t, ht, -⟩ :=
    exists_ifS (Every.known hx) (decides_of_isPure hpure) (Every.known ha) (Every.known hb)
  refine ⟨t, ht, every_ifS ht hx ha hb, ?_⟩
  obtain ⟨tags, left, right, htags, hleft, hright, hselect⟩ := ifS_cases ht
  rw [← languageWith_fmap htags, ← languageWith_fmap hleft, ← languageWith_fmap hright]
  exact languageWith_select hselect ((isPure_fmap htags).trans hpure)

theorem exists_orS_choice {x y : Tree P G} (hx : x.Runnable) (hpure : x.isPure = false)
    (hy : y.Runnable) :
    ∃ t, Context.free.orS x y = .ok t ∧ t.Runnable ∧
      languageWith D t = (languageWith D x).followedBy (languageWith D y).maybe := by
  have hyes : (pure (.bool true) : Tree P G).Runnable := trivial
  exact exists_ifS_choice hx hpure hyes hy

theorem exists_andS_choice {x y : Tree P G} (hx : x.Runnable) (hpure : x.isPure = false)
    (hy : y.Runnable) :
    ∃ t, Context.free.andS x y = .ok t ∧ t.Runnable ∧
      languageWith D t = (languageWith D x).followedBy (languageWith D y).maybe := by
  have hno : (pure (.bool false) : Tree P G).Runnable := trivial
  obtain ⟨t, ht, hrunnable, hlanguage⟩ := exists_ifS_choice (D := D) hx hpure hy hno
  refine ⟨t, ht, hrunnable, ?_⟩
  rw [hlanguage, Language.or_comm]
  rfl

omit [Primitives P] in
/-- A chain is read as stages when each link may leave the rest of it out. The induction is from the
end, which has no label. -/
theorem exists_foldrM_stages {link : Tree P G → Tree P G → Except Fault (Tree P G)}
    (hlink : ∀ x y, x.Runnable → x.isPure = false → y.Runnable →
      ∃ t, link x y = .ok t ∧ t.Runnable ∧
        languageWith D t = (languageWith D x).followedBy (languageWith D y).maybe)
    (v : Val P) {xs : List (Tree P G)} (hxs : ∀ x ∈ xs, x.Runnable ∧ x.isPure = false) :
    ∃ t, xs.foldrM link (pure v) = .ok t ∧ t.Runnable ∧
      languageWith D t = .stages (xs.map (languageWith D)) := by
  have hend : (pure v : Tree P G).Runnable ∧ languageWith D (pure v) = .stages [] := ⟨trivial, rfl⟩
  refine exists_foldrM (p := fun xs t =>
    t.Runnable ∧ languageWith D t = .stages (xs.map (languageWith D))) hend ?_ hxs
  intro x xs y hx hy
  obtain ⟨t, ht, hrunnable, hlanguage⟩ := hlink x y hx.1 hx.2 hy.1
  refine ⟨t, ht, hrunnable, ?_⟩
  rw [hlanguage, hy.2]
  rfl

end Tree

namespace Analysis

variable {P G σ : Type} [Primitives P] {gen : G → Action σ (Tree P G)} {n : Nat}

/-- A disjunction and a conjunction of trees that are not known perform the trees from the first on,
in order, and may stop after any of them. -/
theorem possibilities_chain (hgen : ∀ g, ∃ t, t.Runnable ∧ Generates gen g t)
    {xs : List (Tree P G)} (hne : xs ≠ []) (hxs : ∀ x ∈ xs, x.Runnable ∧ x.isPure = false) :
    ∃ L : Tree P G → Language, (∀ x ∈ xs, Recognises gen n x (L x)) ∧
      (∃ t, Context.free.orAll xs = .ok t ∧ Recognises gen n t (.initials (xs.map L))) ∧
      ∃ t, Context.free.andAll xs = .ok t ∧ Recognises gen n t (.initials (xs.map L)) := by
  obtain ⟨D, hrec⟩ := exists_recognises (n := n) hgen
  have hstages : Language.stages (xs.map (Tree.languageWith D)) = .initials _ :=
    Language.stages_eq_initials (mt List.map_eq_nil_iff.mp hne)
  refine ⟨Tree.languageWith D, fun x hx => hrec x (hxs x hx).1, ?_, ?_⟩
  · obtain ⟨t, ht, hrunnable, hlanguage⟩ :=
      Tree.exists_foldrM_stages (D := D) (fun _ _ => Tree.exists_orS_choice) (.bool false) hxs
    rw [← hstages, ← hlanguage]
    exact ⟨t, ht, hrec t hrunnable⟩
  · obtain ⟨t, ht, hrunnable, hlanguage⟩ :=
      Tree.exists_foldrM_stages (D := D) (fun _ _ => Tree.exists_andS_choice) (.bool true) hxs
    rw [← hstages, ← hlanguage]
    exact ⟨t, ht, hrec t hrunnable⟩

/-- An effect, another that is deferred, and a third. -/
theorem possibilities_chain_deferred :
    let effect (name : String) : Effect Builtin :=
      { className := name, lineage := [name], fields := [], label := .ok name }
    let gen : Unit → Action Nat (Tree Builtin Unit) := fun _ => do
      modify (· + 1)
      return .lift (effect "b")
    let xs : List (Tree Builtin Unit) := [.lift (effect "a"), .deferred () none, .lift (effect "c")]
    let initial : Language := fun s => s = ["a"] ∨ s = ["a", "b"] ∨ s = ["a", "b", "c"]
    (∀ g, ∃ t, t.Runnable ∧ Generates gen g t) ∧ xs ≠ [] ∧
      (∀ x ∈ xs, x.Runnable ∧ x.isPure = false) ∧
      (∃ t, Context.free.orAll xs = .ok t ∧ Recognises gen 1 t initial) ∧
      ∃ t, Context.free.andAll xs = .ok t ∧ Recognises gen 1 t initial := by
  intro effect gen xs initial
  have hb : (Tree.lift (effect "b") : Tree Builtin Unit).Runnable := ⟨"b", rfl⟩
  have hgenerates : Generates gen () (.lift (effect "b")) := fun w => ⟨w + 1, rfl⟩
  have hgen (g : Unit) : ∃ t, t.Runnable ∧ Generates gen g t := ⟨_, hb, hgenerates⟩
  have hne : xs ≠ [] := List.cons_ne_nil _ _
  have hxs : ∀ x ∈ xs, x.Runnable ∧ x.isPure = false := by
    simp only [xs, List.forall_mem_cons]
    exact ⟨⟨⟨"a", rfl⟩, rfl⟩, ⟨trivial, rfl⟩, ⟨⟨"c", rfl⟩, rfl⟩, nofun⟩
  obtain ⟨L, hL, hor, hand⟩ := possibilities_chain (n := 1) hgen hne hxs
  have hmap : xs.map L = [.single "a", .single "b", .single "c"] := by
    simp only [xs, List.forall_mem_cons] at hL
    obtain ⟨ha, hdeferred, hc, -⟩ := hL
    have hone : Recognises gen 1 (.deferred () none) (.single "b") :=
      recognises_deferred hgen hb hgenerates (recognises_lifted hgen rfl none) none
    simp only [xs, List.map_cons, List.map_nil]
    rw [ha.unique (recognises_lifted hgen rfl none) 0, hdeferred.unique hone 0,
      hc.unique (recognises_lifted hgen rfl none) 0]
  have hinitial : Language.initials (xs.map L) = initial := by
    rw [hmap, ← Language.stages_eq_initials (List.cons_ne_nil _ _)]
    simp only [Language.stages, List.foldr, Language.followedBy_nothing, Language.maybe,
      Language.followedBy_or]
    funext s
    simp [initial, Language.or, Language.followedBy, Language.single]
  rw [hinitial] at hor hand
  exact ⟨hgen, hne, hxs, hor, hand⟩

end Analysis

end SelectiveEffects
