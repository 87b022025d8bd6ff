import SelectiveEffects.Proofs.Analysis.Enumeration
import SelectiveEffects.Proofs.Tree.Language

/-! Possibility sets of composed trees, from those of their parts. -/

namespace SelectiveEffects

open Scenario

namespace Analysis

variable {P G σ : Type} [Primitives P] {gen : G → Action σ (Tree P G)} {n : Nat}

/-- From any world and with any cap, the analysis gives a set that recognises just the sequences of
the language. -/
def Recognises (gen : G → Action σ (Tree P G)) (n : Nat) (t : Tree P G) (L : Language) : Prop :=
  ∀ (w : σ) (cap : Int), 0 < cap → ∃ S w', possibilities gen t n false cap w = .ok S w' ∧
    ∀ s, S.contains s = true ↔ L s

theorem Recognises.unique {t : Tree P G} {L L' : Language} (h : Recognises gen n t L)
    (h' : Recognises gen n t L') (w : σ) : L = L' := by
  obtain ⟨S, w₁, hS, hL⟩ := h w 1 Int.one_pos
  obtain ⟨S', w₁', hS', hL'⟩ := h' w 1 Int.one_pos
  cases hS.symm.trans hS'
  funext s
  exact propext ((hL s).symm.trans (hL' s))

theorem recognises_of_describes {t : Tree P G} {L : Language} {cut : Prop}
    (h : Survey.Describes (Survey.ofTree gen false n t) L cut) : Recognises gen n t L := by
  intro w cap hcap
  obtain ⟨S, w', hS, hdenotes⟩ := denotes_of_describes h hcap w
  exact ⟨S, w', hS, hdenotes.contains_iff⟩

theorem recognises_language (hgen : ∀ g, ∃ t, t.Runnable ∧ Generates gen g t) {t : Tree P G}
    (ht : t.Runnable) : Recognises gen n t (t.language gen n) :=
  recognises_of_describes (Survey.describes_ofTree hgen n ht)

theorem recognises_lifted (hgen : ∀ g, ∃ t, t.Runnable ∧ Generates gen g t) {e : Effect P}
    {label : String} (h : e.label = .ok label) (k : Post P) :
    Recognises gen n (.lifted e k) (.single label) := by
  rw [← Tree.labelLanguage_eq h]
  cases n <;> exact recognises_language hgen ⟨label, h⟩

theorem recognises_deferred (hgen : ∀ g, ∃ t, t.Runnable ∧ Generates gen g t) {g : G}
    {t : Tree P G} (ht : t.Runnable) (hg : Generates gen g t) {L : Language}
    (h : Recognises gen n t L) (k : Post P) : Recognises gen (n + 1) (.deferred g k) L := by
  intro w
  have hrec : Recognises gen (n + 1) (.deferred g k) _ := recognises_language hgen trivial
  rw [Tree.language_deferred (Tree.Every.known ht).isNode hg w,
    (recognises_language hgen ht).unique h w] at hrec
  exact hrec w

/-- At every bound, languages read off the nodes are recognised, with a language for each deferred
node. -/
theorem exists_recognises (hgen : ∀ g, ∃ t, t.Runnable ∧ Generates gen g t) :
    ∃ D, ∀ t : Tree P G, t.Runnable → Recognises gen n t (t.languageWith D) := by
  cases n with
  | zero => exact ⟨_, fun _ => recognises_language hgen⟩
  | succ n => exact ⟨_, fun _ => recognises_language hgen⟩

/-- Possibility sets compose as the trees do, known operands included: mapping keeps them, applying
puts one after the other, handling may leave the handler out, and selection takes one branch. -/
theorem possibilities_compose (hgen : ∀ g, ∃ t, t.Runnable ∧ Generates gen g t)
    {x y z : Tree P G} (hx : x.Runnable) (hy : y.Runnable) (hz : z.Runnable) :
    ∃ J K L, Recognises gen n x J ∧ Recognises gen n y K ∧ Recognises gen n z L ∧
      (∀ f t, x.fmap f = .ok t → Recognises gen n t J) ∧
      (∀ t, x.ap y = .ok t → Recognises gen n t (J.followedBy K)) ∧
      (∀ g t, Context.free.liftA2 g x y = .ok t → Recognises gen n t (J.followedBy K)) ∧
      (∀ t, (∀ a, x ≠ .pure (.left a)) → x.handle y = .ok t →
        Recognises gen n t (J.followedBy K.maybe)) ∧
      ∀ t, x.isPure = false → x.select y z = .ok t →
        Recognises gen n t (J.followedBy (K.or L)) := by
  obtain ⟨D, hrec⟩ := exists_recognises (n := n) hgen
  refine ⟨_, _, _, hrec _ hx, hrec _ hy, hrec _ hz, fun f t h => ?_, fun t h => ?_, fun g t h => ?_,
    fun t hne h => ?_, fun t hpure h => ?_⟩
  · rw [← Tree.languageWith_fmap h]
    exact hrec _ (Tree.every_fmap h hx)
  · rw [← Tree.languageWith_ap h]
    exact hrec _ (Tree.every_ap h hx hy)
  · rw [← Tree.languageWith_liftA2 h]
    exact hrec _ (Tree.every_liftA2 h hx hy)
  · rw [← Tree.languageWith_handle h hne]
    exact hrec _ (Tree.every_handle h hx hy)
  · rw [← Tree.languageWith_select h hpure]
    exact hrec _ (Tree.every_select h hx hy hz)

/-- One effect, another that is deferred, and a known function. -/
theorem possibilities_compose_deferred :
    let effect (name : String) : Effect Builtin :=
      { className := name, lineage := [name], fields := [], label := .ok name }
    let gen : Unit → Action Nat (Tree Builtin Unit) := fun _ => do
      modify (· + 1)
      return .lift (effect "c")
    let x : Tree Builtin Unit := .lift (effect "a")
    let y : Tree Builtin Unit := .deferred () none
    let z : Tree Builtin Unit := .pure .identity
    (∀ g, ∃ t, t.Runnable ∧ Generates gen g t) ∧ x.Runnable ∧ y.Runnable ∧ z.Runnable ∧
      (∃ t, x.ap y = .ok t ∧ Recognises gen 1 t fun s => s = ["a", "c"]) ∧
      (∃ t, x.handle y = .ok t ∧ Recognises gen 1 t fun s => s = ["a"] ∨ s = ["a", "c"]) ∧
      ∃ t, x.select y z = .ok t ∧ Recognises gen 1 t fun s => s = ["a", "c"] ∨ s = ["a"] := by
  intro effect gen x y z
  have hc : (Tree.lift (effect "c") : Tree Builtin Unit).Runnable := ⟨"c", rfl⟩
  have hgen (g : Unit) : ∃ t, t.Runnable ∧ Generates gen g t := ⟨_, hc, fun w => ⟨w + 1, rfl⟩⟩
  have hx : x.Runnable := ⟨"a", rfl⟩
  have hy : y.Runnable := trivial
  have hz : z.Runnable := trivial
  obtain ⟨J, K, L, hJ, hK, hL, -, hap, -, hhandle, hselect⟩ :=
    possibilities_compose (n := 1) hgen hx hy hz
  have hJa : J = .single "a" := hJ.unique (recognises_lifted hgen rfl none) 0
  have hKc : K = .single "c" :=
    hK.unique (recognises_deferred hgen hc (fun w => ⟨w + 1, rfl⟩)
      (recognises_lifted hgen rfl none) none) 0
  have hLnothing : L = .nothing := hL.unique (recognises_language hgen hz) 0
  subst hJa hKc hLnothing
  have hboth : (Language.single "a").followedBy (.single "c") = fun s => s = ["a", "c"] := by
    funext s
    simp [Language.followedBy, Language.single]
  refine ⟨hgen, hx, hy, hz, ⟨_, rfl, ?_⟩, ⟨_, rfl, ?_⟩, ⟨_, rfl, ?_⟩⟩
  · rw [← hboth]
    exact hap _ rfl
  · have hunknown (a : Val Builtin) : x ≠ .pure (.left a) := by simp [x, Tree.lift]
    have hrec := hhandle _ hunknown rfl
    rwa [Language.maybe, Language.followedBy_or, Language.followedBy_nothing, hboth] at hrec
  · have hrec := hselect _ rfl rfl
    rwa [Language.followedBy_or, Language.followedBy_nothing, hboth] at hrec

end Analysis

end SelectiveEffects
