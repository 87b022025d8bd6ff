import SelectiveEffects.Path.Sequences
import SelectiveEffects.Proofs.Path.Language

/-! Matching decides the language of a path, although no place is walked through twice. -/

namespace SelectiveEffects.Path

/-- Paths in which a tag stands for one node, and which hold the parts of theirs. -/
structure Shared (U : Path → Prop) : Prop where
  eq_of_tag : ∀ {p q : Path}, U p → U q → p.tag = q.tag → p = q
  of_seq : ∀ {tag : Nat} {ps : List Path}, U (.seq tag ps) → ∀ p ∈ ps, U p
  of_alt : ∀ {tag : Nat} {ps : List Path}, U (.alt tag ps) → ∀ p ∈ ps, U p

/-- The labels left to a branch are a sequence of the paths left to it. -/
def Matches (b : Branch (List String)) : Prop :=
  languageAll b.2 b.1

theorem matches_nil {labels : List String} : Matches (labels, []) ↔ labels = [] := Iff.rfl

/-- A branch matches when one of the branches does that its first node expands to. -/
theorem matches_cons {labels : List String} {node : Path} {rest : Pending} :
    Matches (labels, node :: rest) ↔ ∃ left, consume? labels node = some left ∧
      ∃ next ∈ expansions rest node, Matches (left, next) := by
  cases node with
  | empty tag =>
    simp only [Matches, languageAll, language, Language.nothing_followedBy]
    simp [consume?, expansions]
  | step tag l =>
    simp only [Matches, languageAll, language, Language.followedBy, Language.single]
    constructor
    · rintro ⟨_, left, rfl, rfl, hleft⟩
      exact ⟨left, by simp [consume?], rest, List.mem_singleton_self rest, hleft⟩
    · rintro ⟨left, hleft, next, hnext, hm⟩
      cases List.mem_singleton.mp hnext
      cases labels with
      | nil => cases hleft
      | cons label labels =>
        simp only [consume?] at hleft
        split at hleft
        · rename_i hl
          cases hleft
          exact ⟨[l], left, by rw [hl]; rfl, rfl, hm⟩
        · cases hleft
  | seq tag ps =>
    simp only [Matches, languageAll, language, ← languageAll_append]
    simp [consume?, expansions]
  | alt tag ps =>
    simp only [Matches, languageAll, language, Language.followedBy, languageAny_iff]
    simp only [consume?, expansions, Option.some.injEq, exists_eq_left', List.mem_map]
    constructor
    · rintro ⟨a, b, hs, ⟨p, hp, ha⟩, hb⟩
      exact ⟨p :: rest, ⟨p, hp, rfl⟩, a, b, hs, ha, hb⟩
    · rintro ⟨_, ⟨p, hp, rfl⟩, a, b, hs, ha, hb⟩
      exact ⟨a, b, hs, ⟨p, hp, ha⟩, hb⟩

theorem suffix_of_consume {labels left : List String} {node : Path}
    (h : consume? labels node = some left) : left <:+ labels := by
  cases node with
  | step tag l =>
    cases labels with
    | nil => cases h
    | cons label labels =>
      simp only [consume?] at h
      split at h
      · cases h
        exact List.suffix_cons label left
      · cases h
  | _ =>
    cases h
    exact List.suffix_refl labels

theorem cost_lt_of_mem_expansions {node : Path} {rest next : Pending}
    (h : next ∈ expansions rest node) : next.cost < Pending.cost (node :: rest) := by
  have hmem : ∀ (xs : List Pending), next ∈ xs → next.cost ≤ branchCost (xs.map ((), ·)) := by
    intro xs hx
    induction xs with
    | nil => cases hx
    | cons x xs ih =>
      simp only [List.map_cons, branchCost]
      rcases List.mem_cons.mp hx with rfl | hx
      · omega
      · have := ih hx
        omega
  exact Nat.lt_of_le_of_lt (hmem _ h) (branchCost_expansions_lt_cost () node rest)

theorem matchesFrom_sound {stack : List (Branch (List String))}
    {seen : Std.HashSet (Place Nat)} (h : matchesFrom stack seen = true) :
    ∃ b ∈ stack, Matches b := by
  fun_induction matchesFrom stack seen with
  | case1 seen => cases h
  | case2 seen labels stack ih =>
    rcases Bool.or_eq_true_iff.mp h with hnil | h
    · exact ⟨_, List.mem_cons_self, List.isEmpty_iff.mp hnil⟩
    · obtain ⟨b, hb, hm⟩ := ih h
      exact ⟨b, List.mem_cons_of_mem _ hb, hm⟩
  | case3 seen labels node rest stack here hseen ih =>
    obtain ⟨b, hb, hm⟩ := ih h
    exact ⟨b, List.mem_cons_of_mem _ hb, hm⟩
  | case4 seen labels node rest stack here hseen hleft ih =>
    obtain ⟨b, hb, hm⟩ := ih h
    exact ⟨b, List.mem_cons_of_mem _ hb, hm⟩
  | case5 seen labels node rest stack here hseen left hleft ih =>
    obtain ⟨b, hb, hm⟩ := ih h
    rcases List.mem_append.mp hb with hb | hb
    · obtain ⟨next, hnext, rfl⟩ := List.mem_map.mp hb
      exact ⟨_, List.mem_cons_self, matches_cons.mpr ⟨left, hleft, next, hnext, hm⟩⟩
    · exact ⟨b, List.mem_cons_of_mem _ hb, hm⟩

section Completeness

variable {U : Path → Prop} {s : List String}

/-- A branch of a walk along `s`. -/
structure Along (U : Path → Prop) (s : List String) (b : Branch (List String)) : Prop where
  suffix : b.1 <:+ s
  mem : ∀ p ∈ b.2, U p

/-- The walk was at the first node of the branch. -/
def Visited (seen : Std.HashSet (Place Nat)) (b : Branch (List String)) : Prop :=
  ∃ node rest, b.2 = node :: rest ∧ seen.contains (place b.1.length node rest) = true

theorem eq_of_map_tag (hU : Shared U) {ps qs : List Path} (hp : ∀ p ∈ ps, U p)
    (hq : ∀ q ∈ qs, U q) (h : ps.map tag = qs.map tag) : ps = qs := by
  induction ps generalizing qs with
  | nil => simpa using h.symm
  | cons p ps ih =>
    cases qs with
    | nil => cases h
    | cons q qs =>
      simp only [List.map_cons, List.cons.injEq] at h
      rw [hU.eq_of_tag (hp p List.mem_cons_self) (hq q List.mem_cons_self) h.1,
        ih (fun p h => hp p (List.mem_cons_of_mem _ h)) (fun q h => hq q (List.mem_cons_of_mem _ h))
          h.2]

/-- A place belongs to one branch. -/
theorem Along.eq_of_place (hU : Shared U) {labels labels' : List String} {node node' : Path}
    {rest rest' : Pending} (h : Along U s (labels, node :: rest))
    (h' : Along U s (labels', node' :: rest'))
    (hplace : place labels.length node rest = place labels'.length node' rest') :
    (labels, node :: rest) = (labels', node' :: rest') := by
  simp only [place, Prod.mk.injEq] at hplace
  obtain ⟨hlength, htag, htags⟩ := hplace
  have hlabels : labels = labels' :=
    (List.suffix_of_suffix_length_le h.suffix h'.suffix (Nat.le_of_eq hlength)).eq_of_length hlength
  have hpending : node :: rest = node' :: rest' :=
    eq_of_map_tag hU h.mem h'.mem (by simp [htag, htags])
  rw [hlabels, hpending]

/-- What a walk keeps: where it was at a branch that matches, one that has less left to walk is
still to come. -/
structure Hopeful (U : Path → Prop) (s : List String) (stack : List (Branch (List String)))
    (seen : Std.HashSet (Place Nat)) : Prop where
  along : ∀ b ∈ stack, Along U s b
  below : ∀ b, Along U s b → Matches b → Visited seen b →
    ∃ b' ∈ stack, Matches b' ∧ b'.2.cost < b.2.cost

namespace Hopeful

variable {stack : List (Branch (List String))} {seen : Std.HashSet (Place Nat)}
variable {b : Branch (List String)}

theorem start {p : Path} (hp : U p) : Hopeful U s [(s, [p])] ∅ where
  along b hb := by
    cases List.mem_singleton.mp hb
    exact ⟨List.suffix_refl s, by simpa using hp⟩
  below b _ _ hv := by
    obtain ⟨node, rest, -, hseen⟩ := hv
    simp at hseen

theorem drop (h : Hopeful U s (b :: stack) seen) (hb : ¬ Matches b) : Hopeful U s stack seen where
  along b' hb' := h.along b' (List.mem_cons_of_mem _ hb')
  below b' ha hm hv := by
    obtain ⟨b'', hb'', hm'', hcost⟩ := h.below b' ha hm hv
    rcases List.mem_cons.mp hb'' with rfl | hb''
    · exact absurd hm'' hb
    · exact ⟨b'', hb'', hm'', hcost⟩

/-- A branch that was visited matches only when another one on the stack does. -/
theorem exists_of_visited (h : Hopeful U s (b :: stack) seen) (hm : Matches b)
    (hv : Visited seen b) : ∃ b' ∈ stack, Matches b' ∧ b'.2.cost < b.2.cost := by
  obtain ⟨b', hb', hm', hcost⟩ := h.below b (h.along b List.mem_cons_self) hm hv
  rcases List.mem_cons.mp hb' with rfl | hb'
  · exact absurd hcost (Nat.lt_irrefl _)
  · exact ⟨b', hb', hm', hcost⟩

theorem dropVisited (h : Hopeful U s (b :: stack) seen) (hv : Visited seen b) :
    Hopeful U s stack seen where
  along b' hb' := h.along b' (List.mem_cons_of_mem _ hb')
  below b' ha hm hv' := by
    obtain ⟨b₁, hb₁, hm₁, hcost₁⟩ := h.below b' ha hm hv'
    rcases List.mem_cons.mp hb₁ with rfl | hb₁
    · obtain ⟨b₂, hb₂, hm₂, hcost₂⟩ := h.exists_of_visited hm₁ hv
      exact ⟨b₂, hb₂, hm₂, Nat.lt_trans hcost₂ hcost₁⟩
    · exact ⟨b₁, hb₁, hm₁, hcost₁⟩

/-- A branch may be replaced by branches of which one matches when it does. -/
theorem visit (hU : Shared U) (next : List (Branch (List String))) {labels : List String}
    {node : Path} {rest : Pending} (h : Hopeful U s ((labels, node :: rest) :: stack) seen)
    (hn : ∀ b ∈ next, Along U s b)
    (hm : Matches (labels, node :: rest) →
      ∃ b ∈ next, Matches b ∧ b.2.cost < Pending.cost (node :: rest)) :
    Hopeful U s (next ++ stack) (seen.insert (place labels.length node rest)) where
  along b hb := by
    rcases List.mem_append.mp hb with hb | hb
    · exact hn b hb
    · exact h.along b (List.mem_cons_of_mem _ hb)
  below b ha hb hv := by
    have hhead : Matches (labels, node :: rest) →
        Pending.cost (node :: rest) ≤ b.2.cost → ∃ b' ∈ next ++ stack, Matches b' ∧
          b'.2.cost < b.2.cost := by
      intro hmatch hcost
      obtain ⟨b', hb', hm', hcost'⟩ := hm hmatch
      exact ⟨b', List.mem_append_left _ hb', hm', Nat.lt_of_lt_of_le hcost' hcost⟩
    obtain ⟨labels', pending⟩ := b
    obtain ⟨node', rest', rfl, hseen⟩ := hv
    rw [Std.HashSet.contains_insert, Bool.or_eq_true_iff, beq_iff_eq] at hseen
    rcases hseen with hplace | hseen
    · have heq := Along.eq_of_place hU (h.along _ List.mem_cons_self) ha hplace
      simp only [Prod.mk.injEq, List.cons.injEq] at heq
      obtain ⟨rfl, rfl, rfl⟩ := heq
      exact hhead hb (Nat.le_refl _)
    · obtain ⟨b₁, hb₁, hm₁, hcost₁⟩ := h.below _ ha hb ⟨node', rest', rfl, hseen⟩
      rcases List.mem_cons.mp hb₁ with rfl | hb₁
      · exact hhead hm₁ (Nat.le_of_lt hcost₁)
      · exact ⟨b₁, List.mem_append_right _ hb₁, hm₁, hcost₁⟩

/-- The branches that a visited node expands to. -/
theorem expand (hU : Shared U) {labels left : List String} {node : Path} {rest : Pending}
    (h : Hopeful U s ((labels, node :: rest) :: stack) seen)
    (hleft : consume? labels node = some left) :
    Hopeful U s ((expansions rest node).map (left, ·) ++ stack)
      (seen.insert (place labels.length node rest)) := by
  have ha := h.along _ List.mem_cons_self
  have hnode : U node := ha.mem node List.mem_cons_self
  have hrest : ∀ p ∈ rest, U p := fun p hp => ha.mem p (List.mem_cons_of_mem _ hp)
  refine visit hU _ h ?_ ?_
  · intro b hb
    obtain ⟨next, hnext, rfl⟩ := List.mem_map.mp hb
    refine ⟨(suffix_of_consume hleft).trans ha.suffix, ?_⟩
    intro p hp
    cases node with
    | seq tag ps =>
      cases List.mem_singleton.mp hnext
      rcases List.mem_append.mp hp with hp | hp
      · exact hU.of_seq hnode p hp
      · exact hrest p hp
    | alt tag ps =>
      obtain ⟨q, hq, rfl⟩ := List.mem_map.mp hnext
      rcases List.mem_cons.mp hp with rfl | hp
      · exact hU.of_alt hnode p hq
      · exact hrest p hp
    | _ =>
      cases List.mem_singleton.mp hnext
      exact hrest p hp
  · intro hm
    obtain ⟨left', hleft', next, hnext, hm'⟩ := matches_cons.mp hm
    cases hleft.symm.trans hleft'
    exact ⟨_, List.mem_map_of_mem hnext, hm', cost_lt_of_mem_expansions hnext⟩

end Hopeful

theorem matchesFrom_complete (hU : Shared U) {stack : List (Branch (List String))}
    {seen : Std.HashSet (Place Nat)} (h : Hopeful U s stack seen) (hm : ∃ b ∈ stack, Matches b) :
    matchesFrom stack seen = true := by
  fun_induction matchesFrom stack seen with
  | case1 seen => simp at hm
  | case2 seen labels stack ih =>
    by_cases hnil : Matches (labels, [])
    · simp [matches_nil.mp hnil]
    · obtain ⟨b, hb, hm⟩ := hm
      rcases List.mem_cons.mp hb with rfl | hb
      · exact absurd hm hnil
      · simp [ih (h.drop hnil) ⟨b, hb, hm⟩]
  | case3 seen labels node rest stack here hseen ih =>
    have hv : Visited seen (labels, node :: rest) := ⟨node, rest, rfl, hseen⟩
    refine ih (h.dropVisited hv) ?_
    obtain ⟨b, hb, hm⟩ := hm
    rcases List.mem_cons.mp hb with rfl | hb
    · obtain ⟨b', hb', hm', -⟩ := h.exists_of_visited hm hv
      exact ⟨b', hb', hm'⟩
    · exact ⟨b, hb, hm⟩
  | case4 seen labels node rest stack here hseen hleft ih =>
    have hhead : ¬ Matches (labels, node :: rest) := by
      intro hm
      obtain ⟨left, hleft', -⟩ := matches_cons.mp hm
      simp [hleft] at hleft'
    refine ih (Hopeful.visit hU [] h (by simp) fun hm => absurd hm hhead) ?_
    obtain ⟨b, hb, hm⟩ := hm
    rcases List.mem_cons.mp hb with rfl | hb
    · exact absurd hm hhead
    · exact ⟨b, hb, hm⟩
  | case5 seen labels node rest stack here hseen left hleft ih =>
    refine ih (h.expand hU hleft) ?_
    obtain ⟨b, hb, hm⟩ := hm
    rcases List.mem_cons.mp hb with rfl | hb
    · obtain ⟨left', hleft', next, hnext, hm'⟩ := matches_cons.mp hm
      cases hleft.symm.trans hleft'
      exact ⟨_, List.mem_append_left _ (List.mem_map_of_mem hnext), hm'⟩
    · exact ⟨b, List.mem_append_right _ hb, hm⟩

/-- Where tags tell the nodes apart, a path accepts exactly the sequences of its language. -/
theorem accepts_iff (hU : Shared U) {p : Path} (hp : U p) (s : List String) :
    p.accepts s = true ↔ p.language s := by
  have hstart : Matches (s, [p]) ↔ p.language s := by
    rw [Matches, languageAll_singleton]
  constructor
  · intro h
    obtain ⟨b, hb, hm⟩ := matchesFrom_sound h
    cases List.mem_singleton.mp hb
    exact hstart.mp hm
  · intro h
    exact matchesFrom_complete hU (Hopeful.start hp)
      ⟨_, List.mem_singleton_self _, hstart.mpr h⟩

end Completeness

end SelectiveEffects.Path
