import SelectiveEffects.Proofs.Path.Enumeration

/-! Matching and enumeration come to an end on every path, and decide one language. -/

namespace SelectiveEffects.Path

section Turns

variable {S R : Type}

/-- Takes one turn after another, and at most so many, until a turn ends with a result. -/
def turns (turn : S → S ⊕ R) : Nat → S → Option R
  | 0, _ => none
  | n + 1, s =>
    match turn s with
    | .inl s => turns turn n s
    | .inr r => some r

/-- A turn ends with the result to come to, or leaves less to do before the same result. -/
def Progresses (turn : S → S ⊕ R) (cost : S → Nat) (result : S → R) : Prop :=
  ∀ s, match turn s with
    | .inl s' => cost s' < cost s ∧ result s = result s'
    | .inr r => result s = r

theorem Progresses.turns_eq {turn : S → S ⊕ R} {cost : S → Nat} {result : S → R}
    (h : Progresses turn cost result) {n : Nat} {s : S} (hn : cost s < n) :
    turns turn n s = some (result s) := by
  induction n generalizing s with
  | zero => exact absurd hn (Nat.not_lt_zero _)
  | succ n ih =>
    have hs := h s
    rw [turns]
    cases hturn : turn s with
    | inl s' =>
      rw [hturn] at hs
      obtain ⟨hless, hsame⟩ := hs
      rw [hsame]
      exact ih (Nat.lt_of_lt_of_le hless (Nat.le_of_lt_succ hn))
    | inr r =>
      rw [hturn] at hs
      exact congrArg some hs.symm

end Turns

/-- What is left to match, and the places that the walk was at. -/
structure Matching where
  stack : List (Branch (List String))
  seen : Std.HashSet (Place Nat) := ∅

/-- One turn of matching takes the topmost branch. -/
def matchTurn : Matching → Matching ⊕ Bool
  | ⟨[], _⟩ => .inr false
  | ⟨(labels, []) :: stack, seen⟩ => if labels.isEmpty then .inr true else .inl ⟨stack, seen⟩
  | ⟨(labels, node :: rest) :: stack, seen⟩ =>
    let here := place labels.length node rest
    if seen.contains here then .inl ⟨stack, seen⟩
    else
      match consume? labels node with
      | none => .inl ⟨stack, seen.insert here⟩
      | some left => .inl ⟨(expansions rest node).map (left, ·) ++ stack, seen.insert here⟩

theorem matchTurn_progresses :
    Progresses matchTurn (fun m => branchCost m.stack) (fun m => matchesFrom m.stack m.seen) := by
  rintro ⟨stack, seen⟩
  match stack with
  | [] => simp only [matchTurn, matchesFrom]
  | (labels, []) :: stack =>
    simp only [matchTurn, matchesFrom]
    cases labels.isEmpty with
    | true => rfl
    | false => exact ⟨branchCost_tail_lt _ _, rfl⟩
  | (labels, node :: rest) :: stack =>
    by_cases hseen : seen.contains (place labels.length node rest) = true
    · simp only [matchTurn, matchesFrom, if_pos hseen]
      exact ⟨branchCost_tail_lt _ _, trivial⟩
    · simp only [matchTurn, matchesFrom, if_neg hseen]
      cases consume? labels node with
      | none => exact ⟨branchCost_tail_lt _ _, rfl⟩
      | some left => exact ⟨branchCost_expansions_lt _ _ _ _ _, rfl⟩

/-- What is left to enumerate, the places that the walk was at, and the sequences it came to,
newest first. -/
structure Enumeration where
  stack : List (Branch (List String))
  seen : Std.HashSet (Place (List String)) := ∅
  found : List (List String) := []

/-- One turn of enumeration takes the topmost branch. -/
def enumerationTurn : Enumeration → Enumeration ⊕ List (List String)
  | ⟨[], _, found⟩ => .inr found.reverse
  | ⟨(labels, []) :: stack, seen, found⟩ => .inl ⟨stack, seen, labels :: found⟩
  | ⟨(labels, node :: rest) :: stack, seen, found⟩ =>
    let here := place labels node rest
    if seen.contains here then .inl ⟨stack, seen, found⟩
    else
      .inl ⟨(expansions rest node).map (extend labels node, ·) ++ stack, seen.insert here, found⟩

theorem enumerationTurn_progresses :
    Progresses enumerationTurn (fun e => branchCost e.stack)
      (fun e => e.found.reverse ++ walk e.stack e.seen) := by
  rintro ⟨stack, seen, found⟩
  match stack with
  | [] => simp only [enumerationTurn, walk, List.append_nil]
  | (labels, []) :: stack =>
    refine ⟨branchCost_tail_lt _ _, ?_⟩
    simp only [walk, List.reverse_cons, List.append_assoc, List.singleton_append]
  | (labels, node :: rest) :: stack =>
    by_cases hseen : seen.contains (place labels node rest) = true
    · simp only [enumerationTurn, walk, if_pos hseen]
      exact ⟨branchCost_tail_lt _ _, trivial⟩
    · simp only [enumerationTurn, walk, if_neg hseen]
      exact ⟨branchCost_expansions_lt _ _ _ _ _, trivial⟩

/-- However a path is nested and whichever parts it shares, both walks take no more turns than its
cost before they end, with the answer and with the list of sequences. The answer is whether the
labels are a sequence of its language, and the list holds exactly those. -/
theorem walks_decide_language {p : Path} (hp : p.Identified) (s : List String) :
    turns matchTurn (p.cost 1 + 1) ⟨[(s, [p])], ∅⟩ = some (p.accepts s) ∧
      turns enumerationTurn (p.cost 1 + 1) ⟨[([], [p])], ∅, []⟩ = some p.sequences ∧
      (p.accepts s = true ↔ p.language s) ∧ (s ∈ p.sequences ↔ p.language s) := by
  have haccepts := accepts_iff hp.shared (self_mem_nodes p) s
  refine ⟨matchTurn_progresses.turns_eq (Nat.lt_succ_self _), ?_, haccepts,
    (mem_sequences_iff p s).trans haccepts⟩
  rw [sequences_eq_walk]
  exact enumerationTurn_progresses.turns_eq (Nat.lt_succ_self _)

/-- A choice that is taken twice, the option of which comes once more after it. -/
theorem walks_decide_language_shared :
    let a := step 1 "a"
    let either := alt 2 [a, empty 3]
    let p := seq 4 [either, either, a]
    p.Identified ∧ p.language ["a", "a"] ∧ p.accepts ["a", "a"] = true ∧
      ["a", "a"] ∈ p.sequences := by
  intro a either p
  have hp : p.Identified := by
    simp [p, either, a, Identified, nodes, nodesAll, tag]
  have hlanguage : p.language ["a", "a"] :=
    ⟨["a"], ["a"], rfl, .inl rfl, [], ["a"], rfl, .inr (.inl rfl), ["a"], [], rfl, rfl, rfl⟩
  obtain ⟨-, -, haccepts, hsequences⟩ := walks_decide_language hp ["a", "a"]
  exact ⟨hp, hlanguage, haccepts.mpr hlanguage, hsequences.mpr hlanguage⟩

end SelectiveEffects.Path
