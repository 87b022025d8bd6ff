import SelectiveEffects.Proofs.Path.Numbering

/-! Enumerating a path: the walk comes to exactly the sequences that matching accepts. -/

namespace SelectiveEffects.Path

/-- Feeds sequences to a function, one after another, until it is done. -/
def feedAll {β : Type} (f : List String → β → ForInStep β) : List (List String) → β → β
  | [], b => b
  | labels :: rest, b =>
    match f labels b with
    | .done b => b
    | .yield b => feedAll f rest b

/-- The sequences that the branches come to, in the order of the walk. -/
def walk (stack : List (Branch (List String))) (seen : Std.HashSet (Place (List String))) :
    List (List String) :=
  match stack with
  | [] => []
  | (labels, []) :: stack => labels :: walk stack seen
  | (labels, node :: rest) :: stack =>
    let here := place labels node rest
    if seen.contains here then walk stack seen
    else walk ((expansions rest node).map (extend labels node, ·) ++ stack) (seen.insert here)
termination_by branchCost stack
decreasing_by
  · exact branchCost_tail_lt _ _
  · exact branchCost_tail_lt _ _
  · exact branchCost_expansions_lt _ _ _ _ _

theorem feedFrom_eq_feedAll {β : Type} (f : List String → β → ForInStep β)
    (stack : List (Branch (List String))) (seen : Std.HashSet (Place (List String))) (b : β) :
    feedFrom f stack seen b = feedAll f (walk stack seen) b := by
  fun_induction walk stack seen generalizing b with
  | case1 seen => rw [feedFrom]; rfl
  | case2 seen labels stack ih =>
    rw [feedFrom, feedAll]
    cases f labels b with
    | done b => rfl
    | yield b => exact ih b
  | case3 seen labels node rest stack here hseen ih =>
    rw [feedFrom, if_pos hseen]
    exact ih b
  | case4 seen labels node rest stack here hseen ih =>
    rw [feedFrom, if_neg hseen]
    exact ih b

theorem feedAll_collecting (ls found : List (List String)) :
    feedAll (fun labels found => .yield (labels :: found)) ls found = ls.reverse ++ found := by
  induction ls generalizing found with
  | nil => rfl
  | cons l ls ih =>
    rw [List.reverse_cons, List.append_assoc, List.singleton_append, ← ih (l :: found)]
    rfl

theorem sequences_eq_walk (p : Path) : p.sequences = walk [([], [p])] ∅ := by
  rw [sequences, feed, feedFrom_eq_feedAll, feedAll_collecting, List.append_nil,
    List.reverse_reverse]

/-- Feeding a path is feeding its sequences. -/
theorem feed_eq {β : Type} (f : List String → β → ForInStep β) (p : Path) (b : β) :
    p.feed f b = feedAll f p.sequences b := by
  rw [feed, feedFrom_eq_feedAll, sequences_eq_walk]

section Along

variable {s : List String}

/-- A branch of the enumeration that may still come to `s`, as a branch of matching `s`. -/
def along (s : List String) (b : Branch (List String)) : Option (Branch (List String)) :=
  if b.1 <+: s then some (s.drop b.1.length, b.2) else none

theorem along_some {labels : List String} (h : labels <+: s) (pending : Pending) :
    along s (labels, pending) = some (s.drop labels.length, pending) :=
  if_pos h

theorem along_none {labels : List String} (h : ¬ labels <+: s) (pending : Pending) :
    along s (labels, pending) = none :=
  if_neg h

theorem prefix_of_extend {labels : List String} {node : Path} (h : extend labels node <+: s) :
    labels <+: s := by
  cases node with
  | step tag l => exact (List.prefix_append labels [l]).trans h
  | _ => exact h

/-- What a node adds to the labels taken is what it consumes of the labels left. -/
theorem along_extend {labels : List String} (h : labels <+: s) (node : Path) (next : Pending) :
    along s (extend labels node, next) =
      (consume? (s.drop labels.length) node).map fun left => (left, next) := by
  obtain ⟨rest, rfl⟩ := h
  rw [List.drop_left]
  cases node with
  | step tag l =>
    have hstart : labels ++ [l] <+: labels ++ rest ↔ [l] <+: rest :=
      List.prefix_append_right_inj labels
    cases rest with
    | nil => exact along_none (fun hp => by simpa using hstart.mp hp) next
    | cons l' rest =>
      by_cases hl : l' = l
      · subst hl
        have hs : labels ++ l' :: rest = (labels ++ [l']) ++ rest := by simp
        rw [extend, hs, along_some (List.prefix_append _ rest), List.drop_left]
        simp [consume?]
      · rw [extend, along_none (by simpa [hstart, eq_comm] using hl)]
        simp [consume?, hl]
  | _ =>
    have hs := along_some (List.prefix_append labels rest) next
    rw [List.drop_left] at hs
    exact hs

/-- The places that matching `s` has seen are those that the enumeration has seen along `s`. -/
def SeesAlong (s : List String) (seen : Std.HashSet (Place (List String)))
    (seen' : Std.HashSet (Place Nat)) : Prop :=
  ∀ (labels : List String) (node : Path) (rest : Pending), labels <+: s →
    seen'.contains (place (s.drop labels.length).length node rest) =
      seen.contains (place labels node rest)

/-- Along one sequence, how many labels are left tells which were taken. -/
theorem length_drop_eq_iff {labels labels' : List String} (h : labels <+: s) (h' : labels' <+: s) :
    (s.drop labels.length).length = (s.drop labels'.length).length ↔ labels = labels' := by
  have hle := h.length_le
  have hle' := h'.length_le
  rw [List.length_drop, List.length_drop]
  constructor
  · intro hlength
    exact (List.prefix_of_prefix_length_le h h' (by omega)).eq_of_length (by omega)
  · rintro rfl
    rfl

theorem SeesAlong.insert {seen : Std.HashSet (Place (List String))}
    {seen' : Std.HashSet (Place Nat)} (h : SeesAlong s seen seen') {labels : List String}
    (hl : labels <+: s) (node : Path) (rest : Pending) :
    SeesAlong s (seen.insert (place labels node rest))
      (seen'.insert (place (s.drop labels.length).length node rest)) := by
  intro labels' node' rest' hl'
  have hplace : (place (s.drop labels.length).length node rest ==
      place (s.drop labels'.length).length node' rest') =
        (place labels node rest == place labels' node' rest') := by
    rw [Bool.eq_iff_iff, beq_iff_eq, beq_iff_eq]
    simp only [place, Prod.mk.injEq, length_drop_eq_iff hl hl']
  rw [Std.HashSet.contains_insert, Std.HashSet.contains_insert, hplace, h labels' node' rest' hl']

/-- A place that `s` does not lead to plays no part in matching it. -/
theorem SeesAlong.insert_other {seen : Std.HashSet (Place (List String))}
    {seen' : Std.HashSet (Place Nat)} (h : SeesAlong s seen seen') {labels : List String}
    (hl : ¬ labels <+: s) (node : Path) (rest : Pending) :
    SeesAlong s (seen.insert (place labels node rest)) seen' := by
  intro labels' node' rest' hl'
  have hplace : (place labels node rest == place labels' node' rest') = false := by
    rw [beq_eq_false_iff_ne]
    intro heq
    cases congrArg Prod.fst heq
    exact hl hl'
  rw [Std.HashSet.contains_insert, hplace, Bool.false_or, h labels' node' rest' hl']

/-- The walk comes to a sequence exactly when matching does, which follows those branches alone
that may lead there. -/
theorem mem_walk_iff {stack : List (Branch (List String))}
    {seen : Std.HashSet (Place (List String))} {seen' : Std.HashSet (Place Nat)}
    (h : SeesAlong s seen seen') :
    s ∈ walk stack seen ↔ matchesFrom (stack.filterMap (along s)) seen' = true := by
  fun_induction walk stack seen generalizing seen' with
  | case1 seen => simp [matchesFrom]
  | case2 seen labels stack ih =>
    rw [List.mem_cons, ih h]
    by_cases hl : labels <+: s
    · rw [List.filterMap_cons_some (along_some hl []), matchesFrom, Bool.or_eq_true,
        List.isEmpty_iff, List.drop_eq_nil_iff]
      have hself : s = labels ↔ s.length ≤ labels.length :=
        ⟨fun hs => Nat.le_of_eq (congrArg List.length hs), fun hle => (hl.eq_of_length_le hle).symm⟩
      rw [hself]
    · have hne : s ≠ labels := fun hs => hl (hs ▸ List.prefix_rfl)
      rw [List.filterMap_cons_none (along_none hl []), or_iff_right hne]
  | case3 seen labels node rest stack here hseen =>
    rename_i ih
    rw [ih h]
    by_cases hl : labels <+: s
    · have hseen' := (h labels node rest hl).trans hseen
      rw [List.filterMap_cons_some (along_some hl _), matchesFrom, if_pos hseen']
    · rw [List.filterMap_cons_none (along_none hl _)]
  | case4 seen labels node rest stack here hseen =>
    rename_i ih
    have hnone : (expansions rest node).filterMap
        (fun _ => (none : Option (Branch (List String)))) = [] :=
      List.filterMap_eq_nil_iff.mpr fun _ _ => rfl
    by_cases hl : labels <+: s
    · have hunseen : ¬ seen'.contains (place (s.drop labels.length).length node rest) = true := by
        rw [h labels node rest hl]
        exact hseen
      rw [ih (h.insert hl node rest), List.filterMap_cons_some (along_some hl _),
        matchesFrom, if_neg hunseen, List.filterMap_append, List.filterMap_map]
      have hnext : along s ∘ (fun next => (extend labels node, next)) = fun next =>
          (consume? (s.drop labels.length) node).map fun left => (left, next) :=
        funext (along_extend hl node)
      rw [hnext]
      cases consume? (s.drop labels.length) node with
      | none => simp only [Option.map_none, hnone, List.nil_append]
      | some left => simp
    · have hnext : along s ∘ (fun next => (extend labels node, next)) = fun _ => none :=
        funext fun next => along_none (fun hp => hl (prefix_of_extend hp)) next
      rw [ih (h.insert_other hl node rest), List.filterMap_cons_none (along_none hl _),
        List.filterMap_append, List.filterMap_map, hnext, hnone, List.nil_append]

end Along

/-- Enumeration and matching agree, on whatever path. -/
theorem mem_sequences_iff (p : Path) (s : List String) :
    s ∈ p.sequences ↔ p.accepts s = true := by
  have hempty : SeesAlong s ∅ ∅ := fun labels node rest _ => by simp
  rw [sequences_eq_walk, mem_walk_iff hempty]
  rfl

end SelectiveEffects.Path
