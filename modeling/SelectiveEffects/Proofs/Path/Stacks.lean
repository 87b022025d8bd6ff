import SelectiveEffects.Path.Stacks
import SelectiveEffects.Proofs.Path.Labels

/-! Listing on explicit stacks comes to what the recursions over paths and trees come to. -/

namespace SelectiveEffects

namespace Path

/-- Any node but a step has its labels from its children. -/
theorem leaves_eq_leavesAll_children {p : Path} (h : ∀ tag l, p ≠ step tag l) :
    p.leaves = leavesAll p.children := by
  cases p with
  | step tag l => exact absurd rfl (h tag l)
  | _ => rfl

theorem mem_seeing {seen : List String} {l l' : String} :
    l' ∈ seeing seen l ↔ l' ∈ seen ∨ l' = l := by
  unfold seeing
  split
  · rename_i hl
    exact (or_iff_left_of_imp fun heq => heq ▸ List.contains_iff_mem.mp hl).symm
  · rw [List.mem_append, List.mem_singleton]

/-- The labels not yet seen follow those seen, by first occurrence. -/
theorem labelsFrom_eq (seen : List String) (stack : List Path) :
    labelsFrom seen stack = seen ++ (distinct (leavesAll stack)).filter (· ∉ seen) := by
  induction seen, stack using labelsFrom.induct with
  | case1 seen => simp [labelsFrom, leavesAll, distinct]
  | case2 seen tag l stack ih =>
    have hrest : (distinct (leavesAll stack)).filter (· ∉ seeing seen l) =
        ((distinct (leavesAll stack)).filter (· != l)).filter (· ∉ seen) := by
      rw [List.filter_filter]
      refine List.filter_congr fun l' _ => ?_
      by_cases hl' : l' = l <;> simp [mem_seeing, hl']
    rw [labelsFrom, ih, hrest, leavesAll, leaves, List.singleton_append, distinct, seeing]
    by_cases hl : l ∈ seen <;> simp [hl]
  | case3 seen p stack hstep ih =>
    rw [labelsFrom, ih, leavesAll, leaves_eq_leavesAll_children hstep]
    · simp only [leavesAll_eq, List.flatMap_append]
    · exact hstep

theorem labelsByStack_eq (p : Path) : p.labelsByStack = p.labels := by
  rw [labelsByStack, labelsFrom_eq]
  simp [leavesAll, labels]

/-- A node with children joins what these left on the results. -/
theorem requiredFrom_join {p : Path} (stack : List Job) (results : List (List String)) :
    requiredFrom (.join p :: stack) ((requiredAll p.children).reverse ++ results) =
      requiredFrom stack (p.joined (requiredAll p.children) :: results) := by
  have hcount : p.children.length = (requiredAll p.children).reverse.length := by
    rw [requiredAll_eq, List.length_reverse, List.length_map]
  rw [requiredFrom, hcount]
  simp only [List.take_left, List.drop_left, List.reverse_reverse]

theorem requiredFrom_visit_of_children {p : Path} {stack : List Job} {results : List (List String)}
    (hstep : ∀ tag l, p ≠ step tag l)
    (hvisits : requiredFrom (p.children.map .visit ++ .join p :: stack) results =
      requiredFrom (.join p :: stack) ((requiredAll p.children).reverse ++ results)) :
    requiredFrom (.visit p :: stack) results =
      requiredFrom stack (p.joined (requiredAll p.children) :: results) := by
  rw [requiredFrom]
  · split
    · rename_i hnone
      have hnil : p.joined [] = [] := by cases p <;> rfl
      rw [List.isEmpty_iff.mp hnone, requiredAll, hnil]
    · rw [hvisits, requiredFrom_join]
  · exact hstep

mutual

/-- Looking into a node leaves what it requires on the results. -/
theorem requiredFrom_visit (p : Path) (stack : List Job) (results : List (List String)) :
    requiredFrom (.visit p :: stack) results = requiredFrom stack (p.required :: results) := by
  cases p with
  | step tag l => rw [requiredFrom, required]
  | empty tag => exact requiredFrom_visit_of_children nofun rfl
  | seq tag ps => exact requiredFrom_visit_of_children nofun (requiredFrom_visits ps _ results)
  | alt tag ps => exact requiredFrom_visit_of_children nofun (requiredFrom_visits ps _ results)

theorem requiredFrom_visits (ps : List Path) (stack : List Job) (results : List (List String)) :
    requiredFrom (ps.map .visit ++ stack) results =
      requiredFrom stack ((requiredAll ps).reverse ++ results) := by
  cases ps with
  | nil => rfl
  | cons p ps =>
    rw [List.map_cons, List.cons_append, requiredFrom_visit p, requiredFrom_visits ps, requiredAll,
      List.reverse_cons, List.append_assoc, List.singleton_append]

end

theorem necessaryByStack_eq (p : Path) : p.necessaryByStack = p.necessary := by
  rw [necessaryByStack, requiredFrom_visit, requiredFrom, List.headD_cons, necessary]

end Path

namespace Tree

variable {P G : Type}

theorem effectsFrom_eq (stack : List (Tree P G)) : effectsFrom stack = stack.flatMap effects := by
  induction stack using effectsFrom.induct with
  | case1 => simp [effectsFrom]
  | case2 e k stack ih => simp [effectsFrom, ih]
  | case3 d h k route stack ih => simp [effectsFrom, ih]
  | case4 t stack hlifted hselection ih =>
    have hnone : t.effects = [] := by
      cases t with
      | lifted e k => exact (hlifted e k rfl).elim
      | selection d h k route => exact (hselection d h k route rfl).elim
      | _ => rfl
    rw [effectsFrom, ih, List.flatMap_cons, hnone, List.nil_append]
    · exact hlifted
    · exact hselection

theorem effectsByStack_eq (t : Tree P G) : t.effectsByStack = t.effects := by
  rw [effectsByStack, effectsFrom_eq, List.flatMap_singleton]

end Tree

end SelectiveEffects
