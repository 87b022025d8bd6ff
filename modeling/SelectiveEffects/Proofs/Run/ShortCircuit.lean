import SelectiveEffects.Proofs.Run.Branching
import SelectiveEffects.Proofs.Tree.Known

/-! Chains of conditionals over a list run its trees up to the first that settles the result. -/

namespace SelectiveEffects

open Machine Scenario

namespace Conclusions

variable {P G σ : Type}

/-- Runs one after another, until one comes to a value of the sought truth, to a value without a truth
or to no value. The value at the end tells whether a value of the sought truth was found. -/
def search (sought : Bool) (Rs : List (Conclusions P G σ)) : Conclusions P G σ := fun w last =>
  series (!sought) Rs (ofExcept (.ok (.bool !sought))) w last ∨
    ∃ passed R others, Rs = passed ++ R :: others ∧
      series (!sought) passed (R.settles sought (.bool sought)) w last

theorem search_nil (sought : Bool) :
    search sought [] = (ofExcept (.ok (.bool !sought)) : Conclusions P G σ) := by
  funext w last
  simp [search, series_nil]

theorem search_cons (sought : Bool) (R : Conclusions P G σ) (Rs : List (Conclusions P G σ)) :
    search sought (R :: Rs) = R.andThen (byTruth fun b =>
      if b = sought then ofExcept (.ok (.bool sought)) else search sought Rs) := by
  funext w last
  refine propext (Iff.trans ?_ andThen_byTruth_iff.symm)
  constructor
  · rintro (hall | ⟨passed, R', others, hRs, hseries⟩)
    · obtain ⟨v, j, hdone, htruth, second, hsecond, hlast⟩ := series_cons_iff.mp hall
      exact .inr ⟨v, j, hdone, htruth, second, .inl hsecond, hlast⟩
    · cases passed with
      | nil =>
        cases hRs
        rw [series_nil] at hseries
        exact .inl hseries
      | cons R₀ passed =>
        cases hRs
        obtain ⟨v, j, hdone, htruth, second, hsecond, hlast⟩ := series_cons_iff.mp hseries
        exact .inr ⟨v, j, hdone, htruth, second, .inr ⟨passed, R', others, rfl, hsecond⟩, hlast⟩
  · rintro (hsettles | ⟨v, j, hdone, htruth, second, hsecond, hlast⟩)
    · refine .inr ⟨[], R, Rs, rfl, ?_⟩
      rwa [series_nil]
    · rcases hsecond with hall | ⟨passed, R', others, rfl, hseries⟩
      · exact .inl (series_cons_iff.mpr ⟨v, j, hdone, htruth, second, hall, hlast⟩)
      · exact .inr ⟨R :: passed, R', others, rfl,
          series_cons_iff.mpr ⟨v, j, hdone, htruth, second, hseries, hlast⟩⟩

end Conclusions

namespace Tree

variable {P G : Type} [Primitives P] {xs : List (Tree P G)}

theorem exists_orAll (hxs : ∀ x ∈ xs, x.Known ∧ x.Decides) :
    ∃ t, Context.free.orAll xs = .ok t := by
  have hlink (x : Tree P G) (_ : List (Tree P G)) (y : Tree P G) (hx : x.Known ∧ x.Decides)
      (hy : y.Known) : ∃ t, Context.free.orS x y = .ok t ∧ t.Known :=
    exists_ifS hx.1 hx.2 trivial hy
  have hno : (pure (.bool false) : Tree P G).Known := trivial
  obtain ⟨t, ht, -⟩ := exists_foldrM hno hlink hxs
  exact ⟨t, ht⟩

theorem exists_andAll (hxs : ∀ x ∈ xs, x.Known ∧ x.Decides) :
    ∃ t, Context.free.andAll xs = .ok t := by
  have hlink (x : Tree P G) (_ : List (Tree P G)) (y : Tree P G) (hx : x.Known ∧ x.Decides)
      (hy : y.Known) : ∃ t, Context.free.andS x y = .ok t ∧ t.Known :=
    exists_ifS hx.1 hx.2 hy trivial
  have hyes : (pure (.bool true) : Tree P G).Known := trivial
  obtain ⟨t, ht, -⟩ := exists_foldrM hyes hlink hxs
  exact ⟨t, ht⟩

end Tree

namespace Interpreter

variable {P G σ : Type} [Primitives P]
variable {I : Interpreter P σ} {gen : G → Action σ (Tree P G)} {mode : Mode}

/-- A chain runs as a search when each link decides whether to go on with the next one. -/
theorem runsTo_foldrM {sought : Bool} {link : Tree P G → Tree P G → Except Fault (Tree P G)}
    (hlink : ∀ x y t, link x y = .ok t →
      I.RunsTo gen mode t = (I.RunsTo gen mode x).andThen (.byTruth fun b =>
        if b = sought then .ofExcept (.ok (.bool sought)) else I.RunsTo gen mode y))
    {xs : List (Tree P G)} {t : Tree P G}
    (h : xs.foldrM link (.pure (.bool !sought)) = .ok t) :
    I.RunsTo gen mode t = Conclusions.search sought (xs.map (I.RunsTo gen mode)) := by
  refine foldrM_induction (p := fun xs t =>
    I.RunsTo gen mode t = .search sought (xs.map (I.RunsTo gen mode))) h ?_ ?_
  · rw [runsTo_pure, List.map_nil, Conclusions.search_nil]
  · intro x xs y t hlinked hrest
    rw [hlink x y t hlinked, hrest, List.map_cons, Conclusions.search_cons]

theorem runsTo_orS (x y t : Tree P G) (h : Context.free.orS x y = .ok t) :
    I.RunsTo gen mode t = (I.RunsTo gen mode x).andThen (.byTruth fun b =>
      if b = true then .ofExcept (.ok (.bool true)) else I.RunsTo gen mode y) := by
  have hif : Context.free.ifS x (.pure (.bool true)) y = .ok t := h
  rw [runsTo_ifS hif, runsTo_pure]

theorem runsTo_andS (x y t : Tree P G) (h : Context.free.andS x y = .ok t) :
    I.RunsTo gen mode t = (I.RunsTo gen mode x).andThen (.byTruth fun b =>
      if b = false then .ofExcept (.ok (.bool false)) else I.RunsTo gen mode y) :=
  runsTo_ifS_pure h

/-- Running the disjunction of a list of trees runs them in turn, up to the first that yields truth
or no value; the conjunction, up to the first that yields no truth or no value. A value whose truth
cannot be told counts as none. What later ones would do is not done. The chains can be made unless
that is so of an element that is known beforehand. Over items, the trees that a predicate gives are
taken. -/
theorem runsTo_orAll_andAll_iff (gen : G → Action σ (Tree P G)) (mode : Mode)
    {xs : List (Tree P G)} (hxs : ∀ x ∈ xs, x.Known) :
    (∀ t, Context.free.orAll xs = .ok t → ∀ w last, I.RunsTo gen mode t w last ↔
      Conclusions.search true (xs.map (I.RunsTo gen mode)) w last) ∧
    (∀ t, Context.free.andAll xs = .ok t → ∀ w last, I.RunsTo gen mode t w last ↔
      Conclusions.search false (xs.map (I.RunsTo gen mode)) w last) ∧
    ((∀ x ∈ xs, x.Decides) →
      (∃ t, Context.free.orAll xs = .ok t) ∧ ∃ t, Context.free.andAll xs = .ok t) ∧
    ∀ (α : Type) (predicate : α → Except Fault (Tree P G)) (items : List α),
      Context.free.anyS predicate items = items.mapM predicate >>= Context.free.orAll ∧
      Context.free.allS predicate items = items.mapM predicate >>= Context.free.andAll := by
  refine ⟨fun t ht w last => ?_, fun t ht w last => ?_, fun hdecides => ?_,
    fun α predicate items => ⟨rfl, rfl⟩⟩
  · have hrun : I.RunsTo gen mode t = Conclusions.search true (xs.map (I.RunsTo gen mode)) :=
      runsTo_foldrM runsTo_orS ht
    rw [hrun]
  · have hrun : I.RunsTo gen mode t = Conclusions.search false (xs.map (I.RunsTo gen mode)) :=
      runsTo_foldrM runsTo_andS ht
    rw [hrun]
  · have hall (x : Tree P G) (hx : x ∈ xs) : x.Known ∧ x.Decides := ⟨hxs x hx, hdecides x hx⟩
    exact ⟨Tree.exists_orAll hall, Tree.exists_andAll hall⟩

/-- The handler answers with truth from its second call on, which is the last one here. -/
theorem runsTo_orAll_andAll_iff_lifted :
    let ask : Effect Builtin :=
      { className := "Ask", lineage := ["Ask"], fields := [], label := .ok "Ask" }
    let I : Interpreter Builtin Nat :=
      { fallback := some fun _ => do
          return .value (.bool (← modifyGet fun n => (decide (0 < n), n + 1))) }
    let gen : Empty → Action Nat (Tree Builtin Empty) := nofun
    let xs : List (Tree Builtin Empty) := [.lift ask, .pure (.int 0), .lift ask, .lift ask]
    (∀ x ∈ xs, x.Known) ∧ (∀ x ∈ xs, x.Decides) ∧ ∃ t, Context.free.orAll xs = .ok t ∧
      I.RunsTo gen .sync t 0 (.done (.bool true) ⟨2, [.called ask, .called ask]⟩) := by
  intro ask I gen xs
  have hxs : ∀ x ∈ xs, x.Known := by
    simp [xs, Tree.Known, Tree.KnownWith, Tree.lift]
  have hdecides : ∀ x ∈ xs, x.Decides := by
    simp [xs, Tree.Decides, Tree.truthFault?, Tree.lift, Val.byTruth, Val.truth]
  have hask (n : Nat) : I.RunsTo gen .sync (.lift ask) n
      (.done (.bool (decide (0 < n))) ⟨n + 1, [.called ask]⟩) :=
    runsTo_of_evaluate (n := 0) rfl
  have hzero : I.RunsTo gen .sync (.pure (.int 0)) 1 (.done (.int 0) ⟨1, []⟩) :=
    runsTo_of_evaluate (n := 0) rfl
  obtain ⟨hor, -, hmade, -⟩ := runsTo_orAll_andAll_iff (I := I) gen .sync hxs
  obtain ⟨t, ht⟩ := (hmade hdecides).1
  refine ⟨hxs, hdecides, t, ht, (hor t ht 0 _).mpr (.inr ⟨[_, _], _, [_], rfl, ?_⟩)⟩
  exact ⟨[_, _], 1, _, .cons (hask 0) rfl (.cons hzero rfl (.nil 1)),
    .inl ⟨_, _, hask 1, rfl, rfl⟩, rfl⟩

end Interpreter

end SelectiveEffects
