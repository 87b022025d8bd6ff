import SelectiveEffects.Proofs.Run.Simulation
import SelectiveEffects.Scenario.Builtin

/-! The stepping machine refines direct evaluation: both come to the same value or fault, after the
same calls and forced nodes. -/

namespace SelectiveEffects

open Machine Scenario

namespace Interpreter

variable {P G σ : Type} [Primitives P]

/-- From a tree on a stack, a run comes to a value on that stack before it pops any of it. -/
def Returns (I : Interpreter P σ) (gen : G → Action σ (Tree P G)) (mode : Mode) (t : Tree P G)
    (K : List (Frame P G)) (w : σ) (v : Val P) (j : Journal P G σ) : Prop :=
  ∃ m l, I.Trail gen mode (fun c => c.state.Above K) m ⟨⟨.tree t, K⟩, ⟨w, []⟩, {}⟩
    ⟨⟨.value v, K⟩, j, l⟩

/-- From a tree on a stack, a run makes the given last move before it pops any of that stack. -/
def Stops (I : Interpreter P σ) (gen : G → Action σ (Tree P G)) (mode : Mode) (t : Tree P G)
    (K : List (Frame P G)) (w : σ) (last : Move P G σ) : Prop :=
  ∃ m c, I.Trail gen mode (fun c => c.state.Above K) m ⟨⟨.tree t, K⟩, ⟨w, []⟩, {}⟩ c ∧
    c.state.Above K ∧ I.move gen mode c = last

variable {I : Interpreter P σ} {gen : G → Action σ (Tree P G)} {mode : Mode}
variable {K : List (Frame P G)} {t : Tree P G} {j j' : Journal P G σ} {l : Levels}

omit [Primitives P] in
theorem not_above_value {v : Val P} : ¬ (⟨.value v, K⟩ : State P G).Above K := by
  rintro ⟨frames, hs, hv⟩
  have hnil : frames = [] := List.self_eq_append_left.mp hs
  cases hv hnil

theorem ended_value {v : Val P} :
    I.Ended gen mode (fun c => c.state.Above K) ⟨⟨.value v, K⟩, j, l⟩ :=
  fun ha => absurd ha not_above_value

theorem ended_of_move {C : Config P G σ → Prop} {c : Config P G σ} {last : Move P G σ}
    (hm : I.move gen mode c = last) (hlast : ∀ c', last ≠ .on c') : I.Ended gen mode C c :=
  fun _ c' h => hlast c' (hm.symm.trans h)

/-- A run makes one last move. -/
theorem stops_unique {w : σ} {last last' : Move P G σ} (h : I.Stops gen mode t K w last)
    (h' : I.Stops gen mode t K w last') (hlast : ∀ c, last ≠ .on c) (hlast' : ∀ c, last' ≠ .on c) :
    last = last' := by
  obtain ⟨m, c, ht, -, hm⟩ := h
  obtain ⟨m', c', ht', -, hm'⟩ := h'
  cases ht.eq_of_ended ht' (ended_of_move hm hlast) (ended_of_move hm' hlast')
  exact hm.symm.trans hm'

/-- Where evaluation without a value leaves a run, deferred nodes are nested as deep as its bound,
so a run of fewer moves has an evaluation. -/
theorem evaluate_ne_none {C : Config P G σ → Prop} {m n : Nat} {c : Config P G σ} (hmn : m < n)
    (hj : j.legible = true) (h : I.Trail gen mode C m ⟨⟨.tree t, K⟩, j, l⟩ c)
    (hc : I.Ended gen mode (fun c => c.state.Above K) c) :
    I.evaluate gen mode n t j ≠ .ok none j' := by
  intro he
  have hf := evaluate_follows I gen mode n t K j l hj
  rw [he] at hf
  obtain ⟨m', c', hm, ht, -⟩ := hf
  have hle := h.length_le_of_ended (ht.mono fun _ h => h.above) hc
  omega

/-- An evaluation with a value is a run back to the stack where it began. -/
theorem trail_of_evaluate_value {n : Nat} {v : Val P} (hj : j.legible = true)
    (h : I.evaluate gen mode n t j = .ok (some v) j') :
    j'.legible = true ∧ ∃ m l', I.Trail gen mode (fun c => c.state.Above K) m ⟨⟨.tree t, K⟩, j, l⟩
      ⟨⟨.value v, K⟩, j', l'⟩ := by
  have hf := evaluate_follows I gen mode n t K j l hj
  rw [h] at hf
  obtain ⟨hj', m, here, ht⟩ := hf
  exact ⟨hj', m, _, ht.mono fun _ h => h.above⟩

theorem returns_of_evaluate {n : Nat} {v : Val P} {w : σ}
    (h : I.evaluate gen mode n t ⟨w, []⟩ = .ok (some v) j) : I.Returns gen mode t K w v j :=
  (trail_of_evaluate_value rfl h).2

theorem stops_of_evaluate {n : Nat} {e : Fault} {w : σ}
    (h : I.evaluate gen mode n t ⟨w, []⟩ = .error e j) :
    I.Stops gen mode t K w (if j.cutBy e then .cut e j else .failed e j) := by
  have hf := evaluate_follows I gen mode n t K ⟨w, []⟩ {} rfl
  rw [h] at hf
  obtain ⟨m, c, ht, hc, hm⟩ := hf
  exact ⟨m, c, ht.mono fun _ h => h.above, hc.above, hm⟩

/-- A run back to the stack where it began has an evaluation with that value. -/
theorem evaluate_of_trail_value {m : Nat} {v : Val P} {l' : Levels} (hj : j.legible = true)
    (h : I.Trail gen mode (fun c => c.state.Above K) m ⟨⟨.tree t, K⟩, j, l⟩
      ⟨⟨.value v, K⟩, j', l'⟩) : I.evaluate gen mode (m + 1) t j = .ok (some v) j' := by
  have hf := evaluate_follows I gen mode (m + 1) t K j l hj
  cases he : I.evaluate gen mode (m + 1) t j with
  | ok u j'' =>
    cases u with
    | none => exact absurd he (evaluate_ne_none (Nat.lt_succ_self m) hj h ended_value)
    | some u =>
      obtain ⟨-, m', l'', ht'⟩ := trail_of_evaluate_value (K := K) (l := l) hj he
      cases h.eq_of_ended ht' ended_value ended_value
      rfl
  | error e j'' =>
    rw [he] at hf
    obtain ⟨m', c', ht', hc', hm⟩ := hf
    have hc : I.Ended gen mode (fun c => c.state.Above K) c' := ended_of_move hm Move.fault_ne_on
    cases h.eq_of_ended (ht'.mono fun _ h => h.above) ended_value hc
    exact absurd hc'.above not_above_value

theorem evaluate_of_returns {v : Val P} {w : σ} (h : I.Returns gen mode t K w v j) :
    ∃ n, I.evaluate gen mode n t ⟨w, []⟩ = .ok (some v) j :=
  let ⟨m, _, ht⟩ := h
  ⟨m + 1, evaluate_of_trail_value rfl ht⟩

theorem evaluate_of_stops {w : σ} {last : Move P G σ} (h : I.Stops gen mode t K w last)
    (hlast : ∀ c, last ≠ .on c) :
    ∃ n e j, I.evaluate gen mode n t ⟨w, []⟩ = .error e j ∧
      last = if j.cutBy e then .cut e j else .failed e j := by
  obtain ⟨m, c, ht, ha, hm⟩ := h
  have hc : I.Ended gen mode (fun c => c.state.Above K) c := ended_of_move hm hlast
  cases he : I.evaluate gen mode (m + 1) t ⟨w, []⟩ with
  | ok v' j' =>
    cases v' with
    | none => exact absurd he (evaluate_ne_none (Nat.lt_succ_self m) rfl ht hc)
    | some v' =>
      obtain ⟨m', l', ht'⟩ := returns_of_evaluate (K := K) he
      cases ht.eq_of_ended ht' hc ended_value
      exact absurd ha not_above_value
  | error e j' =>
    have hstop := stops_of_evaluate (K := K) he
    exact ⟨m + 1, e, j', he, stops_unique ⟨m, c, ht, ha, hm⟩ hstop hlast Move.fault_ne_on⟩

/-- A run stops with a fault as evaluation does, and is cut short when the fault cuts it. -/
theorem stops_iff_evaluate (escapes : Bool) {e : Fault} {w : σ} :
    I.Stops gen mode t K w (if escapes then .cut e j else .failed e j) ↔
      j.cutBy e = escapes ∧ ∃ n, I.evaluate gen mode n t ⟨w, []⟩ = .error e j := by
  constructor
  · intro h
    obtain ⟨n, e', j', he, hlast⟩ := evaluate_of_stops h Move.fault_ne_on
    obtain ⟨hcut, rfl, rfl⟩ := Move.fault_inj hlast
    exact ⟨hcut.symm, n, he⟩
  · rintro ⟨rfl, n, he⟩
    exact stops_of_evaluate he

/-- On any stack, a run gives a value, fails or is cut short exactly when direct evaluation does,
with the same calls and forced nodes in the same order. -/
theorem run_refines_evaluation (I : Interpreter P σ) (gen : G → Action σ (Tree P G)) (mode : Mode)
    (t : Tree P G) (K : List (Frame P G)) (w : σ) (j : Journal P G σ) :
    (∀ v, I.Returns gen mode t K w v j ↔
      ∃ n, I.evaluate gen mode n t ⟨w, []⟩ = .ok (some v) j) ∧
    (∀ e, I.Stops gen mode t K w (.failed e j) ↔
      j.cutBy e = false ∧ ∃ n, I.evaluate gen mode n t ⟨w, []⟩ = .error e j) ∧
    ∀ e, I.Stops gen mode t K w (.cut e j) ↔
      j.cutBy e = true ∧ ∃ n, I.evaluate gen mode n t ⟨w, []⟩ = .error e j := by
  refine ⟨fun v => ⟨evaluate_of_returns, fun ⟨n, h⟩ => returns_of_evaluate h⟩, fun e => ?_,
    fun e => ?_⟩
  · exact stops_iff_evaluate false
  · exact stops_iff_evaluate true

/-- A continuation that raises an escaping fault makes evaluation fail, but the run is cut short
and reports no failure. -/
theorem escaping_continuation_fails_no_run :
    let I : Interpreter Builtin Unit := {}
    let gen : Unit → Action Unit (Tree Builtin Unit) := fun _ => return .pure (.int 1)
    let t : Tree Builtin Unit := .deferred () (some fun _ => .error (.raised .abort "stop"))
    I.evaluate gen .sync 1 t ⟨(), []⟩ =
        .error (.raised .abort "stop") ⟨(), [.forced (.host ())]⟩ ∧
      ∀ e j, ¬ I.Stops gen .sync t [] () (.failed e j) := by
  intro I gen t
  have he : I.evaluate gen .sync 1 t ⟨(), []⟩ =
      .error (.raised .abort "stop") ⟨(), [.forced (.host ())]⟩ := rfl
  refine ⟨he, fun e j h => ?_⟩
  have hcut := stops_of_evaluate (K := []) he
  cases stops_unique h hcut (by simp) Move.fault_ne_on

end Interpreter

end SelectiveEffects
