import SelectiveEffects.Proofs.Run.Constructing
import SelectiveEffects.Proofs.Run.Limits

/-! Mapping a function over a tree changes the value that its run comes to, and nothing else. -/

namespace SelectiveEffects

open Machine Scenario

namespace Machine.Move

variable {P G σ : Type}

/-- The last move of a run that comes to this result. -/
def ofResult (j : Journal P G σ) : Except Fault (Val P) → Move P G σ
  | .ok v => done v j
  | .error e => if e.escapes then cut e j else failed e j

/-- Applies a function to the value that a run comes to, if it comes to one. -/
def mapped (f : Fun P) : Move P G σ → Move P G σ
  | done v j => ofResult j (f v)
  | other => other

@[simp] theorem journal_ofResult (j : Journal P G σ) (r : Except Fault (Val P)) :
    (ofResult j r).journal = j := by
  cases r with
  | ok v => rfl
  | error e =>
    rw [ofResult]
    split <;> rfl

@[simp] theorem journal_mapped (f : Fun P) (last : Move P G σ) :
    (last.mapped f).journal = last.journal := by
  cases last with
  | done v j => exact journal_ofResult j (f v)
  | _ => rfl

theorem mapped_ok (last : Move P G σ) : last.mapped .ok = last := by
  cases last <;> rfl

end Machine.Move

namespace Ending

variable {P : Type}

/-- How a run ends that comes to this result. -/
def ofResult (trace : List String) : Except Fault (Val P) → Ending P
  | .ok v => .ok (.ok v, trace)
  | .error e => if e.escapes then .error e else .ok (.error e, trace)

/-- Applies a function to the value that a run ends with, if it ends with one. -/
def mapped (f : Fun P) : Ending P → Ending P
  | .ok (.ok v, trace) => ofResult trace (f v)
  | o => o

end Ending

namespace Machine.Move

variable {P G σ : Type}

theorem ending_ofResult (j : Journal P G σ) (r : Except Fault (Val P)) (bound : Option Nat) :
    (ofResult j r).ending bound = some (Ending.ofResult (j.trace bound) r, j.world) := by
  cases r with
  | ok v => rfl
  | error e =>
    rw [ofResult, Ending.ofResult]
    split <;> rfl

/-- How a run ends is read off its last move before or after mapping. -/
theorem ending_mapped (f : Fun P) (last : Move P G σ) (bound : Option Nat) :
    (last.mapped f).ending bound =
      (last.ending bound).map fun (o, w) => (Ending.mapped f o, w) := by
  cases last with
  | done v j => exact ending_ofResult j (f v) bound
  | _ => rfl

end Machine.Move

namespace Conclusions

variable {P G σ : Type}

theorem ofExcept_iff {r : Except Fault (Val P)} {w : σ} {last : Move P G σ} :
    ofExcept r w last ↔ last = .ofResult ⟨w, []⟩ r := by
  cases r <;> rfl

/-- Going on with a function of the value is applying it to the last move. -/
theorem andThen_ofExcept_iff {R : Conclusions P G σ} {f : Fun P} {w : σ} {last : Move P G σ} :
    (R.andThen fun v => ofExcept (f v)) w last ↔ ∃ first, R w first ∧ last = first.mapped f := by
  refine exists_congr fun first => and_congr_right fun _ => ?_
  cases first with
  | done v j =>
    have hafter : (Move.ofResult ⟨j.world, []⟩ (f v)).after j = Move.ofResult j (f v) := by
      cases f v with
      | ok u => exact congrArg (Move.done u) j.extend_nil
      | error e =>
        simp only [Move.ofResult]
        split
        · exact congrArg (Move.cut e) j.extend_nil
        · exact congrArg (Move.failed e) j.extend_nil
    simp only [ofExcept_iff, exists_eq_left, hafter, Move.mapped]
  | _ => rfl

end Conclusions

namespace Interpreter

variable {P G σ : Type} [Primitives P]
variable {I : Interpreter P σ} {gen : G → Action σ (Tree P G)} {mode : Mode} {t u : Tree P G}

theorem runsTo_fmap_iff {f : Fun P} (h : t.fmap f = .ok u) {w : σ} {last : Move P G σ} :
    I.RunsTo gen mode u w last ↔
      ∃ first, I.RunsTo gen mode t w first ∧ last = first.mapped f := by
  rw [runsTo_fmap h, Conclusions.andThen_ofExcept_iff]

theorem ends_fmap_iff (hI : I.maxSteps = none) {f : Fun P} (h : t.fmap f = .ok u) {w w' : σ}
    {o : Ending P} :
    I.Ends gen mode u w o w' ↔ ∃ o₀, I.Ends gen mode t w o₀ w' ∧ o = Ending.mapped f o₀ := by
  simp only [ends_iff_runsTo hI, runsTo_fmap_iff h]
  constructor
  · rintro ⟨_, ⟨first, hfirst, rfl⟩, hending⟩
    rw [Move.ending_mapped, Option.map_eq_some_iff] at hending
    obtain ⟨⟨o₀, w₀⟩, hending, heq⟩ := hending
    cases heq
    exact ⟨o₀, ⟨first, hfirst, hending⟩, rfl⟩
  · rintro ⟨o₀, ⟨first, hfirst, hending⟩, rfl⟩
    exact ⟨_, ⟨first, hfirst, rfl⟩, by rw [Move.ending_mapped, hending]; rfl⟩

theorem exists_fmap_identity (ht : t.Known) :
    ∃ u, t.fmap Val.identity.call = .ok u ∧
      ∀ w last, I.RunsTo gen mode u w last ↔ I.RunsTo gen mode t w last := by
  have hidentity : Val.identity.call = (.ok : Fun P) := funext Val.call_identity
  obtain ⟨u, hu, -⟩ := Tree.exists_fmap (f := Val.identity.call) (q := fun _ => True) ht
    fun v _ => ⟨v, Val.call_identity v, trivial⟩
  refine ⟨u, hu, fun w last => ?_⟩
  rw [runsTo_fmap_iff hu, hidentity]
  simp [Move.mapped_ok]

/-- The run of a mapped tree makes the same calls, forces the same nodes and leaves the same world and
trace as that of the tree. It comes to the function of the value, or to its fault, which cuts the run
short when it escapes; without a value it ends in the same way. Mapping the identity changes nothing,
and mapping twice is mapping the composition. -/
theorem runsTo_mapped_iff (I : Interpreter P σ) (gen : G → Action σ (Tree P G)) (mode : Mode)
    (ht : t.Built) :
    (∀ f u, t.fmap f = .ok u →
      (∀ w last, I.RunsTo gen mode u w last ↔ ∃ first, I.RunsTo gen mode t w first ∧
        last.journal = first.journal ∧ last = first.mapped f) ∧
      (I.maxSteps = none → ∀ w o w', I.Ends gen mode u w o w' ↔
        ∃ o₀, I.Ends gen mode t w o₀ w' ∧ o = Ending.mapped f o₀)) ∧
    (∃ u, t.fmap Val.identity.call = .ok u ∧
      ∀ w last, I.RunsTo gen mode u w last ↔ I.RunsTo gen mode t w last) ∧
    ∀ f g, (t.fmap g >>= Tree.fmap f) = t.fmap (f.comp g) := by
  refine ⟨fun f u h => ⟨fun w last => ?_, fun hI w o w' => ends_fmap_iff hI h⟩,
    exists_fmap_identity ht.known, fun f g => (Tree.fmap_comp f g t).symm⟩
  rw [runsTo_fmap_iff h]
  refine exists_congr fun first => and_congr_right fun _ => ?_
  exact ⟨fun hlast => ⟨by rw [hlast, Move.journal_mapped], hlast⟩, And.right⟩

/-- The node is forced and the effect performed as without the function, which tags the answer. -/
theorem runsTo_mapped_iff_deferred :
    let ask : Effect Builtin :=
      { className := "Ask", lineage := ["Ask"], fields := [], label := .ok "ask" }
    let I : Interpreter Builtin Nat :=
      { fallback := some fun _ => do return .value (.int (← modifyGet fun n => (n, n + 1))) }
    let gen : Unit → Action Nat (Tree Builtin Unit) := fun _ => return .lift ask
    let t : Tree Builtin Unit := .deferred () none
    t.Built ∧ I.maxSteps = none ∧ ∃ u, t.fmap Val.toLeft.call = .ok u ∧
      I.RunsTo gen .sync u 5
        (.done (.left (.int 5)) ⟨6, [.forced (.host ()), .called ask]⟩) ∧
      I.Ends gen .sync u 5 (.ok (.ok (.left (.int 5)), ["ask"])) 6 := by
  intro ask I gen t
  have ht : t.Built := .defer ()
  have hrun : I.RunsTo gen .sync t 5 (.done (.int 5) ⟨6, [.forced (.host ()), .called ask]⟩) :=
    runsTo_of_evaluate (n := 1) rfl
  have hends : I.Ends gen .sync t 5 (.ok (.ok (.int 5), ["ask"])) 6 :=
    (ends_iff_runsTo rfl).mpr ⟨_, hrun, rfl⟩
  have htag : (Val.toLeft : Val Builtin).call (.int 5) = .ok (.left (.int 5)) :=
    Val.call_toLeft _
  obtain ⟨hmapped, -, -⟩ := runsTo_mapped_iff I gen .sync ht
  obtain ⟨hrunsTo, hendings⟩ := hmapped Val.toLeft.call _ rfl
  refine ⟨ht, rfl, _, rfl, (hrunsTo 5 _).mpr ⟨_, hrun, rfl, ?_⟩,
    (hendings rfl 5 _ 6).mpr ⟨_, hends, ?_⟩⟩
  · rw [Move.mapped, htag, Move.ofResult]
  · rw [Ending.mapped, htag, Ending.ofResult]

/-- The run of the tree ends with a value. What the function raises escapes, so that the run of the
mapped tree ends without a result. -/
theorem escaping_function_leaves_no_result :
    let ask : Effect Builtin :=
      { className := "Ask", lineage := ["Ask"], fields := [], label := .ok "ask" }
    let I : Interpreter Builtin Unit := { fallback := some fun _ => return .value .null }
    let gen : Empty → Action Unit (Tree Builtin Empty) := nofun
    let stop : Fun Builtin := fun _ => .error (.raised .abort "stop")
    let t : Tree Builtin Empty := .lift ask
    t.Built ∧ I.Ends gen .sync t () (.ok (.ok .null, ["ask"])) () ∧ ∃ u, t.fmap stop = .ok u ∧
      ∀ result trace w', ¬ I.Ends gen .sync u () (.ok (result, trace)) w' := by
  intro ask I gen stop t
  have hends : I.Ends gen .sync t () (.ok (.ok .null, ["ask"])) () := ⟨3, _, rfl, rfl⟩
  have hcut : I.run gen .sync 2 (.lifted ask (some stop)) () =
      .ok (some ⟨.error (.raised .abort "stop"), [.performing "ask"]⟩) () := rfl
  refine ⟨.lift ask, hends, .lifted ask (some stop), rfl, fun result trace w' h => ?_⟩
  obtain ⟨fuel, report, hrun, hending⟩ := h
  obtain ⟨rfl, -⟩ := run_deterministic hrun hcut
  cases hending

end Interpreter

end SelectiveEffects
