import SelectiveEffects.Proofs.Run.Looping
import SelectiveEffects.Proofs.Run.ShortCircuit

/-! Building trees: what can fail while a tree is built, and what its run makes of the rest. -/

namespace SelectiveEffects

open Machine Scenario

namespace Evaluation.Approaches

variable {P G σ : Type}

theorem byTag {E F U : Nat → Val P → Evaluation (Journal P G σ) (Val P)}
    {R S T : Val P → Conclusions P G σ} (hE : ∀ a, Approaches (E · a) (R a))
    (hF : ∀ b, Approaches (F · b) (S b)) (hU : ∀ v, Approaches (U · v) (T v)) (v : Val P) :
    Approaches (fun n => v.byTag (E n) (F n) (U n)) (v.byTag R S T) := by
  cases v with
  | left a => exact hE a
  | right b => exact hF b
  | _ => exact hU _

theorem byAbsence {E : Nat → Evaluation (Journal P G σ) (Val P)} {R : Conclusions P G σ}
    {F : Nat → Val P → Evaluation (Journal P G σ) (Val P)} {S : Val P → Conclusions P G σ}
    (hE : Approaches E R) (hF : ∀ v, Approaches (F · v) (S v)) (v : Val P) :
    Approaches (fun n => v.byAbsence (E n) (F n)) (v.byAbsence R S) := by
  cases v with
  | null => exact hE
  | _ => exact hF _

end Evaluation.Approaches

namespace Tree

variable {P G : Type} [Primitives P]

theorem built_fromMaybe {fallback x t : Tree P G} (hf : fallback.Built) (hx : x.Built)
    (h : Context.free.fromMaybe fallback x = .ok t) : t.Built := by
  obtain ⟨tagged, htagged, h⟩ := exists_of_bind_eq_ok h
  obtain ⟨handler, hhandler, h⟩ := exists_of_bind_eq_ok h
  exact .handle (hx.fmap htagged) (hf.fmap hhandler) h

end Tree

namespace Interpreter

variable {P G σ : Type} [Primitives P]

/-- Making a tree fails with these faults and with no others, and the tree that is made runs to these
last moves. -/
structure Constructs (I : Interpreter P σ) (gen : G → Action σ (Tree P G)) (mode : Mode)
    (made : Except Fault (Tree P G)) (fails : Fault → Prop) (runs : Conclusions P G σ) : Prop where
  error_iff : ∀ e, made = .error e ↔ fails e
  built : ∀ t, made = .ok t → t.Built
  runsTo : ∀ t, made = .ok t → I.RunsTo gen mode t = runs

variable {I : Interpreter P σ} {gen : G → Action σ (Tree P G)} {mode : Mode}
variable {x y z : Tree P G} {xs : List (Tree P G)}

theorem runsTo_fmap {f : Fun P} {t : Tree P G} (h : x.fmap f = .ok t) :
    I.RunsTo gen mode t = (I.RunsTo gen mode x).andThen fun v => .ofExcept (f v) := by
  refine runsTo_eq_of_approaches (fun n => ?_) (approaches_evaluate.bind fun v => .ofExcept (f v))
  rw [evaluate, Tree.evaluate_eq]
  exact Tree.evaluateWith_fmap h

/-- What can be made whatever its functions do. -/
theorem constructs_of_exists {made : Except Fault (Tree P G)} {runs : Conclusions P G σ}
    (hmade : ∃ t, made = .ok t) (hbuilt : ∀ t, made = .ok t → t.Built)
    (hruns : ∀ t, made = .ok t → I.RunsTo gen mode t = runs) :
    I.Constructs gen mode made (fun _ => False) runs where
  error_iff e := by
    obtain ⟨t, rfl⟩ := hmade
    simp
  built := hbuilt
  runsTo := hruns

theorem constructs_ifS (hx : x.Built) (hy : y.Built) (hz : z.Built) :
    I.Constructs gen mode (Context.free.ifS x y z) (fun e => x.truthFault? = some e)
      ((I.RunsTo gen mode x).andThen (.byTruth fun b =>
        if b then I.RunsTo gen mode y else I.RunsTo gen mode z)) where
  error_iff _ := Tree.ifS_eq_error_iff hx.known hy.known hz.known
  built _ h := Tree.built_ifS hx hy hz h
  runsTo _ h := runsTo_ifS h

theorem constructs_whenS (hx : x.Built) (hy : y.Built) :
    I.Constructs gen mode (Context.free.whenS x y) (fun e => x.truthFault? = some e)
      ((I.RunsTo gen mode x).andThen (.byTruth fun b =>
        if b = false then .ofExcept (.ok .null) else I.RunsTo gen mode y)) where
  error_iff _ := Tree.ifS_eq_error_iff hx.known hy.known (Tree.Built.pure .null).known
  built _ h := Tree.built_whenS hx hy h
  runsTo _ h := runsTo_ifS_pure h

/-- The tree-level conditional forgets the value of its action as well. -/
theorem constructs_whenS_forget (hx : x.Built) (hy : y.Built) :
    I.Constructs gen mode (Tree.whenS x y) (fun e => x.truthFault? = some e)
      (((I.RunsTo gen mode x).andThen (.byTruth fun b =>
        if b = false then .ofExcept (.ok .null) else I.RunsTo gen mode y)).andThen
          fun _ => .ofExcept (.ok .null)) := by
  have hwhen : I.Constructs gen mode (Context.free.whenS x y) _ _ := constructs_whenS hx hy
  refine ⟨fun e => ?_, fun u h => ?_, fun u h => ?_⟩
  · rw [← hwhen.error_iff, Tree.whenS, bind_eq_error_iff, or_iff_left]
    rintro ⟨t, ht, hu⟩
    obtain ⟨v, -, hv⟩ := (Tree.fmap_eq_error_iff (hwhen.built t ht).known).mp hu
    cases hv
  · obtain ⟨t, ht, hu⟩ := exists_of_bind_eq_ok h
    exact (hwhen.built t ht).fmap hu
  · obtain ⟨t, ht, hu⟩ := exists_of_bind_eq_ok h
    rw [runsTo_fmap hu, hwhen.runsTo t ht]
    rfl

theorem constructs_orS (hx : x.Built) (hy : y.Built) :
    I.Constructs gen mode (Context.free.orS x y) (fun e => x.truthFault? = some e)
      ((I.RunsTo gen mode x).andThen (.byTruth fun b =>
        if b = true then .ofExcept (.ok (.bool true)) else I.RunsTo gen mode y)) where
  error_iff _ := Tree.ifS_eq_error_iff hx.known (Tree.Built.pure (.bool true)).known hy.known
  built _ h := Tree.built_ifS hx (.pure (.bool true)) hy h
  runsTo t h := runsTo_orS x y t h

theorem constructs_andS (hx : x.Built) (hy : y.Built) :
    I.Constructs gen mode (Context.free.andS x y) (fun e => x.truthFault? = some e)
      ((I.RunsTo gen mode x).andThen (.byTruth fun b =>
        if b = false then .ofExcept (.ok (.bool false)) else I.RunsTo gen mode y)) where
  error_iff _ := Tree.ifS_eq_error_iff hx.known hy.known (Tree.Built.pure (.bool false)).known
  built _ h := Tree.built_ifS hx hy (.pure (.bool false)) h
  runsTo t h := runsTo_andS x y t h

theorem constructs_fromMaybe (hx : x.Built) (hy : y.Built) :
    I.Constructs gen mode (Context.free.fromMaybe x y) (fun _ => False)
      ((I.RunsTo gen mode y).andThen
        (Val.byAbsence (I.RunsTo gen mode x) fun v => .ofExcept (.ok v))) := by
  refine constructs_of_exists (Tree.exists_fromMaybe hx.known hy.known)
    (fun _ h => Tree.built_fromMaybe hx hy h) fun t h => ?_
  refine runsTo_eq_of_approaches (fun n => ?_) (approaches_evaluate.bind
    (.byAbsence approaches_evaluate fun v => .ofExcept (.ok v)))
  rw [evaluate, Tree.evaluate_eq]
  exact Tree.evaluateWith_fromMaybe h

end Interpreter

end SelectiveEffects
