import SelectiveEffects.Proofs.Run.Ending
import SelectiveEffects.Proofs.Run.Mirroring

/-! Disjunctions without a tag: a run refuses every one of them, and the call of a task those that have
no payload. -/

namespace SelectiveEffects

open Machine Scenario

/-- A task treats the value as a run does: either it has a tag, or reading its payload fails. Else the
task passes the payload on, be it that of a success or of an object of the host's own. -/
def Val.HandledAlike {P : Type} (v : Val P) : Prop :=
  v.IsTagged ∨ ∃ e, v.payload? = .error e

namespace Interpreter

variable {P G σ : Type} [Primitives P]
variable {I : Interpreter P σ} {gen : G → Action σ (Tree P G)} {mode : Mode}

omit [Primitives P] in
theorem refusesUntagged_handledAlike :
    RefusesUntagged (fun _ _ => True) (Val.HandledAlike (P := P)) :=
  fun _ hv => hv.imp_right fun ⟨e, he⟩ => ⟨e, he, trivial⟩

/-- A run ends where a disjunction comes to a value without a tag. -/
theorem ends_of_untagged (hsteps : I.maxSteps = none) {t : Tree P G} {w : σ} {m : Nat} {v : Val P}
    {h : Tree P G} {K : List (Frame P G)} {j : Journal P G σ} {l : Levels} (hv : ¬ v.IsTagged)
    (htrail : I.Trail gen mode (fun _ => True) m ⟨⟨.tree t, []⟩, ⟨w, []⟩, {}⟩
      ⟨⟨.value v, .select h :: K⟩, j, l⟩) :
    ∃ trace, I.Ends gen mode t w (.ok (.error (.untaggedDisjunction v.typeName), trace))
      j.world := by
  obtain ⟨hl, hr⟩ := Val.ne_tag_of_not_isTagged hv
  have hrefused := htrail.trans (.step trivial (I.move_untagged gen mode j l K hl hr h) (.refl _))
  have hlimit : ∀ limit, I.maxSteps = some limit → m + 1 < limit := by simp [hsteps]
  exact ⟨_, ends_of_trail hrefused (I.move_fault gen mode j _ K _) rfl hlimit⟩

section Endings

variable {R : Fault → Fault → Prop} {r : EStateM.Result Fault (Journal P G σ) (Option (Val P))}
  {r' : EStateM.Result Fault σ (Option (Val P))}

omit [Primitives P] in
/-- A run comes to a value exactly when the call does that its evaluation mirrors. -/
theorem value_iff_of_mirrorsUpTo (h : MirrorsUpTo R r r') (bound : Option Nat) (v : Val P) (w' : σ) :
    (∃ trace last, Move.ofEvaluation r = some last ∧
      last.ending bound = some (.ok (.ok v, trace), w')) ↔ r' = .ok (some v) w' := by
  cases h with
  | ok a hj =>
    cases a with
    | none => simp [Move.ofEvaluation]
    | some u => simp [Move.ofEvaluation, Move.ending]
  | @error e e' j _ hj => cases hcut : j.cutBy e <;> simp [Move.ofEvaluation, Move.ending, hcut]

omit [Primitives P] in
/-- A run ends without a value exactly when the call fails that its evaluation mirrors. -/
theorem valueless_iff_of_mirrorsUpTo (h : MirrorsUpTo R r r') (bound : Option Nat) (w' : σ) :
    (∃ o last, Move.ofEvaluation r = some last ∧ last.ending bound = some (o, w') ∧
      ∀ v trace, o ≠ .ok (.ok v, trace)) ↔ ∃ e, r' = .error e w' := by
  cases h with
  | ok a hj =>
    cases a with
    | none => simp [Move.ofEvaluation]
    | some u => simp [Move.ofEvaluation, Move.ending]
  | @error e e' j _ hj =>
    cases hcut : j.cutBy e <;> simp [Move.ofEvaluation, Move.ending, hcut, and_assoc]

end Endings

/-- A tree folds, without a bound, to a task that has done nothing yet. Wherever a disjunction comes
to a value without a tag, the run of the tree ends with a fault that names the type of that value.
Where such a value has no payload, the call of the task is refused too: as long as no disjunction
yields an untagged value with a payload, a run gives a value exactly when the call does, the same one,
and ends without a value exactly when the call fails. Either way both leave the same world. -/
theorem ends_iff_returned_call (mode : Mode) (hsteps : I.maxSteps = none)
    {perform : Effect P → Action σ (Val P)} (hI : ∀ e, I.resolve e = some (.returning perform))
    (hgen : ∀ g w t w', gen g w = .ok t w' → t.Legible)
    (again : Task P σ (Deferral P G) → Deferral P G) {t : Tree P G} (ht : t.Legible) {w : σ} :
    let F := Folding.intoTasks again perform gen
    let start : Config P G σ := ⟨⟨.tree t, []⟩, ⟨w, []⟩, {}⟩
    ∃ T, (∀ w₀, F.Yields none t w₀ T w₀) ∧
      (∀ m v h K j l, I.Trail gen mode (fun _ => True) m start ⟨⟨.value v, .select h :: K⟩, j, l⟩ →
        ¬ v.IsTagged → ∃ trace, I.Ends gen mode t w
          (.ok (.error (.untaggedDisjunction v.typeName), trace)) j.world) ∧
      (I.DisjunctionsAlong gen mode Val.HandledAlike start → ∀ w',
        (∀ v, (∃ trace, I.Ends gen mode t w (.ok (.ok v, trace)) w') ↔
          ∃ depth, T.call F.unfold depth w = .ok (some v) w') ∧
        ((∃ o, I.Ends gen mode t w o w' ∧ ∀ v trace, o ≠ .ok (.ok v, trace)) ↔
          ∃ depth e, T.call F.unfold depth w = .error e w')) := by
  intro F start
  refine ⟨t.toTask perform, fun w₀ => ?_, fun m v h K j l htrail hv => ?_, fun halong w' => ?_⟩
  · rw [Folding.yields_iff, Folding.fold, Folding.foldLazily_intoTasks ht]
    rfl
  · exact ends_of_untagged hsteps hv htrail
  · have hmirrors (depth : Nat) : MirrorsUpTo (fun _ _ => True)
        (I.evaluate gen mode depth t ⟨w, []⟩) ((t.toTask perform).call F.unfold depth w) :=
      mirrorsUpTo_call (fun _ => trivial) refusesUntagged_handledAlike hI hgen depth t []
        ⟨w, []⟩ {} ht rfl halong
    have hvalue (depth : Nat) (v : Val P) :=
      value_iff_of_mirrorsUpTo (hmirrors depth) I.maxTrace v w'
    have hvalueless (depth : Nat) := valueless_iff_of_mirrorsUpTo (hmirrors depth) I.maxTrace w'
    simp only [ends_iff_evaluate hsteps]
    constructor
    · intro v
      rw [exists_comm]
      exact exists_congr fun depth => hvalue depth v
    · constructor
      · rintro ⟨o, ⟨depth, last, hlast, hending⟩, ho⟩
        exact ⟨depth, (hvalueless depth).mp ⟨o, last, hlast, hending, ho⟩⟩
      · rintro ⟨depth, hcall⟩
        obtain ⟨o, last, hlast, hending, ho⟩ := (hvalueless depth).mpr hcall
        exact ⟨o, ⟨depth, last, hlast, hending⟩, ho⟩

/-- A deferred disjunction and a handler, both performed: the disjunction is answered with a left tag,
the handler with a function. -/
theorem ends_iff_returned_call_deferred :
    let ask : Effect Builtin :=
      { className := "Ask", lineage := ["Ask"], fields := [], label := .ok "Ask" }
    let perform : Effect Builtin → Action Nat (Val Builtin) := fun _ => do
      let n ← modifyGet fun n => (n, n + 1)
      return if n = 5 then .left (.int 5) else .toRight
    let gen : Unit → Action Nat (Tree Builtin Unit) := fun _ => return .lift ask
    let I : Interpreter Builtin Nat := { fallback := some (.returning perform) }
    let again : Task Builtin Nat (Deferral Builtin Unit) → Deferral Builtin Unit :=
      fun _ => ⟨.host (), none⟩
    let F := Folding.intoTasks again perform gen
    let t : Tree Builtin Unit := .selection (.deferred () none) (.lift ask) none .optional
    I.maxSteps = none ∧ (∀ e, I.resolve e = some (.returning perform)) ∧
      (∀ g w t w', gen g w = .ok t w' → t.Legible) ∧ t.Legible ∧
      I.DisjunctionsAlong gen .sync Val.HandledAlike ⟨⟨.tree t, []⟩, ⟨5, []⟩, {}⟩ ∧
      (∃ trace, I.Ends gen .sync t 5 (.ok (.ok (.right (.int 5)), trace)) 7) ∧
      ∃ T, (∀ w, F.Yields none t w T w) ∧
        ∃ depth, T.call F.unfold depth 5 = .ok (some (.right (.int 5))) 7 := by
  intro ask perform gen I again F t
  have hgen (g : Unit) (w : Nat) (u : Tree Builtin Unit) (w' : Nat)
      (h : gen g w = .ok u w') : u.Legible := by
    cases h
    exact ⟨"Ask", rfl⟩
  have ht : t.Legible := ⟨trivial, "Ask", rfl⟩
  have hI (e : Effect Builtin) : I.resolve e = some (.returning perform) := by
    simp [I, resolve]
  have halong : I.DisjunctionsAlong gen .sync Val.HandledAlike ⟨⟨.tree t, []⟩, ⟨5, []⟩, {}⟩ := by
    refine disjunctionsAlong_of_move nofun (I.move_selection gen .sync _ _ _ _ _ _ _) ?_
    refine disjunctionsAlong_of_move nofun (I.move_ofSource gen .sync _ _ _ (.host ()) none) ?_
    refine disjunctionsAlong_of_move nofun (I.move_lifted gen .sync _ _ _ ask none) ?_
    refine disjunctionsAlong_of_move nofun (I.move_apply gen .sync _ _ _ _ none) ?_
    refine disjunctionsAlong_of_move (fun v h K hv => ?_) (I.move_left gen .sync _ _ _ _ _) ?_
    · cases hv
      exact .inl (.inl ⟨_, rfl⟩)
    refine disjunctionsAlong_of_move nofun (I.move_lifted gen .sync _ _ _ ask none) ?_
    refine disjunctionsAlong_of_move nofun (I.move_apply gen .sync _ _ _ _ none) ?_
    refine disjunctionsAlong_of_next nofun fun c hc => ?_
    have happlied := (I.move_argument gen .sync _ _ _ .toRight (.int 5)).symm.trans hc
    rw [Val.call_toRight] at happlied
    cases happlied
    refine disjunctionsAlong_of_next nofun fun c hc => ?_
    cases (I.move_done gen .sync _ _ _).symm.trans hc
  have hends : ∃ trace, I.Ends gen .sync t 5 (.ok (.ok (.right (.int 5)), trace)) 7 := by
    have heval : I.evaluate gen .sync 1 t ⟨5, []⟩ =
        Evaluation.ofExcept (Val.toRight.call (.int 5) >>= Post.apply none)
          ⟨7, [.forced (.host ()), .called ask, .called ask]⟩ := rfl
    rw [Val.call_toRight] at heval
    exact ⟨_, ends_of_evaluate rfl heval⟩
  obtain ⟨T, hfold, -, hcall⟩ := ends_iff_returned_call .sync rfl hI hgen again ht
  exact ⟨rfl, hI, hgen, ht, halong, hends, T, hfold, ((hcall halong _).1 _).mp hends⟩

/-- A success in the place of a tag passes the call of the task, and its payload is the value. No run
gives one. -/
theorem success_passes_call :
    let ask : Effect Builtin :=
      { className := "Ask", lineage := ["Ask"], fields := [], label := .ok "Ask" }
    let perform : Effect Builtin → Action Unit (Val Builtin) := fun _ =>
      return .success (.int 5)
    let gen : Empty → Action Unit (Tree Builtin Empty) := nofun
    let I : Interpreter Builtin Unit := { fallback := some (.returning perform) }
    let again : Task Builtin Unit (Deferral Builtin Empty) → Deferral Builtin Empty :=
      fun _ => ⟨.loop (.pure .null), none⟩
    let F := Folding.intoTasks again perform gen
    let t : Tree Builtin Empty := .selection (.lift ask) (.lift ask) none .optional
    t.Legible ∧ ∃ T, F.Yields none t () T () ∧ T.call F.unfold 0 () = .ok (some (.int 5)) () ∧
      ∀ v trace w', ¬ I.Ends gen .sync t () (.ok (.ok v, trace)) w' := by
  intro ask perform gen I again F t
  refine ⟨⟨⟨"Ask", rfl⟩, "Ask", rfl⟩, _, Folding.yields_iff.mpr rfl, rfl, ?_⟩
  intro v trace w' h
  obtain ⟨n, last, hlast, hending⟩ := (ends_iff_evaluate rfl).mp h
  cases n with
  | zero =>
    cases hlast
    cases hending
  | succ n =>
    cases hlast
    cases hending

end Interpreter

end SelectiveEffects
