import SelectiveEffects.Proofs.Run.Reporting

/-! Runs that return: ordinary faults become results, and none of them is left to the caller, save
that of a label which cannot be read. -/

namespace SelectiveEffects

open Machine Scenario

namespace Interpreter

variable {P G σ : Type} [Primitives P]

/-- Whatever raises a fault on the way of a run raises an ordinary one. -/
def Ordinary (I : Interpreter P σ) (gen : G → Action σ (Tree P G)) (mode : Mode) (t : Tree P G)
    (w : σ) : Prop :=
  ∀ m c f, I.Reaches gen mode t w m c → I.Raises gen mode c f → f.escapes = false

/-- A run comes to an effect whose label raises this fault. -/
def MeetsUnread (I : Interpreter P σ) (gen : G → Action σ (Tree P G)) (mode : Mode) (t : Tree P G)
    (w : σ) (f : Fault) : Prop :=
  ∃ m c e k, I.Reaches gen mode t w m c ∧ c.state.control = .tree (.lifted e k) ∧
    e.label = .error f

/-- A run that never ends, however much fuel it has. -/
def GoesOn (I : Interpreter P σ) (gen : G → Action σ (Tree P G)) (mode : Mode) (t : Tree P G)
    (w : σ) : Prop :=
  ∀ fuel, ∃ w', I.run gen mode fuel t w = .ok none w'

variable {I : Interpreter P σ} {gen : G → Action σ (Tree P G)} {mode : Mode}
variable {t : Tree P G} {w : σ} {m : Nat} {c : Config P G σ} {f : Fault}

/-- From a lifted node only the handler of its effect raises a fault. -/
theorem Raises.exists_call {e : Effect P} {k : Post P} {K : List (Frame P G)} {j : Journal P G σ}
    {l : Levels} (h : I.Raises gen mode ⟨⟨.tree (.lifted e k), K⟩, j, l⟩ f) :
    ∃ label h w, e.label = .ok label ∧ I.resolve e = some h ∧
      (do await mode label (← h e)) j.world = .error f w := by
  generalize hc : (⟨⟨.tree (.lifted e k), K⟩, j, l⟩ : Config P G σ) = c at h
  cases h with
  | call hlabel hresolve hcall =>
    cases hc
    exact ⟨_, _, _, hlabel, hresolve, hcall⟩
  | @thunk source _ _ _ _ _ _ _ => cases source <;> cases hc
  | continuation _ => cases hc
  | function _ => cases hc

/-- Where only ordinary faults are raised and the next label can be read, nothing cuts the run
short. -/
theorem Ordinary.not_cut (h : I.Ordinary gen mode t w) (hreach : I.Reaches gen mode t w m c)
    (hread : ∀ e k f, c.state.control = .tree (.lifted e k) → e.label ≠ .error f)
    (j : Journal P G σ) : I.move gen mode c ≠ .cut f j := by
  intro hmove
  have hnext := I.next_move gen mode c
  rw [hmove] at hnext
  cases hnext with
  | escaped _ hraises hescapes =>
    rw [h m c f hreach hraises] at hescapes
    cases hescapes
  | unread _ hcontrol hlabel => exact hread _ _ _ hcontrol hlabel

theorem Reports.ordinary {r : RunResult P} {w' : σ} (h : I.Reports gen mode t w r w') :
    I.Ordinary gen mode t w := by
  intro m c f hreach hraises
  cases hf : f.escapes with
  | false => rfl
  | true =>
    obtain ⟨fuel, events, hrun⟩ := h
    obtain ⟨events', w₁, hescaped⟩ := run_of_escaping hreach hraises hf
    obtain ⟨hreport, -⟩ := run_deterministic hrun hescaped
    cases hreport

theorem not_raises_of_fault {e : Fault} (hc : c.state.control = .fault e) :
    ¬ I.Raises gen mode c f := by
  intro h
  cases h <;> cases hc

/-- A run that is not cut short halts, or makes one move after another for ever. -/
theorem halts_or_goes_on
    (hcut : ∀ m c f j, I.Reaches gen mode t w m c → I.move gen mode c ≠ .cut f j) :
    (∃ m c result n, I.Trail gen mode (fun _ => True) m ⟨⟨.tree t, []⟩, ⟨w, []⟩, {}⟩ c ∧
      I.Halts gen mode m c result n) ∨ I.maxSteps = none ∧ I.GoesOn gen mode t w := by
  cases hlimit : I.maxSteps with
  | some limit =>
    left
    rcases I.exists_trail_or_last gen mode ⟨⟨.tree t, []⟩, ⟨w, []⟩, {}⟩ limit with
      ⟨c, htrail⟩ | ⟨k, c, hk, htrail, hend⟩
    · exact ⟨limit, c, _, _, htrail, .spent hlimit⟩
    · have hreach : I.Reaches gen mode t w k c := by
        refine ⟨htrail, fun limit' hlimit' => ?_⟩
        cases hlimit.symm.trans hlimit'
        exact hk
      obtain ⟨result, n, hhalts⟩ := halts_of_last hreach.2 hend fun f j => hcut k c f j hreach
      exact ⟨k, c, result, n, htrail, hhalts⟩
  | none =>
    have hfree (m limit : Nat) (h : I.maxSteps = some limit) : m < limit := by
      rw [hlimit] at h
      cases h
    by_cases hends : ∃ m c, I.Trail gen mode (fun _ => True) m ⟨⟨.tree t, []⟩, ⟨w, []⟩, {}⟩ c ∧
        ∀ c', I.move gen mode c ≠ .on c'
    · obtain ⟨m, c, htrail, hend⟩ := hends
      obtain ⟨result, n, hhalts⟩ :=
        halts_of_last (hfree m) hend fun f j => hcut m c f j ⟨htrail, hfree m⟩
      exact .inl ⟨m, c, result, n, htrail, hhalts⟩
    · refine .inr ⟨rfl, fun fuel => ?_⟩
      rcases I.exists_trail_or_last gen mode ⟨⟨.tree t, []⟩, ⟨w, []⟩, {}⟩ fuel with
        ⟨c, htrail⟩ | ⟨k, c, -, htrail, hend⟩
      · obtain ⟨p, -, -, hdrive⟩ := drive_of_trail htrail (p := {}) rfl fun limit h =>
          Nat.le_of_lt (hfree _ limit h)
        exact ⟨c.journal.world, hdrive 0⟩
      · exact absurd ⟨k, c, htrail, hend⟩ hends

/-- An effect whose label cannot be read ends the run with the fault of the label, before any handler
is called for it. -/
theorem run_of_meetsUnread (h : I.MeetsUnread gen mode t w f) :
    ∃ fuel events w', I.run gen mode fuel t w = .ok (some ⟨.error f, events⟩) w' := by
  obtain ⟨m, ⟨⟨control, K⟩, j, l⟩, e, k, hreach, rfl, hlabel⟩ := h
  obtain ⟨p, -, -, hrun⟩ := run_of_trail hreach.1 hreach.2
  refine ⟨m + 1, p.events.reverse, j.world, ?_⟩
  rw [hrun 0, move_of_unread j l K hlabel]
  rfl

/-- A run on the way of which only ordinary faults are raised, and all labels can be read, never raises
a fault itself. It reports a result, with a fault when anything failed, unless it never ends, which
takes a run without a limit. A label that cannot be read is an exception to this: its fault passes the
run, because the report of the failure reads the label again. -/
theorem reports_of_ordinary (h : I.Ordinary gen mode t w) :
    ((∀ f, ¬ I.MeetsUnread gen mode t w f) →
      (∃ r w', I.Reports gen mode t w r w' ∧ ∀ m c f, I.Reaches gen mode t w m c →
        I.Fails gen mode c f → ∃ e, r.result = .error e) ∨
      I.maxSteps = none ∧ I.GoesOn gen mode t w) ∧
    ∀ f, I.MeetsUnread gen mode t w f →
      ∃ fuel events w', I.run gen mode fuel t w = .ok (some ⟨.error f, events⟩) w' := by
  refine ⟨fun hread => ?_, fun f => run_of_meetsUnread⟩
  have hcut (m : Nat) (c : Config P G σ) (f : Fault) (j : Journal P G σ)
      (hreach : I.Reaches gen mode t w m c) : I.move gen mode c ≠ .cut f j :=
    h.not_cut hreach (fun e k f hcontrol hlabel => hread f ⟨m, c, e, k, hreach, hcontrol, hlabel⟩) j
  refine (halts_or_goes_on hcut).imp_left ?_
  rintro ⟨m, c, result, n, htrail, hhalts⟩
  exact ⟨_, _, hhalts.reports htrail, fun k c' f hreach hfails =>
    (hfails.of_halt hreach htrail hhalts).1⟩

/-- The handler refuses, and its fault is ordinary. -/
theorem reports_of_ordinary_refusal :
    let ask : Effect Builtin :=
      { className := "Ask", lineage := ["Ask"], fields := [], label := .ok "ask" }
    let refuse : Handler Builtin Unit := fun _ => throw (.raised .value "boom")
    let I : Interpreter Builtin Unit := { handlers := [("Ask", some refuse)], maxSteps := some 5 }
    let gen : Empty → Action Unit (Tree Builtin Empty) := nofun
    I.Ordinary gen .sync (.lift ask) () ∧ (∀ f, ¬ I.MeetsUnread gen .sync (.lift ask) () f) ∧
      ∃ r w', I.Reports gen .sync (.lift ask) () r w' ∧ ∃ e, r.result = .error e := by
  intro ask refuse I gen
  let start : Config Builtin Empty Unit := ⟨⟨.tree (.lift ask), []⟩, ⟨(), []⟩, {}⟩
  let boom : Fault := .raised .value "boom"
  have hmove : I.move gen .sync start =
      .on ⟨⟨.fault boom, [.apply none]⟩, ⟨(), [.called ask]⟩, ⟨0, [0]⟩⟩ := rfl
  have hreached (m : Nat) (c : Config Builtin Empty Unit)
      (hreach : I.Reaches gen .sync (.lift ask) () m c) :
      c = start ∨ c.state.control = .fault boom := by
    cases hreach.1 with
    | refl _ => exact .inl rfl
    | step _ hon hrest =>
      cases hmove.symm.trans hon
      cases hrest with
      | refl _ => exact .inr rfl
      | step _ hon _ => cases (move_of_fault rfl).symm.trans hon
  have hraises : I.Raises gen .sync start boom := .call (w := ()) rfl rfl rfl
  have hordinary : I.Ordinary gen .sync (.lift ask) () := by
    intro m c f hreach hf
    rcases hreached m c hreach with rfl | hfault
    · obtain ⟨label, h, w, hlabel, hresolve, hcall⟩ := hf.exists_call
      cases hlabel
      cases hresolve
      cases hcall
      rfl
    · exact absurd hf (not_raises_of_fault hfault)
  have hread (f : Fault) : ¬ I.MeetsUnread gen .sync (.lift ask) () f := by
    rintro ⟨m, c, e, k, hreach, hcontrol, hlabel⟩
    rcases hreached m c hreach with rfl | hfault
    · cases hcontrol
      cases hlabel
    · cases hcontrol.symm.trans hfault
  have hstart : I.Reaches gen .sync (.lift ask) () 0 start := by
    refine ⟨.refl start, fun limit hlimit => ?_⟩
    cases hlimit
    decide
  rcases (reports_of_ordinary hordinary).1 hread with ⟨r, w', hreports, herror⟩ | ⟨hlimit, -⟩
  · exact ⟨hordinary, hread, r, w', hreports, herror 0 start boom hstart (.raised hraises)⟩
  · cases hlimit

/-- The label of the effect raises an ordinary fault, and the run raises it. -/
theorem unread_label_passes :
    let ask : Effect Builtin :=
      { className := "Ask", lineage := ["Ask"], fields := [],
        label := .error (.raised .runtime "no label") }
    let answer : Handler Builtin Unit := fun _ => return .value .null
    let I : Interpreter Builtin Unit := { handlers := [("Ask", some answer)] }
    let gen : Empty → Action Unit (Tree Builtin Empty) := nofun
    I.Ordinary gen .sync (.lift ask) () ∧
      (∃ report w', I.run gen .sync 1 (.lift ask) () = .ok (some report) w' ∧
        report.outcome = .error (.raised .runtime "no label")) ∧
      ∀ r w', ¬ I.Reports gen .sync (.lift ask) () r w' := by
  intro ask answer I gen
  have hrun : I.run gen .sync 1 (.lift ask) () =
      .ok (some ⟨.error (.raised .runtime "no label"), []⟩) () := rfl
  refine ⟨fun m c f hreach hf => ?_, ⟨_, _, hrun, rfl⟩, fun r w' hreports => ?_⟩
  · cases hreach.1 with
    | refl _ =>
      obtain ⟨label, -, -, hlabel, -⟩ := hf.exists_call
      cases hlabel
    | step _ hon _ => cases (move_of_unread _ _ _ rfl).symm.trans hon
  · obtain ⟨fuel, events, h⟩ := hreports
    obtain ⟨hreport, -⟩ := run_deterministic h hrun
    cases hreport

end Interpreter

end SelectiveEffects
