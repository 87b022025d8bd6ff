import SelectiveEffects.Proofs.Run.Failing

/-! Runs that report: the moves they make, where they halt, and what a failure leaves of them. -/

namespace SelectiveEffects

open Machine

namespace Interpreter

variable {P G σ : Type} [Primitives P]

/-- What the next move can be. The last move of a run does nothing to the outside, unless it cuts the
run short: when a fault escapes, or when a label cannot be read. -/
inductive Next (I : Interpreter P σ) (gen : G → Action σ (Tree P G)) (mode : Mode)
    (c : Config P G σ) : Move P G σ → Prop where
  | on (c' : Config P G σ) : Next I gen mode c (.on c')
  | done (v : Val P) : Next I gen mode c (.done v c.journal)
  | failed (e : Fault) : Next I gen mode c (.failed e c.journal)
  | escaped {f : Fault} (j : Journal P G σ) :
      I.Raises gen mode c f → f.escapes = true → Next I gen mode c (.cut f j)
  | unread {e : Effect P} {k : Post P} {f : Fault} (j : Journal P G σ) :
      c.state.control = .tree (.lifted e k) → e.label = .error f → Next I gen mode c (.cut f j)

/-- Where a run halts after so many moves, with the result and the number of steps that it reports:
at its limit on steps, or before it with the last move of the machine. -/
inductive Halts (I : Interpreter P σ) (gen : G → Action σ (Tree P G)) (mode : Mode) (m : Nat)
    (c : Config P G σ) : Except Fault (Val P) → Nat → Prop where
  | spent : I.maxSteps = some m → Halts I gen mode m c (.error (.stepLimit m)) m
  | done {v : Val P} : (∀ limit, I.maxSteps = some limit → m < limit) →
      I.move gen mode c = .done v c.journal → Halts I gen mode m c (.ok v) (m + 1)
  | failed {e : Fault} : (∀ limit, I.maxSteps = some limit → m < limit) →
      I.move gen mode c = .failed e c.journal → Halts I gen mode m c (.error e) (m + 1)

/-- Some run of a tree reports this result, with enough fuel. -/
def Reports (I : Interpreter P σ) (gen : G → Action σ (Tree P G)) (mode : Mode) (t : Tree P G)
    (w : σ) (r : RunResult P) (w' : σ) : Prop :=
  ∃ fuel events, I.run gen mode fuel t w = .ok (some ⟨.ok r, events⟩) w'

variable {I : Interpreter P σ} {gen : G → Action σ (Tree P G)} {mode : Mode}
variable {t : Tree P G} {w w' : σ} {m k n : Nat} {c c' : Config P G σ} {f : Fault}
variable {r : RunResult P} {result : Except Fault (Val P)}

section Next

theorem next_fault {s : State P G} {j j' : Journal P G σ} {l : Levels}
    (h : f.escapes = true → I.Raises gen mode c f) :
    I.Next gen mode c (if f.escapes then .cut f j else .on ⟨s, j', l⟩) := by
  cases hf : f.escapes with
  | true => exact .escaped j (h hf) hf
  | false => exact .on _

theorem next_applied {j : Journal P G σ} {l : Levels} {K : List (Frame P G)} {frames : List Nat}
    {x : Except Fault (Val P)} (h : ∀ f, x = .error f → I.Raises gen mode c f) :
    I.Next gen mode c (applied j l K x frames) := by
  cases x with
  | ok v => exact .on _
  | error f => exact next_fault fun _ => h f rfl

theorem move_of_unread {e : Effect P} {k : Post P} (j : Journal P G σ) (l : Levels)
    (K : List (Frame P G)) (h : e.label = .error f) :
    I.move gen mode ⟨⟨.tree (.lifted e k), K⟩, j, l⟩ = .cut f (j.extend [.unread e] j.world) := by
  simp [move_lifted, answer, calls, h, Action.throw_apply, Event.isRead]

variable (I gen mode) in
theorem next_lifted (e : Effect P) (k : Post P) (K : List (Frame P G)) (j : Journal P G σ)
    (l : Levels) :
    I.Next gen mode ⟨⟨.tree (.lifted e k), K⟩, j, l⟩
      (I.move gen mode ⟨⟨.tree (.lifted e k), K⟩, j, l⟩) := by
  cases hlabel : e.label with
  | error f =>
    rw [move_of_unread j l K hlabel]
    exact .unread _ rfl hlabel
  | ok label =>
    cases hresolve : I.resolve e with
    | none =>
      rw [move_of_answer hlabel (answer_of_unhandled hlabel hresolve j.world)]
      exact next_fault nofun
    | some h =>
      cases hcall : (do await mode label (← h e)) j.world with
      | error f w =>
        rw [move_of_answer hlabel (answer_of_raised hlabel hresolve hcall)]
        exact next_fault fun _ => .call hlabel hresolve hcall
      | ok reply w =>
        have hanswer : I.answer mode e j.world = Action.ofExcept reply w := by
          rw [answer_of_resolve hlabel hresolve, Action.bind_apply, hcall]
        cases reply with
        | ok v =>
          rw [move_lifted, hanswer]
          exact .on _
        | error f =>
          rw [move_of_answer hlabel hanswer, escapes_of_reply hcall]
          exact .on _

variable (I gen mode) in
theorem next_ofSource (source : Source P G) (k : Post P) (K : List (Frame P G))
    (j : Journal P G σ) (l : Levels) :
    I.Next gen mode ⟨⟨.tree (.ofSource source k), K⟩, j, l⟩
      (I.move gen mode ⟨⟨.tree (.ofSource source k), K⟩, j, l⟩) := by
  rw [move_ofSource]
  cases hexpand : source.expand gen j.world with
  | ok t w => exact .on _
  | error f w => exact next_fault fun _ => .thunk hexpand

variable (I gen mode) in
theorem next_move (c : Config P G σ) : I.Next gen mode c (I.move gen mode c) := by
  obtain ⟨⟨control, K⟩, j, l⟩ := c
  cases control with
  | tree t =>
    cases t with
    | pure v =>
      rw [move_pure]
      exact .on _
    | lifted e k => exact I.next_lifted gen mode e k K j l
    | selection d h k route =>
      rw [move_selection]
      exact .on _
    | deferred g k => exact I.next_ofSource gen mode (.host g) k K j l
    | loop action k => exact I.next_ofSource gen mode (.loop action) k K j l
    | foreign typeName =>
      rw [I.move_opaque gen mode j l K (.inl rfl)]
      exact .on _
    | unknown typeName =>
      rw [I.move_opaque gen mode j l K (.inr rfl)]
      exact .on _
  | value v =>
    cases K with
    | nil =>
      rw [move_done]
      exact .done v
    | cons frame K =>
      cases frame with
      | apply k =>
        rw [move_apply]
        exact next_applied fun _ happly => .continuation happly
      | argument a =>
        rw [move_argument]
        exact next_applied fun _ hcall => .function hcall
      | select h => cases v <;> exact .on _
      | unknown => exact .on _
  | fault e =>
    rw [move_fault]
    exact .failed e
  | effect e => exact .on _
  | unknown => exact .on _

end Next

theorem Trail.exists_prefix {C : Config P G σ → Prop} (h : I.Trail gen mode C m c c') (hk : k ≤ m) :
    ∃ b, I.Trail gen mode C k c b := by
  induction h generalizing k with
  | refl c =>
    obtain rfl : k = 0 := Nat.le_zero.mp hk
    exact ⟨c, .refl c⟩
  | step ha hm _ ih =>
    cases k with
    | zero => exact ⟨_, .refl _⟩
    | succ k =>
      obtain ⟨b, hb⟩ := ih (Nat.le_of_succ_le_succ hk)
      exact ⟨b, .step ha hm hb⟩

/-- A run halts with its last move, unless that one cuts the run short. -/
theorem halts_of_last (hlimit : ∀ limit, I.maxSteps = some limit → m < limit)
    (hlast : ∀ c', I.move gen mode c ≠ .on c') (hcut : ∀ e j, I.move gen mode c ≠ .cut e j) :
    ∃ result n, I.Halts gen mode m c result n := by
  have hnext := I.next_move gen mode c
  cases hmove : I.move gen mode c with
  | on c' => exact absurd hmove (hlast c')
  | done v j =>
    rw [hmove] at hnext
    cases hnext
    exact ⟨_, _, .done hlimit hmove⟩
  | failed e j =>
    rw [hmove] at hnext
    cases hnext
    exact ⟨_, _, .failed hlimit hmove⟩
  | cut e j => exact absurd hmove (hcut e j)

/-- Where a run halts it reports. -/
theorem Halts.reports (htrail : I.Trail gen mode (fun _ => True) m ⟨⟨.tree t, []⟩, ⟨w, []⟩, {}⟩ c)
    (h : I.Halts gen mode m c result n) :
    I.Reports gen mode t w ⟨result, c.journal.trace I.maxTrace, n⟩ c.journal.world := by
  have hlast {last : Move P G σ} (hlimit : ∀ limit, I.maxSteps = some limit → m < limit)
      (hmove : I.move gen mode c = last) (hjournal : last.journal = c.journal) :
      ∃ p : Progress, p.steps = m + 1 ∧ p.trace I.maxTrace = c.journal.trace I.maxTrace ∧
        I.run gen mode (m + 1) t w = I.settle gen mode 0 p last := by
    obtain ⟨p, hsteps, htold, hrun⟩ := run_of_trail htrail hlimit
    rw [hmove] at htold hrun
    exact ⟨p, hsteps, hjournal ▸ htold.trace_eq I.maxTrace, hrun 0⟩
  cases h with
  | spent hlimit =>
    obtain ⟨events, hrun⟩ := run_of_spent hlimit htrail (Nat.lt_succ_self m)
    exact ⟨m + 1, events, hrun⟩
  | done hlimit hmove =>
    obtain ⟨p, hsteps, htrace, hrun⟩ := hlast hlimit hmove rfl
    rw [← htrace, ← hsteps]
    exact ⟨m + 1, _, hrun⟩
  | failed hlimit hmove =>
    obtain ⟨p, hsteps, htrace, hrun⟩ := hlast hlimit hmove rfl
    rw [← htrace, ← hsteps]
    exact ⟨m + 1, _, hrun⟩

theorem Halts.le_succ (h : I.Halts gen mode m c result n) : n ≤ m + 1 := by
  cases h with
  | spent _ => exact Nat.le_succ m
  | _ => exact Nat.le_refl (m + 1)

theorem Reports.eq_of_halts (hreports : I.Reports gen mode t w r w')
    (htrail : I.Trail gen mode (fun _ => True) m ⟨⟨.tree t, []⟩, ⟨w, []⟩, {}⟩ c)
    (h : I.Halts gen mode m c result n) :
    r = ⟨result, c.journal.trace I.maxTrace, n⟩ ∧ w' = c.journal.world := by
  obtain ⟨fuel, events, hrun⟩ := hreports
  obtain ⟨fuel', events', hrun'⟩ := h.reports htrail
  obtain ⟨hreport, hworld⟩ := run_deterministic hrun hrun'
  cases hreport
  exact ⟨rfl, hworld⟩

/-- A run that reports has halted, and reports no more than where it did. -/
theorem Reports.exists_halt (h : I.Reports gen mode t w r w') :
    ∃ m c, I.Trail gen mode (fun _ => True) m ⟨⟨.tree t, []⟩, ⟨w, []⟩, {}⟩ c ∧
      I.Halts gen mode m c r.result r.steps ∧ r.trace = c.journal.trace I.maxTrace ∧
      w' = c.journal.world := by
  obtain ⟨m, c, result, n, htrail, hhalts⟩ : ∃ m c result n,
      I.Trail gen mode (fun _ => True) m ⟨⟨.tree t, []⟩, ⟨w, []⟩, {}⟩ c ∧
        I.Halts gen mode m c result n := by
    obtain ⟨fuel, events, hrun⟩ := h
    obtain ⟨m, c, p, htrail, hsteps, -, hend⟩ :=
      trail_of_drive (c := ⟨⟨.tree t, []⟩, ⟨w, []⟩, {}⟩) (p := {}) rfl hrun
    have hp : p.steps = m := by simpa using hsteps
    rcases hend with ⟨limit, hspent, -⟩ | ⟨hlive, hlast, p', -, -, hsettle⟩
    · -- The run stops as soon as the limit is spent, which is on this trail.
      obtain ⟨hlimit, hle⟩ := Option.filter_eq_some_iff.mp hspent
      have hle : limit ≤ m := hp ▸ of_decide_eq_true hle
      obtain ⟨b, hb⟩ := htrail.exists_prefix hle
      exact ⟨limit, b, _, _, hb, .spent hlimit⟩
    · have hlimit : ∀ limit, I.maxSteps = some limit → m < limit := hp ▸ exhausted_eq_none.mp hlive
      obtain ⟨result, n, hhalts⟩ := halts_of_last hlimit hlast fun e j hcut => by
        rw [hcut] at hsettle
        cases hsettle
      exact ⟨m, c, result, n, htrail, hhalts⟩
  obtain ⟨rfl, hworld⟩ := h.eq_of_halts htrail hhalts
  exact ⟨m, c, htrail, hhalts, rfl, hworld⟩

/-- A run that came to a configuration with a step to spare does not halt before. -/
theorem Reaches.exists_rest (hreach : I.Reaches gen mode t w k c)
    (htrail : I.Trail gen mode (fun _ => True) m ⟨⟨.tree t, []⟩, ⟨w, []⟩, {}⟩ c')
    (h : I.Halts gen mode m c' result n) :
    ∃ d, m = k + d ∧ I.Trail gen mode (fun _ => True) d c c' ∧ (I.maxSteps = some m → d ≠ 0) := by
  have hle : k ≤ m := by
    have hended (hlast : ∀ b, I.move gen mode c' ≠ .on b) : k ≤ m :=
      htrail.length_le_of_ended hreach.1 fun _ => hlast
    cases h with
    | spent hlimit => exact Nat.le_of_lt (hreach.2 m hlimit)
    | done _ hmove => exact hended (by simp [hmove])
    | failed _ hmove => exact hended (by simp [hmove])
  refine ⟨m - k, by omega, hreach.1.continues htrail hle, fun hlimit => ?_⟩
  have hlt := hreach.2 m hlimit
  omega

/-- After a failing move the run halts with the next step, with a fault, and nothing else is done to
the outside. -/
theorem Fails.of_halt (hfails : I.Fails gen mode c f) (hreach : I.Reaches gen mode t w k c)
    (htrail : I.Trail gen mode (fun _ => True) m ⟨⟨.tree t, []⟩, ⟨w, []⟩, {}⟩ c')
    (h : I.Halts gen mode m c' result n) :
    (∃ e, result = .error e) ∧ n ≤ k + 2 ∧
      c'.journal.events = c.journal.events ++ I.acts c.state := by
  obtain ⟨b, hfault, hevents, hmove⟩ := hfails.exists_move
  obtain ⟨d, hm, hrest, hspare⟩ := hreach.exists_rest htrail h
  cases hrest with
  | refl _ =>
    cases h with
    | spent hlimit => exact absurd rfl (hspare hlimit)
    | done _ hdone =>
      rw [hdone] at hmove
      cases hf : f.escapes <;> simp [hf] at hmove
    | failed _ hfailed =>
      rw [hfailed] at hmove
      cases hf : f.escapes <;> simp [hf] at hmove
  | step _ hon hrest =>
    rw [hon] at hmove
    cases hf : f.escapes with
    | true => simp [hf] at hmove
    | false =>
      simp only [hf, Bool.false_eq_true, if_false, Move.on.injEq] at hmove
      subst hmove
      have hlast : I.move gen mode _ = .failed f _ := move_of_fault hfault
      cases hrest with
      | step _ hon _ => simp [hlast] at hon
      | refl _ =>
        cases h with
        | spent _ => exact ⟨⟨_, rfl⟩, by omega, hevents⟩
        | done _ hdone => simp [hlast] at hdone
        | failed _ _ => exact ⟨⟨_, rfl⟩, by omega, hevents⟩

end Interpreter

end SelectiveEffects
