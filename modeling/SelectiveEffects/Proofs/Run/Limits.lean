import SelectiveEffects.Proofs.Run.Driving

/-! Limits on steps: a limited run is the unlimited one, broken off. -/

namespace SelectiveEffects

open Machine Scenario

namespace Interpreter

variable {P G σ : Type}

/-- The same interpreter with another limit on steps, or without one. -/
def limited (I : Interpreter P σ) (limit : Option Nat) : Interpreter P σ :=
  { I with maxSteps := limit }

/-- Without the limit the run goes on after as many moves. With it, the run makes the same moves until
then, with the same calls, and stops there with the fault that names the limit. -/
def BreaksOff [Primitives P] (I : Interpreter P σ) (gen : G → Action σ (Tree P G)) (mode : Mode)
    (t : Tree P G) (w : σ) (m : Nat) : Prop :=
  ∃ c, (I.limited none).Trail gen mode (fun _ => True) m ⟨⟨.tree t, []⟩, ⟨w, []⟩, {}⟩ c ∧
    (I.limited (some m)).Trail gen mode (fun _ => True) m ⟨⟨.tree t, []⟩, ⟨w, []⟩, {}⟩ c ∧
    ∀ fuel, m < fuel → ∃ events, (I.limited (some m)).run gen mode fuel t w =
      .ok (some ⟨.ok ⟨.error (.stepLimit m), c.journal.trace I.maxTrace, m⟩, events⟩)
        c.journal.world

variable [Primitives P] {I : Interpreter P σ} {gen : G → Action σ (Tree P G)} {mode : Mode}

/-- A run goes on and on, or makes its last move. -/
theorem exists_trail_or_last (I : Interpreter P σ) (gen : G → Action σ (Tree P G)) (mode : Mode)
    (start : Config P G σ) (m : Nat) :
    (∃ c, I.Trail gen mode (fun _ => True) m start c) ∨
      ∃ k c, k < m ∧ I.Trail gen mode (fun _ => True) k start c ∧
        ∀ c', I.move gen mode c ≠ .on c' := by
  induction m with
  | zero => exact .inl ⟨start, .refl start⟩
  | succ m ih =>
    rcases ih with ⟨c, htrail⟩ | ⟨k, c, hk, htrail, hlast⟩
    · cases hm : I.move gen mode c with
      | on c' => exact .inl ⟨c', htrail.trans (.step trivial hm (.refl c'))⟩
      | _ => exact .inr ⟨m, c, Nat.lt_succ_self m, htrail, by simp [hm]⟩
    · exact .inr ⟨k, c, by omega, htrail, hlast⟩

/-- Limits have no part in what a run does. -/
theorem Trail.limited {C : Config P G σ → Prop} {m : Nat} {a b : Config P G σ}
    (h : I.Trail gen mode C m a b) (limit : Option Nat) :
    (I.limited limit).Trail gen mode C m a b := by
  induction h with
  | refl c => exact .refl c
  | step ha hm _ ih => exact .step ha hm ih

/-- Within its limit, a run goes as without one. -/
theorem run_limited_of_le {fuel m : Nat} (hfuel : fuel ≤ m) (t : Tree P G) :
    (I.limited (some m)).run gen mode fuel t = (I.limited none).run gen mode fuel t := by
  have hperform (e : Effect P) (p : Progress) :
      (I.limited (some m)).perform (G := G) mode e p = (I.limited none).perform mode e p := rfl
  refine drive_congr hperform rfl rfl fun q hq => ?_
  have hfree : (I.limited none).exhausted q = none := rfl
  rw [hfree, exhausted_eq_none]
  intro limit hlimit
  cases hlimit
  simp only at hq
  omega

/-- More fuel changes no report. -/
theorem drive_mono {fuel fuel' : Nat} (hle : fuel ≤ fuel') {c : Config P G σ} {p : Progress}
    {report : RunReport P} {w : σ} (ht : p.Tells c.journal)
    (h : I.drive gen mode fuel c.state p c.journal.world = .ok (some report) w) :
    I.drive gen mode fuel' c.state p c.journal.world = .ok (some report) w := by
  induction fuel generalizing fuel' c p with
  | zero => cases h
  | succ fuel ih =>
    obtain ⟨fuel', rfl⟩ : ∃ n, fuel' = n + 1 := ⟨fuel' - 1, by omega⟩
    cases hlive : I.exhausted p with
    | some limit =>
      simp only [drive, hlive] at h ⊢
      exact h
    | none =>
      obtain ⟨q, -, hqt, hdrive⟩ := I.drive_succ gen mode c p hlive ht
      rw [hdrive] at h ⊢
      cases hm : I.move gen mode c with
      | on c' =>
        rw [hm] at h hqt
        exact ih (by omega) hqt h
      | _ =>
        rw [hm] at h
        exact h

theorem run_mono {fuel fuel' : Nat} (hle : fuel ≤ fuel') {t : Tree P G} {report : RunReport P}
    {w w' : σ} (h : I.run gen mode fuel t w = .ok (some report) w') :
    I.run gen mode fuel' t w = .ok (some report) w' :=
  drive_mono hle (c := ⟨⟨.tree t, []⟩, ⟨w, []⟩, {}⟩) (p := {}) rfl h

theorem run_deterministic {fuel fuel' : Nat} {t : Tree P G} {report report' : RunReport P}
    {w w₁ w₂ : σ} (h : I.run gen mode fuel t w = .ok (some report) w₁)
    (h' : I.run gen mode fuel' t w = .ok (some report') w₂) : report = report' ∧ w₁ = w₂ := by
  have h₁ := run_mono (Nat.le_max_left fuel fuel') h
  have h₂ := run_mono (Nat.le_max_right fuel fuel') h'
  cases h₁.symm.trans h₂
  exact ⟨rfl, rfl⟩

/-- A run with a step for each of its moves reports as many steps. -/
theorem exists_report_of_trail {t : Tree P G} {w : σ} {C : Config P G σ → Prop} {k : Nat}
    {c : Config P G σ} (h : I.Trail gen mode C k ⟨⟨.tree t, []⟩, ⟨w, []⟩, {}⟩ c)
    (hlast : ∀ c', I.move gen mode c ≠ .on c')
    (hlimit : ∀ limit, I.maxSteps = some limit → k < limit) :
    ∃ report w', I.run gen mode (k + 1) t w = .ok (some report) w' ∧
      ∀ r, report.outcome = .ok r → r.steps = k + 1 := by
  obtain ⟨p, hsteps, -, hrun⟩ := run_of_trail h hlimit
  rw [hrun 0]
  cases hm : I.move gen mode c with
  | on c' => exact absurd hm (hlast c')
  | cut e j => exact ⟨_, _, rfl, nofun⟩
  | _ =>
    refine ⟨_, _, rfl, fun r hr => ?_⟩
    cases hr
    exact hsteps

/-- A report counts the moves of the run, the last one included. -/
theorem steps_of_run (hI : I.maxSteps = none) {fuel : Nat} {t : Tree P G} {w w' : σ}
    {r : RunResult P} {events : List RunEvent}
    (h : I.run gen mode fuel t w = .ok (some ⟨.ok r, events⟩) w') :
    I.run gen mode r.steps t w = .ok (some ⟨.ok r, events⟩) w' := by
  have hfree (limit : Nat) (hlimit : I.maxSteps = some limit) (n : Nat) : n < limit := by
    rw [hI] at hlimit
    cases hlimit
  obtain ⟨k, c, p, htrail, -, -, hend⟩ :=
    trail_of_drive (c := ⟨⟨.tree t, []⟩, ⟨w, []⟩, {}⟩) (p := {}) rfl h
  rcases hend with ⟨limit, hlimit, -⟩ | ⟨-, hlast, -⟩
  · simp [exhausted_eq_none.mpr fun limit hlimit => hfree limit hlimit p.steps] at hlimit
  · obtain ⟨report, w₁, hreport, hsteps⟩ :=
      exists_report_of_trail htrail hlast fun limit hlimit => hfree limit hlimit k
    obtain ⟨rfl, rfl⟩ := run_deterministic h hreport
    rw [hsteps r rfl]
    exact hreport

/-- A run that has made as many moves as its limit allows stops there, with the fault that names the
limit. -/
theorem run_of_spent {m : Nat} (hI : I.maxSteps = some m) {C : Config P G σ → Prop}
    {t : Tree P G} {w : σ} {c : Config P G σ}
    (h : I.Trail gen mode C m ⟨⟨.tree t, []⟩, ⟨w, []⟩, {}⟩ c) {fuel : Nat} (hfuel : m < fuel) :
    ∃ events, I.run gen mode fuel t w =
      .ok (some ⟨.ok ⟨.error (.stepLimit m), c.journal.trace I.maxTrace, m⟩, events⟩)
        c.journal.world := by
  obtain ⟨p, hsteps, htold, hdrive⟩ := drive_of_trail h (p := {}) rfl fun limit hlimit => by
    cases hI.symm.trans hlimit
    simp
  have hp : p.steps = m := by simpa using hsteps
  have hspent : I.exhausted p = some m := by simp [exhausted, hI, hp]
  obtain ⟨n, rfl⟩ : ∃ n, fuel = m + (n + 1) := ⟨fuel - m - 1, by omega⟩
  have hstop : I.drive gen mode (n + 1) c.state p c.journal.world =
      .ok (some (I.failed p (.stepLimit m))) c.journal.world := by
    simp only [drive, hspent]
    rfl
  have htrace : (p.report (.runFailed (.stepLimit m))).trace I.maxTrace =
      c.journal.trace I.maxTrace :=
    Progress.Tells.trace_eq htold I.maxTrace
  have hreport : I.failed p (.stepLimit m) =
      ⟨.ok ⟨.error (.stepLimit m), c.journal.trace I.maxTrace, m⟩,
        (p.report (.runFailed (.stepLimit m))).events.reverse⟩ := by
    simp only [failed, finish, Progress.report_steps, hp, ← htrace]
  rw [hreport] at hstop
  exact ⟨_, (hdrive (n + 1)).trans hstop⟩

theorem run_limited_of_run_le {fuel k m : Nat} (hk : k ≤ m) {t : Tree P G} {w w₁ w₂ : σ}
    {report report' : RunReport P}
    (h : (I.limited none).run gen mode fuel t w = .ok (some report) w₁)
    (hat : (I.limited none).run gen mode k t w = .ok (some report') w₂) :
    (I.limited (some m)).run gen mode fuel t w = .ok (some report) w₁ := by
  obtain ⟨rfl, rfl⟩ := run_deterministic h hat
  rcases Nat.le_total fuel m with hle | hle
  · rwa [run_limited_of_le hle]
  · rw [← run_limited_of_le hk] at hat
    exact run_mono (Nat.le_trans hk hle) hat

/-- The unlimited run breaks off at the limit, or it ends within the limit. -/
theorem breaksOff_or_ends (I : Interpreter P σ) (gen : G → Action σ (Tree P G)) (mode : Mode)
    (t : Tree P G) (w : σ) (m : Nat) :
    I.BreaksOff gen mode t w m ∨ ∃ k report w', k ≤ m ∧
      (I.limited none).run gen mode k t w = .ok (some report) w' ∧
      ∀ r, report.outcome = .ok r → r.steps = k := by
  rcases (I.limited none).exists_trail_or_last gen mode ⟨⟨.tree t, []⟩, ⟨w, []⟩, {}⟩ m with
    ⟨c, htrail⟩ | ⟨k, c, hk, htrail, hlast⟩
  · have htrail' := htrail.limited (some m)
    exact .inl ⟨c, htrail, htrail', fun fuel hfuel => run_of_spent rfl htrail' hfuel⟩
  · obtain ⟨report, w', hreport, hsteps⟩ := exists_report_of_trail htrail hlast nofun
    exact .inr ⟨k + 1, report, w', hk, hreport, hsteps⟩

/-- A limit on steps breaks the unlimited run off, and does no more. A run that ends within the limit
ends as without one, and a run that takes longer or never ends breaks off at the limit. A run that an
escaping fault cuts short does either. -/
theorem run_limited (I : Interpreter P σ) (gen : G → Action σ (Tree P G)) (mode : Mode)
    (t : Tree P G) (w : σ) (m : Nat) :
    (∀ fuel r events w', (I.limited none).run gen mode fuel t w = .ok (some ⟨.ok r, events⟩) w' →
      r.steps ≤ m →
        (I.limited (some m)).run gen mode fuel t w = .ok (some ⟨.ok r, events⟩) w') ∧
    ((∀ fuel report w', (I.limited none).run gen mode fuel t w = .ok (some report) w' →
      ∃ r, report.outcome = .ok r ∧ m < r.steps) → I.BreaksOff gen mode t w m) ∧
    ∀ fuel e events w',
      (I.limited none).run gen mode fuel t w = .ok (some ⟨.error e, events⟩) w' →
        (I.limited (some m)).run gen mode fuel t w = .ok (some ⟨.error e, events⟩) w' ∨
          I.BreaksOff gen mode t w m := by
  refine ⟨fun fuel r events w' hrun hsteps => ?_, fun hlonger => ?_, fun fuel e events w' hrun => ?_⟩
  · -- The run needs no more fuel than it counts steps, so that the limit is never met.
    exact run_limited_of_run_le hsteps hrun (steps_of_run rfl hrun)
  · rcases I.breaksOff_or_ends gen mode t w m with hbreaks | ⟨k, report, w', hk, hrun, hsteps⟩
    · exact hbreaks
    · obtain ⟨r, hr, hm⟩ := hlonger k report w' hrun
      have hkr : r.steps = k := hsteps r hr
      omega
  · rcases I.breaksOff_or_ends gen mode t w m with hbreaks | ⟨k, report, w₁, hk, hat, -⟩
    · exact .inr hbreaks
    · exact .inl (run_limited_of_run_le hk hrun hat)

theorem run_limited_lifted :
    let effect : Effect Builtin :=
      { className := "Ask", lineage := ["Ask"], fields := [], label := .ok "ask" }
    let answer : Handler Builtin Nat := fun _ => do
      modify (· + 1)
      return .value .null
    let I : Interpreter Builtin Nat := { handlers := [("Ask", some answer)] }
    let gen : Unit → Action Nat (Tree Builtin Unit) := fun _ => return .pure .null
    (∃ events, (I.limited (some 3)).run gen .sync 3 (.lift effect) 0 =
      .ok (some ⟨.ok ⟨.ok .null, ["ask"], 3⟩, events⟩) 1) ∧
      I.BreaksOff gen .sync (.lift effect) 0 2 := by
  intro effect answer I gen
  obtain ⟨events, hrun⟩ : ∃ events, (I.limited none).run gen .sync 3 (.lift effect) 0 =
      .ok (some ⟨.ok ⟨.ok .null, ["ask"], 3⟩, events⟩) 1 := ⟨_, rfl⟩
  have hwithin := (I.run_limited gen .sync (.lift effect) 0 3).1 3 _ events 1 hrun (Nat.le_refl 3)
  refine ⟨⟨events, hwithin⟩, (I.run_limited gen .sync (.lift effect) 0 2).2.1 ?_⟩
  intro fuel report w' h
  obtain ⟨rfl, -⟩ := run_deterministic h hrun
  exact ⟨_, rfl, Nat.lt_succ_self 2⟩

end Interpreter

end SelectiveEffects
