import SelectiveEffects.Action

/-! Walks on a stack of jobs and a stack of values: how they end, and how many forced subtrees they
are ever inside of. -/

namespace SelectiveEffects

/-- A walk takes the topmost job and leaves others in its place. Where the job visits a deferred
node, the others are in the subtree that the node gave when it was forced. -/
structure JobStack (σ J V W : Type) where
  of : List J → List V → W
  work : W → Action σ (Option W)
  defers : J → Bool

namespace JobStack

variable {σ J V W : Type}

/-- Each job stands with the number of forced subtrees that enclose it. -/
structure Config (σ J V : Type) where
  jobs : List (J × Nat)
  values : List V
  world : σ

variable (S : JobStack σ J V W)

def Config.worklist (c : Config σ J V) : W :=
  S.of (c.jobs.map Prod.fst) c.values

/-- The jobs that a deferred node leaves are one level further inside. -/
def inside (job : J) (level : Nat) : Nat :=
  if S.defers job then level + 1 else level

inductive Step : Config σ J V → Config σ J V → Prop where
  | take {job : J} {level : Nat} {js : List J} {rest : List (J × Nat)} {values values' : List V}
      {w w' : σ} :
      S.work (S.of (job :: rest.map Prod.fst) values) w =
        .ok (some (S.of (js ++ rest.map Prod.fst) values')) w' →
      Step ⟨(job, level) :: rest, values, w⟩
        ⟨js.map (fun j => (j, S.inside job level)) ++ rest, values', w'⟩

/-- The next job, if there is one, lies inside at most so many forced subtrees. -/
def Config.Within (n : Nat) (c : Config σ J V) : Prop :=
  ∀ job level rest, c.jobs = (job, level) :: rest → level ≤ n

/-- So many jobs are taken, none of them too far inside. -/
inductive Trail (n : Nat) : Nat → Config σ J V → Config σ J V → Prop where
  | refl (c : Config σ J V) : Trail n 0 c c
  | step {m : Nat} {a b c : Config σ J V} :
      a.Within n → S.Step a b → Trail n m b c → Trail n (m + 1) a c

/-- The next job is one for which the walk stops in this world, and is not too far inside. -/
def Config.StopsAt (n : Nat) (stop : J → σ → Prop) (c : Config σ J V) : Prop :=
  ∃ job level rest, c.jobs = (job, level) :: rest ∧ level ≤ n ∧ stop job c.world

/-- These jobs, on top of these values, leave one value in place of the values, unless the walk
stops before. -/
def Leaves (n : Nat) (stop : J → σ → Prop) (js : List J) (level : Nat) (bs : List V) : Prop :=
  ∀ rest values w, ∃ m c,
    S.Trail n m ⟨js.map (fun j => (j, level)) ++ rest, bs ++ values, w⟩ c ∧
      (c.StopsAt n stop ∨ c.jobs = rest ∧ ∃ x, c.values = x :: values)

variable {S} {n m k level : Nat} {stop : J → σ → Prop} {a b c : Config σ J V} {job : J}
variable {js : List J} {bs : List V}

theorem Trail.trans (h : S.Trail n m a b) (h' : S.Trail n k b c) : S.Trail n (m + k) a c := by
  induction h with
  | refl a => simpa using h'
  | step ha hstep _ ih =>
    rw [Nat.add_right_comm]
    exact .step ha hstep (ih h')

theorem leaves_value (x : V) : S.Leaves n stop [] level [x] :=
  fun rest values w => ⟨0, _, .refl ⟨rest, x :: values, w⟩, .inr ⟨rfl, x, rfl⟩⟩

/-- The first job leaves its value to the others. -/
theorem Leaves.cons (hfirst : S.Leaves n stop [job] level [])
    (hrest : ∀ x, S.Leaves n stop js level (x :: bs)) : S.Leaves n stop (job :: js) level bs := by
  intro rest values w
  obtain ⟨m, ⟨jobs, built, w₁⟩, htrail, hend⟩ :=
    hfirst (js.map (fun j => (j, level)) ++ rest) (bs ++ values) w
  obtain hstop | ⟨rfl, x, rfl⟩ := hend
  · exact ⟨m, _, htrail, .inl hstop⟩
  · obtain ⟨k, c, htrail', hend⟩ := hrest x rest values w₁
    exact ⟨m + k, c, htrail.trans htrail', hend⟩

/-- What one job leaves is worked off after it. -/
theorem leaves_of_work (hlevel : level ≤ n)
    (h : ∀ w, stop job w ∨ ∃ js bs' w',
      (∀ jobs values, S.work (S.of (job :: jobs) (bs ++ values)) w =
        .ok (some (S.of (js ++ jobs) (bs' ++ values))) w') ∧
      S.Leaves n stop js (S.inside job level) bs') : S.Leaves n stop [job] level bs := by
  intro rest values w
  obtain hstop | ⟨js, bs', w', hwork, hleaves⟩ := h w
  · exact ⟨0, _, .refl _, .inl ⟨job, level, rest, rfl, hlevel, hstop⟩⟩
  · obtain ⟨m, c, htrail, hend⟩ := hleaves rest values w'
    refine ⟨m + 1, c, .step ?_ (.take (hwork (rest.map Prod.fst) values)) htrail, hend⟩
    rintro job' level' rest' hjobs
    cases hjobs
    exact hlevel

/-- A job that leaves its value at once. -/
theorem leaves_of_value (hlevel : level ≤ n)
    (h : ∀ w, stop job w ∨ ∃ x w', ∀ jobs values,
      S.work (S.of (job :: jobs) (bs ++ values)) w = .ok (some (S.of jobs (x :: values))) w') :
    S.Leaves n stop [job] level bs := by
  refine leaves_of_work hlevel fun w => (h w).imp_right ?_
  rintro ⟨x, w', hwork⟩
  exact ⟨[], [x], w', hwork, leaves_value x⟩

/-- A job that only leaves other jobs. -/
theorem leaves_of_jobs (hlevel : level ≤ n) (js : List J) (hdefers : S.defers job = false)
    (hwork : ∀ jobs values w, S.work (S.of (job :: jobs) values) w =
      .ok (some (S.of (js ++ jobs) values)) w)
    (h : S.Leaves n stop js level []) : S.Leaves n stop [job] level [] := by
  have hinside : S.inside job level = level := by rw [inside, hdefers]; rfl
  refine leaves_of_work hlevel fun w => .inr ?_
  rw [hinside]
  exact ⟨js, [], w, fun jobs values => hwork jobs values w, h⟩

/-- A deferred node that is forced leaves its subtree to the jobs one level further inside. -/
theorem leaves_of_forced (hlevel : level ≤ n) (hdefers : S.defers job = true)
    (h : ∀ w, ∃ js w',
      (∀ jobs values, S.work (S.of (job :: jobs) values) w =
        .ok (some (S.of (js ++ jobs) values)) w') ∧
      S.Leaves n stop js (level + 1) []) : S.Leaves n stop [job] level [] := by
  have hinside : S.inside job level = level + 1 := by rw [inside, hdefers]; rfl
  refine leaves_of_work hlevel fun w => .inr ?_
  obtain ⟨js, w', hwork, hleaves⟩ := h w
  rw [hinside]
  exact ⟨js, [], w', hwork, hleaves⟩

variable (S) in
/-- A loop that works until no job is left, and returns the values. -/
structure Exhausts (run : Nat → W → Action σ (Option (List V))) : Prop where
  step : ∀ {u v w w'}, S.work u w = .ok (some v) w' → ∀ fuel, run (fuel + 1) u w = run fuel v w'
  fails : ∀ {u w f w'}, S.work u w = .error f w' → ∀ fuel, run (fuel + 1) u w = .error f w'
  done : ∀ values fuel w, run (fuel + 1) (S.of [] values) w = .ok (some values) w

theorem Exhausts.run_eq {run : Nat → W → Action σ (Option (List V))} (h : S.Exhausts run)
    (htrail : S.Trail n m a c) (fuel : Nat) :
    run (m + fuel) (a.worklist S) a.world = run fuel (c.worklist S) c.world := by
  induction htrail with
  | refl c => rw [Nat.zero_add]
  | step _ hstep _ ih =>
    rw [Nat.add_right_comm, ← ih]
    cases hstep with
    | take hwork =>
      rw [Config.worklist, Config.worklist, List.map_append, List.map_map]
      simpa [Function.comp_def] using h.step hwork _

variable (S) in
/-- The walk from one job comes to an end. Either no job is left and there is exactly one value, or
what stops it is raised. No job on the way lies inside more than so many forced subtrees. -/
def Concludes (n : Nat) (stop : J → σ → Prop) (run : Nat → W → Action σ (Option (List V)))
    (job : J) (w : σ) : Prop :=
  ∃ m c, S.Trail n m ⟨[(job, 0)], [], w⟩ c ∧
    ((c.jobs = [] ∧ ∃ x, c.values = [x] ∧
      ∀ fuel, run (m + (fuel + 1)) (S.of [job] []) w = .ok (some [x]) c.world) ∨
    (c.StopsAt n stop ∧ ∃ f w', ∀ fuel, run (m + (fuel + 1)) (S.of [job] []) w = .error f w'))

theorem Leaves.concludes {run : Nat → W → Action σ (Option (List V))} (h : S.Exhausts run)
    (hstop : ∀ {job w}, stop job w → ∃ f w', ∀ jobs values,
      S.work (S.of (job :: jobs) values) w = .error f w')
    (hjob : S.Leaves n stop [job] 0 []) (w : σ) : S.Concludes n stop run job w := by
  obtain ⟨m, ⟨jobs, values, w₁⟩, htrail, hend⟩ := hjob [] [] w
  refine ⟨m, _, htrail, ?_⟩
  have hrun := h.run_eq htrail
  obtain ⟨job', level, rest, rfl, hlevel, hjob'⟩ | ⟨rfl, x, rfl⟩ := hend
  · obtain ⟨f, w', hwork⟩ := hstop hjob'
    refine .inr ⟨⟨job', level, rest, rfl, hlevel, hjob'⟩, f, w', fun fuel => ?_⟩
    exact (hrun (fuel + 1)).trans (h.fails (hwork _ _) fuel)
  · exact .inl ⟨rfl, x, rfl, fun fuel => (hrun (fuel + 1)).trans (h.done [x] fuel w₁)⟩

/-- A walk that nothing stops leaves exactly one value. -/
theorem Concludes.exists_value {run : Nat → W → Action σ (Option (List V))} {w : σ}
    (h : S.Concludes n stop run job w) (hstop : ∀ job w, ¬ stop job w) :
    ∃ m x w', S.Trail n m ⟨[(job, 0)], [], w⟩ ⟨[], [x], w'⟩ ∧
      ∀ fuel, run (m + (fuel + 1)) (S.of [job] []) w = .ok (some [x]) w' := by
  obtain ⟨m, ⟨jobs, values, w'⟩, htrail, ⟨rfl, x, rfl, hrun⟩ | ⟨⟨job', -, -, -, -, hjob'⟩, -⟩⟩ := h
  · exact ⟨m, x, w', htrail, hrun⟩
  · exact (hstop job' w' hjob').elim

end JobStack

end SelectiveEffects
