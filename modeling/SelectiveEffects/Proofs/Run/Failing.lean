import SelectiveEffects.Proofs.Run.Limits

/-! What fails along a run: a failure is the run's result, unless the limit on steps cuts in first. -/

namespace SelectiveEffects

open Machine Scenario

namespace Interpreter

variable {P G σ : Type} [Primitives P]

/-- A run comes to this configuration after so many moves, and its limit on steps leaves it one for
the next move. -/
def Reaches (I : Interpreter P σ) (gen : G → Action σ (Tree P G)) (mode : Mode) (t : Tree P G)
    (w : σ) (m : Nat) (c : Config P G σ) : Prop :=
  I.Trail gen mode (fun _ => True) m ⟨⟨.tree t, []⟩, ⟨w, []⟩, {}⟩ c ∧
    ∀ limit, I.maxSteps = some limit → m < limit

/-- The next move raises a fault: in the handler of an effect, when it is called or when its answer
is awaited, in what generates a subtree, in a continuation, or in a function that a handler of a
selection gave. -/
inductive Raises (I : Interpreter P σ) (gen : G → Action σ (Tree P G)) (mode : Mode) :
    Config P G σ → Fault → Prop where
  | call {e : Effect P} {k : Post P} {label : String} {h : Handler P σ} {f : Fault} {w : σ}
      {K : List (Frame P G)} {j : Journal P G σ} {l : Levels} :
      e.label = .ok label → I.resolve e = some h →
      (do await mode label (← h e)) j.world = .error f w →
      Raises I gen mode ⟨⟨.tree (.lifted e k), K⟩, j, l⟩ f
  | thunk {source : Source P G} {k : Post P} {f : Fault} {w : σ} {K : List (Frame P G)}
      {j : Journal P G σ} {l : Levels} :
      source.expand gen j.world = .error f w →
      Raises I gen mode ⟨⟨.tree (.ofSource source k), K⟩, j, l⟩ f
  | continuation {k : Post P} {v : Val P} {f : Fault} {K : List (Frame P G)} {j : Journal P G σ}
      {l : Levels} :
      k.apply v = .error f → Raises I gen mode ⟨⟨.value v, .apply k :: K⟩, j, l⟩ f
  | function {g a : Val P} {f : Fault} {K : List (Frame P G)} {j : Journal P G σ} {l : Levels} :
      g.call a = .error f → Raises I gen mode ⟨⟨.value g, .argument a :: K⟩, j, l⟩ f

/-- The next move fails: something raises a fault, a handler answers later where nothing awaits it,
an effect has no handler, a disjunction has no tag, or there is no tree to run. -/
inductive Fails (I : Interpreter P σ) (gen : G → Action σ (Tree P G)) (mode : Mode) :
    Config P G σ → Fault → Prop where
  | raised {c : Config P G σ} {f : Fault} : I.Raises gen mode c f → Fails I gen mode c f
  | awaitable {e : Effect P} {k : Post P} {label : String} {h : Handler P σ}
      {action : Action σ (Val P)} {w : σ} {K : List (Frame P G)} {j : Journal P G σ} {l : Levels} :
      mode = .sync → e.label = .ok label → I.resolve e = some h →
      h e j.world = .ok (.later action) w →
      Fails I gen mode ⟨⟨.tree (.lifted e k), K⟩, j, l⟩ (.awaitableReply label)
  | unhandled {e : Effect P} {k : Post P} {label : String} {K : List (Frame P G)}
      {j : Journal P G σ} {l : Levels} :
      e.label = .ok label → I.resolve e = none →
      Fails I gen mode ⟨⟨.tree (.lifted e k), K⟩, j, l⟩ e.unhandled
  | untagged {v : Val P} {h : Tree P G} {K : List (Frame P G)} {j : Journal P G σ} {l : Levels} :
      (∀ a, v ≠ .left a) → (∀ b, v ≠ .right b) →
      Fails I gen mode ⟨⟨.value v, .select h :: K⟩, j, l⟩ (.untaggedDisjunction v.typeName)
  | uninterpretable {t : Tree P G} {typeName : String} {K : List (Frame P G)} {j : Journal P G σ}
      {l : Levels} :
      t = .foreign typeName ∨ t = .unknown typeName →
      Fails I gen mode ⟨⟨.tree t, K⟩, j, l⟩ (.notInterpretable typeName)

variable {I : Interpreter P σ} {gen : G → Action σ (Tree P G)} {mode : Mode}
variable {t : Tree P G} {w : σ} {m : Nat} {c : Config P G σ} {f : Fault}

omit [Primitives P] in
theorem isRead_calls_of_label {e : Effect P} {label : String} (h : e.label = .ok label) :
    (I.calls (G := G) e).all Event.isRead = true := by
  rw [calls, h]
  dsimp only
  split <;> rfl

omit [Primitives P] in
theorem answer_of_raised {e : Effect P} {label : String} {h : Handler P σ} {w w' : σ}
    (hlabel : e.label = .ok label) (hresolve : I.resolve e = some h)
    (hcall : (do await mode label (← h e)) w = .error f w') :
    I.answer mode e w = .error f w' := by
  rw [answer_of_resolve hlabel hresolve, Action.bind_apply, hcall]

omit [Primitives P] in
theorem answer_of_later {e : Effect P} {label : String} {h : Handler P σ}
    {action : Action σ (Val P)} {w w' : σ} (hlabel : e.label = .ok label)
    (hresolve : I.resolve e = some h) (hcall : h e w = .ok (.later action) w') :
    I.answer .sync e w = .error (.awaitableReply label) w' := by
  simp only [answer, hlabel, hresolve, Action.bind_apply, hcall]
  rfl

omit [Primitives P] in
theorem answer_of_unhandled {e : Effect P} {label : String} (hlabel : e.label = .ok label)
    (hresolve : I.resolve e = none) (w : σ) : I.answer mode e w = .error e.unhandled w := by
  simp only [answer, hlabel, hresolve, Action.throw_apply]

/-- An effect that fails although its label can be read leaves its fault to the run, or ends it. -/
theorem move_of_answer {e : Effect P} {k : Post P} {label : String} {K : List (Frame P G)}
    {j : Journal P G σ} {l : Levels} {w : σ} (hlabel : e.label = .ok label)
    (h : I.answer mode e j.world = .error f w) :
    I.move gen mode ⟨⟨.tree (.lifted e k), K⟩, j, l⟩ =
      if f.escapes then .cut f (j.extend (I.calls e) w)
      else .on ⟨⟨.fault f, .apply k :: K⟩, j.extend (I.calls e) w,
        ⟨l.here, l.here :: l.frames⟩⟩ := by
  rw [move_lifted, h, isRead_calls_of_label hlabel]
  simp only [Bool.not_true, Bool.or_false]

omit [Primitives P] in
theorem acts_ofSource (source : Source P G) (k : Post P) (K : List (Frame P G)) :
    I.acts ⟨.tree (.ofSource source k), K⟩ = [.forced source] := by
  cases source <;> rfl

/-- A fault that escapes ends the run. Any other one is all that the run has left, and the failing
move did no more than to call a handler or to force a node. -/
theorem Fails.exists_move (h : I.Fails gen mode c f) :
    ∃ c', c'.state.control = .fault f ∧
      c'.journal.events = c.journal.events ++ I.acts c.state ∧
      I.move gen mode c = if f.escapes then .cut f c'.journal else .on c' := by
  cases h with
  | raised h =>
    cases h with
    | call hlabel hresolve hcall =>
      exact ⟨_, rfl, rfl, move_of_answer hlabel (answer_of_raised hlabel hresolve hcall)⟩
    | @thunk source k f w K j l hexpand =>
      refine ⟨⟨⟨.fault f, K⟩, j.extend [.forced source] w, ⟨l.here + 1, l.push k⟩⟩, rfl, ?_, ?_⟩
      · rw [acts_ofSource]
        rfl
      · rw [move_ofSource, hexpand]
    | @continuation k v f K j l happly =>
      refine ⟨⟨⟨.fault f, K⟩, j, ⟨l.here, l.frames.tail⟩⟩, rfl, (List.append_nil _).symm, ?_⟩
      rw [move_apply, happly, applied]
    | @function g a f K j l hcall =>
      refine ⟨⟨⟨.fault f, K⟩, j, ⟨l.here, l.frames.tail⟩⟩, rfl, (List.append_nil _).symm, ?_⟩
      rw [move_argument, hcall, applied]
  | awaitable hmode hlabel hresolve hcall =>
    subst hmode
    exact ⟨_, rfl, rfl, move_of_answer hlabel (answer_of_later hlabel hresolve hcall)⟩
  | unhandled hlabel hresolve =>
    exact ⟨_, rfl, rfl, move_of_answer hlabel (answer_of_unhandled hlabel hresolve _)⟩
  | @untagged v t K j l hl hr =>
    exact ⟨⟨⟨.fault (.untaggedDisjunction v.typeName), K⟩, j, ⟨l.here, l.frames.tail⟩⟩, rfl,
      (List.append_nil _).symm, I.move_untagged gen mode j l K hl hr t⟩
  | @uninterpretable t typeName K j l ht =>
    refine ⟨⟨⟨.fault (.notInterpretable typeName), K⟩, j, l⟩, rfl, ?_,
      I.move_opaque gen mode j l K ht⟩
    rcases ht with rfl | rfl <;> exact (List.append_nil _).symm

/-- After a failing move that the run survives there is the fault, and nothing else. -/
theorem Fails.exists_next (h : I.Fails gen mode c f) (hf : f.escapes = false) :
    ∃ c', I.move gen mode c = .on c' ∧ c'.state.control = .fault f ∧
      c'.journal.events = c.journal.events ++ I.acts c.state := by
  obtain ⟨c', hfault, hevents, hmove⟩ := h.exists_move
  rw [hf] at hmove
  exact ⟨c', hmove, hfault, hevents⟩

theorem move_of_fault (h : c.state.control = .fault f) :
    I.move gen mode c = .failed f c.journal := by
  obtain ⟨⟨control, K⟩, j, l⟩ := c
  cases h
  exact I.move_fault gen mode j l K f

/-- When a step is left after the failing one, the run ends with the fault itself. -/
theorem run_of_fails (hreach : I.Reaches gen mode t w m c) (h : I.Fails gen mode c f)
    (hf : f.escapes = false) (hlimit : I.maxSteps ≠ some (m + 1)) {fuel : Nat}
    (hfuel : m + 1 < fuel) :
    ∃ r events w', I.run gen mode fuel t w = .ok (some ⟨.ok r, events⟩) w' ∧
      r.result = .error f ∧ r.steps = m + 2 := by
  obtain ⟨c', hmove, hfault, -⟩ := h.exists_next hf
  have htrail := hreach.1.trans (.step trivial hmove (.refl c'))
  obtain ⟨p, hsteps, -, hrun⟩ := run_of_trail htrail fun limit hmax => by
    have hlt := hreach.2 limit hmax
    have hne : limit ≠ m + 1 := fun heq => hlimit (heq ▸ hmax)
    omega
  have hspent : p.steps = m + 2 := by omega
  obtain ⟨n, rfl⟩ : ∃ n, fuel = m + 1 + (n + 1) := ⟨fuel - m - 2, by omega⟩
  have hend : I.run gen mode (m + 1 + (n + 1)) t w = .ok (some (I.failed p f)) c'.journal.world := by
    rw [hrun n, move_of_fault hfault]
    rfl
  exact ⟨_, _, _, hend, rfl, hspent⟩

/-- A fault that escapes ends the run without a result. -/
theorem run_of_escaping (hreach : I.Reaches gen mode t w m c) (h : I.Raises gen mode c f)
    (hf : f.escapes = true) :
    ∃ events w', I.run gen mode (m + 1) t w = .ok (some ⟨.error f, events⟩) w' := by
  obtain ⟨c', -, -, hmove⟩ := (Fails.raised h).exists_move
  rw [hf] at hmove
  obtain ⟨p, -, -, hrun⟩ := run_of_trail hreach.1 hreach.2
  refine ⟨p.events.reverse, c'.journal.world, ?_⟩
  rw [hrun 0, hmove]
  rfl

/-- When the failing step is the last one that the limit allows, the run ends with the fault of the
limit. -/
theorem run_of_fails_at_limit (hreach : I.Reaches gen mode t w m c) (h : I.Fails gen mode c f)
    (hf : f.escapes = false) (hlimit : I.maxSteps = some (m + 1)) {fuel : Nat}
    (hfuel : m + 1 < fuel) :
    ∃ r events w', I.run gen mode fuel t w = .ok (some ⟨.ok r, events⟩) w' ∧
      r.result = .error (.stepLimit (m + 1 : Nat)) ∧ r.steps = m + 1 := by
  obtain ⟨c', hmove, -, -⟩ := h.exists_next hf
  have htrail := hreach.1.trans (.step trivial hmove (.refl c'))
  obtain ⟨events, hrun⟩ := run_of_spent hlimit htrail hfuel
  exact ⟨_, events, _, hrun, rfl, rfl⟩

/-- A handler call that raises an ordinary fault gives the run that very fault as its result, unless
the call was made in the last step that the limit allows: the limit is looked at before the fault is
reported, and its own fault is the result then. -/
theorem run_of_raising_call {e : Effect P} {k : Post P} {label : String} {h : Handler P σ}
    {K : List (Frame P G)} {j : Journal P G σ} {l : Levels} {w₁ : σ}
    (hreach : I.Reaches gen mode t w m ⟨⟨.tree (.lifted e k), K⟩, j, l⟩)
    (hlabel : e.label = .ok label) (hresolve : I.resolve e = some h)
    (hcall : (do await mode label (← h e)) j.world = .error f w₁) (hf : f.escapes = false)
    {fuel : Nat} (hfuel : m + 1 < fuel) :
    ∃ r events w', I.run gen mode fuel t w = .ok (some ⟨.ok r, events⟩) w' ∧
      (I.maxSteps ≠ some (m + 1) → r.result = .error f) ∧
      (I.maxSteps = some (m + 1) → r.result = .error (.stepLimit (m + 1 : Nat))) := by
  have hfails : I.Fails gen mode ⟨⟨.tree (.lifted e k), K⟩, j, l⟩ f :=
    .raised (.call hlabel hresolve hcall)
  by_cases hlimit : I.maxSteps = some (m + 1)
  · obtain ⟨r, events, w', hrun, hresult, -⟩ :=
      run_of_fails_at_limit hreach hfails hf hlimit hfuel
    exact ⟨r, events, w', hrun, fun hne => absurd hlimit hne, fun _ => hresult⟩
  · obtain ⟨r, events, w', hrun, hresult, -⟩ := run_of_fails hreach hfails hf hlimit hfuel
    exact ⟨r, events, w', hrun, fun _ => hresult, fun heq => absurd heq hlimit⟩

/-- The handler answers once and then refuses. Its second call is made in the fifth step, and the
limit is six. -/
theorem run_of_raising_call_second :
    let ask : Effect Builtin :=
      { className := "Ask", lineage := ["Ask"], fields := [], label := .ok "ask" }
    let answer : Handler Builtin Nat := fun _ => do
      let n ← modifyGet fun n => (n, n + 1)
      if n = 0 then return .value (.left .null) else throw (.raised .value "boom")
    let I : Interpreter Builtin Nat := { handlers := [("Ask", some answer)], maxSteps := some 6 }
    let gen : Empty → Action Nat (Tree Builtin Empty) := nofun
    let t : Tree Builtin Empty := .selection (.lift ask) (.lift ask) none .optional
    let c : Config Builtin Empty Nat :=
      ⟨⟨.tree (.lift ask), [.argument .null]⟩, ⟨1, [.called ask]⟩, ⟨0, [0]⟩⟩
    I.Reaches gen .sync t 0 4 c ∧ I.resolve ask = some answer ∧
      (do await .sync "ask" (← answer ask)) c.journal.world = .error (.raised .value "boom") 2 ∧
      ∃ r events w', I.run gen .sync 6 t 0 = .ok (some ⟨.ok r, events⟩) w' ∧
        r.result = .error (.raised .value "boom") := by
  intro ask answer I gen t c
  have htrail : I.Trail gen .sync (fun _ => True) 4 ⟨⟨.tree t, []⟩, ⟨0, []⟩, {}⟩ c :=
    .step trivial rfl (.step trivial rfl (.step trivial rfl (.step trivial rfl (.refl c))))
  have hreach : I.Reaches gen .sync t 0 4 c := by
    refine ⟨htrail, fun limit hlimit => ?_⟩
    cases hlimit
    decide
  have hcall : (do await .sync "ask" (← answer ask)) c.journal.world =
      .error (.raised .value "boom") 2 := rfl
  have hlimit : I.maxSteps ≠ some 5 := by simp [I]
  obtain ⟨r, events, w', hrun, hresult, -⟩ :=
    run_of_raising_call hreach rfl rfl hcall rfl (Nat.lt_succ_self 5)
  exact ⟨hreach, rfl, hcall, r, events, w', hrun, hresult hlimit⟩

/-- The handler's call raises a fault in the only step that the limit allows, and the run does not end
with that fault. -/
theorem limit_hides_raising_call :
    let ask : Effect Builtin :=
      { className := "Ask", lineage := ["Ask"], fields := [], label := .ok "ask" }
    let refuse : Handler Builtin Unit := fun _ => throw (.raised .value "boom")
    let I : Interpreter Builtin Unit := { handlers := [("Ask", some refuse)], maxSteps := some 1 }
    let gen : Empty → Action Unit (Tree Builtin Empty) := nofun
    let c : Config Builtin Empty Unit := ⟨⟨.tree (.lift ask), []⟩, ⟨(), []⟩, {}⟩
    I.Reaches gen .sync (.lift ask) () 0 c ∧ I.Raises gen .sync c (.raised .value "boom") ∧
      ∀ fuel report w', I.run gen .sync fuel (.lift ask) () = .ok (some report) w' →
        report.outcome = .ok ⟨.error (.stepLimit 1), ["ask"], 1⟩ := by
  intro ask refuse I gen c
  have hreach : I.Reaches gen .sync (.lift ask) () 0 c := by
    refine ⟨.refl c, fun limit hlimit => ?_⟩
    cases hlimit
    decide
  have hrun : I.run gen .sync 2 (.lift ask) () = .ok (some _) () := rfl
  refine ⟨hreach, .call (w := ()) rfl rfl rfl, fun fuel report w' h => ?_⟩
  obtain ⟨rfl, -⟩ := run_deterministic h hrun
  rfl

end Interpreter

end SelectiveEffects
