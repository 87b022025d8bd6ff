import SelectiveEffects.Proofs.Run.Reporting

/-! What a move that goes on can be: one case for each thing the machine does. -/

namespace SelectiveEffects

open Machine

namespace Interpreter

variable {P G σ : Type} [Primitives P]

/-- The state after a move that goes on. A state that the machine has no step for stays as it is. -/
inductive Onward (I : Interpreter P σ) (gen : G → Action σ (Tree P G)) (mode : Mode) :
    Config P G σ → State P G → Prop where
  | pure {v : Val P} {K : List (Frame P G)} {j : Journal P G σ} {l : Levels} :
      Onward I gen mode ⟨⟨.tree (.pure v), K⟩, j, l⟩ ⟨.value v, K⟩
  | answered {e : Effect P} {k : Post P} {v : Val P} {w : σ} {K : List (Frame P G)}
      {j : Journal P G σ} {l : Levels} :
      I.answer mode e j.world = .ok v w →
      Onward I gen mode ⟨⟨.tree (.lifted e k), K⟩, j, l⟩ ⟨.value v, .apply k :: K⟩
  | descended {d h : Tree P G} {k : Post P} {route : Route} {K : List (Frame P G)}
      {j : Journal P G σ} {l : Levels} :
      Onward I gen mode ⟨⟨.tree (.selection d h k route), K⟩, j, l⟩
        ⟨.tree d, .select h :: push k K⟩
  | expanded {source : Source P G} {k : Post P} {t : Tree P G} {w : σ} {K : List (Frame P G)}
      {j : Journal P G σ} {l : Levels} :
      source.expand gen j.world = .ok t w →
      Onward I gen mode ⟨⟨.tree (.ofSource source k), K⟩, j, l⟩ ⟨.tree t, push k K⟩
  | left {a : Val P} {h : Tree P G} {K : List (Frame P G)} {j : Journal P G σ} {l : Levels} :
      Onward I gen mode ⟨⟨.value (.left a), .select h :: K⟩, j, l⟩ ⟨.tree h, .argument a :: K⟩
  | right {b : Val P} {h : Tree P G} {K : List (Frame P G)} {j : Journal P G σ} {l : Levels} :
      Onward I gen mode ⟨⟨.value (.right b), .select h :: K⟩, j, l⟩ ⟨.value b, K⟩
  | applied {k : Post P} {v u : Val P} {K : List (Frame P G)} {j : Journal P G σ} {l : Levels} :
      k.apply v = .ok u →
      Onward I gen mode ⟨⟨.value v, .apply k :: K⟩, j, l⟩ ⟨.value u, K⟩
  | called {g a u : Val P} {K : List (Frame P G)} {j : Journal P G σ} {l : Levels} :
      g.call a = .ok u →
      Onward I gen mode ⟨⟨.value g, .argument a :: K⟩, j, l⟩ ⟨.value u, K⟩
  | failed {c : Config P G σ} {f : Fault} {s : State P G} :
      I.Fails gen mode c f → f.escapes = false → s.control = .fault f → Onward I gen mode c s
  | stuck {c : Config P G σ} :
      (c.state.control = .unknown ∨ (∃ e, c.state.control = .effect e) ∨
        ∃ v K, c.state = ⟨.value v, .unknown :: K⟩) → Onward I gen mode c c.state

variable {I : Interpreter P σ} {gen : G → Action σ (Tree P G)} {mode : Mode}
variable {c c' : Config P G σ} {f : Fault} {label : String} {w w' : σ}

omit [Primitives P] in
/-- Without raising it, only a reply that nothing awaits leaves a fault. -/
theorem exists_later_of_reply {a : Action σ (Reply P σ)}
    (h : (do await mode label (← a)) w = .ok (.error f) w') :
    ∃ action, mode = .sync ∧ a w = .ok (.later action) w' ∧ f = .awaitableReply label := by
  rw [Action.bind_apply] at h
  match ha : a w, h with
  | .ok reply w₁, h =>
    cases reply with
    | value v => cases h
    | later action =>
      cases mode with
      | sync =>
        cases h
        exact ⟨action, rfl, rfl, rfl⟩
      | async =>
        simp only [await, Functor.map, EStateM.map] at h
        cases haction : action w₁ <;> simp [haction] at h

/-- An effect whose label can be read has no answer only where the move fails. -/
theorem fails_of_answer {e : Effect P} {k : Post P} {K : List (Frame P G)} {j : Journal P G σ}
    {l : Levels} (hlabel : e.label = .ok label) (h : I.answer mode e j.world = .error f w) :
    I.Fails gen mode ⟨⟨.tree (.lifted e k), K⟩, j, l⟩ f := by
  cases hresolve : I.resolve e with
  | none =>
    rw [answer_of_unhandled hlabel hresolve] at h
    cases h
    exact .unhandled hlabel hresolve
  | some handler =>
    rw [answer_of_resolve hlabel hresolve, Action.bind_apply] at h
    cases hcall : (do await mode label (← handler e)) j.world with
    | error f' w' =>
      rw [hcall] at h
      cases h
      exact .raised (.call hlabel hresolve hcall)
    | ok reply w' =>
      rw [hcall] at h
      cases reply with
      | ok v => cases h
      | error f' =>
        cases h
        obtain ⟨action, hmode, hlater, rfl⟩ := exists_later_of_reply hcall
        exact .awaitable hmode hlabel hresolve hlater

theorem Fails.onward (hfails : I.Fails gen mode c f) (h : I.move gen mode c = .on c') :
    I.Onward gen mode c c'.state := by
  obtain ⟨b, hfault, -, hmove⟩ := hfails.exists_move
  rw [hmove] at h
  cases hf : f.escapes with
  | true => simp [hf] at h
  | false =>
    simp only [hf, Bool.false_eq_true, if_false, Move.on.injEq] at h
    subst h
    exact .failed hfails hf hfault

theorem onward_lifted {e : Effect P} {k : Post P} {K : List (Frame P G)} {j : Journal P G σ}
    {l : Levels} (h : I.move gen mode ⟨⟨.tree (.lifted e k), K⟩, j, l⟩ = .on c') :
    I.Onward gen mode ⟨⟨.tree (.lifted e k), K⟩, j, l⟩ c'.state := by
  cases hlabel : e.label with
  | error f =>
    have hcut : I.move gen mode ⟨⟨.tree (.lifted e k), K⟩, j, l⟩ = _ :=
      move_of_unread j l K hlabel
    cases hcut.symm.trans h
  | ok label =>
    cases hanswer : I.answer mode e j.world with
    | error f w => exact (fails_of_answer hlabel hanswer).onward h
    | ok v w =>
      rw [move_lifted, hanswer] at h
      cases h
      exact .answered hanswer

theorem onward_ofSource (source : Source P G) {k : Post P} {K : List (Frame P G)}
    {j : Journal P G σ} {l : Levels}
    (h : I.move gen mode ⟨⟨.tree (.ofSource source k), K⟩, j, l⟩ = .on c') :
    I.Onward gen mode ⟨⟨.tree (.ofSource source k), K⟩, j, l⟩ c'.state := by
  cases hexpand : source.expand gen j.world with
  | error f w => exact (Fails.raised (.thunk hexpand)).onward h
  | ok t w =>
    rw [move_ofSource, hexpand] at h
    cases h
    exact .expanded hexpand

/-- A value goes to the topmost frame. -/
theorem onward_frame {v : Val P} {frame : Frame P G} {K : List (Frame P G)} {j : Journal P G σ}
    {l : Levels} (h : I.move gen mode ⟨⟨.value v, frame :: K⟩, j, l⟩ = .on c') :
    I.Onward gen mode ⟨⟨.value v, frame :: K⟩, j, l⟩ c'.state := by
  cases frame with
  | apply k =>
    cases happly : k.apply v with
    | error f => exact (Fails.raised (.continuation happly)).onward h
    | ok u =>
      rw [move_apply, happly] at h
      cases h
      exact .applied happly
  | argument a =>
    cases hcall : v.call a with
    | error f => exact (Fails.raised (.function hcall)).onward h
    | ok u =>
      rw [move_argument, hcall] at h
      cases h
      exact .called hcall
  | select handler =>
    cases v with
    | left a =>
      rw [move_left] at h
      cases h
      exact .left
    | right b =>
      rw [move_right] at h
      cases h
      exact .right
    | _ => exact (Fails.untagged (fun _ => by simp) (fun _ => by simp)).onward h
  | unknown =>
    cases h
    exact .stuck (.inr (.inr ⟨v, K, rfl⟩))

theorem onward_of_move (h : I.move gen mode c = .on c') : I.Onward gen mode c c'.state := by
  obtain ⟨⟨control, K⟩, j, l⟩ := c
  cases control with
  | tree t =>
    cases t with
    | pure v =>
      rw [move_pure] at h
      cases h
      exact .pure
    | lifted e k => exact onward_lifted h
    | selection d handler k route =>
      rw [move_selection] at h
      cases h
      exact .descended
    | deferred g k => exact onward_ofSource (.host g) h
    | loop action k => exact onward_ofSource (.loop action) h
    | foreign typeName => exact (Fails.uninterpretable (.inl rfl)).onward h
    | unknown typeName => exact (Fails.uninterpretable (.inr rfl)).onward h
  | value v =>
    cases K with
    | nil => cases (I.move_done gen mode j l v).symm.trans h
    | cons frame K => exact onward_frame h
  | fault e => cases (I.move_fault gen mode j l K e).symm.trans h
  | effect e =>
    cases h
    exact .stuck (.inr (.inl ⟨e, rfl⟩))
  | unknown =>
    cases h
    exact .stuck (.inl rfl)

end Interpreter

end SelectiveEffects
