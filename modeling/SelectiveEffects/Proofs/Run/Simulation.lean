import SelectiveEffects.Proofs.Run.Trail
import SelectiveEffects.Proofs.Tree.WellMade

/-! The stepping machine comes to what direct evaluation comes to, on any stack. -/

namespace SelectiveEffects

open Machine

namespace Interpreter

variable {P G σ : Type} [Primitives P]
variable (I : Interpreter P σ) (gen : G → Action σ (Tree P G)) (mode : Mode)

theorem evaluate_ofSource (n : Nat) (source : Source P G) (k : Post P) :
    I.evaluate gen mode n (.ofSource source k) = (do
      let v ← Tree.expansion (fun source => Journal.noting [.forced source] (source.expand gen))
        (fun e => Journal.noting (I.calls e) (I.answer mode e)) n source
      Evaluation.ofExcept (k.apply v)) := by
  rw [evaluate, Tree.evaluate_eq]
  cases source <;> rfl

section Moves

variable (j : Journal P G σ) (l : Levels) (K : List (Frame P G))

theorem move_pure (v : Val P) :
    I.move gen mode ⟨⟨.tree (.pure v), K⟩, j, l⟩ = .on ⟨⟨.value v, K⟩, j, l⟩ :=
  congrArg (fun j => Move.on ⟨_, j, l⟩) j.extend_nil

theorem move_lifted (e : Effect P) (k : Post P) :
    I.move gen mode ⟨⟨.tree (.lifted e k), K⟩, j, l⟩ =
      match I.answer mode e j.world with
      | .ok v w =>
        .on ⟨⟨.value v, .apply k :: K⟩, j.extend (I.calls e) w, ⟨l.here, l.here :: l.frames⟩⟩
      | .error f w =>
        if f.escapes || !(I.calls (G := G) e).all Event.isRead then .cut f (j.extend (I.calls e) w)
        else .on ⟨⟨.fault f, .apply k :: K⟩, j.extend (I.calls e) w,
          ⟨l.here, l.here :: l.frames⟩⟩ := by
  obtain ⟨p', -, -, hp⟩ := I.perform_apply (G := G) mode e {} j.world
  dsimp only [move, acts, Machine.step, treeStep, pure, EStateM.pure]
  rw [hp]
  cases I.answer mode e j.world with
  | ok v w => rfl
  | error f w =>
    dsimp only
    cases f.escapes || !(I.calls (G := G) e).all Event.isRead <;> rfl

theorem move_selection (d h : Tree P G) (k : Post P) (route : Route) :
    I.move gen mode ⟨⟨.tree (.selection d h k route), K⟩, j, l⟩ =
      .on ⟨⟨.tree d, .select h :: push k K⟩, j, ⟨l.here, l.here :: l.push k⟩⟩ :=
  congrArg (fun j => Move.on ⟨_, j, _⟩) j.extend_nil

theorem move_ofSource (source : Source P G) (k : Post P) :
    I.move gen mode ⟨⟨.tree (.ofSource source k), K⟩, j, l⟩ =
      match source.expand gen j.world with
      | .ok t w =>
        .on ⟨⟨.tree t, push k K⟩, j.extend [.forced source] w, ⟨l.here + 1, l.push k⟩⟩
      | .error e w =>
        if e.escapes then .cut e (j.extend [.forced source] w)
        else .on ⟨⟨.fault e, K⟩, j.extend [.forced source] w, ⟨l.here + 1, l.push k⟩⟩ := by
  have hstep : Machine.step gen ⟨.tree (.ofSource source k), K⟩ =
      expandStep gen source k K := by
    cases source <;> rfl
  have hacts : I.acts (G := G) ⟨.tree (.ofSource source k), K⟩ = [.forced source] := by
    cases source <;> rfl
  have hlevels : Levels.after ⟨.tree (.ofSource source k), K⟩ l = ⟨l.here + 1, l.push k⟩ := by
    cases source <;> rfl
  simp only [move, hstep, hacts, hlevels, expandStep, Action.attempt, Action.bind_apply]
  cases source.expand gen j.world with
  | ok t w => rfl
  | error e w =>
    cases he : e.escapes
    · simp only [he, Bool.false_eq_true, if_false]
      rfl
    · simp only [he, if_true]

theorem move_opaque {t : Tree P G} {typeName : String}
    (ht : t = .foreign typeName ∨ t = .unknown typeName) :
    I.move gen mode ⟨⟨.tree t, K⟩, j, l⟩ =
      .on ⟨⟨.fault (.notInterpretable typeName), K⟩, j, l⟩ := by
  rcases ht with rfl | rfl <;> exact congrArg (fun j => Move.on ⟨_, j, l⟩) j.extend_nil

theorem move_fault (e : Fault) : I.move gen mode ⟨⟨.fault e, K⟩, j, l⟩ = .failed e j :=
  congrArg (Move.failed e) j.extend_nil

theorem move_done (v : Val P) : I.move gen mode ⟨⟨.value v, []⟩, j, l⟩ = .done v j :=
  congrArg (Move.done v) j.extend_nil

/-- A function that was applied gives the next value, a fault, or the end of the run. -/
def applied (r : Except Fault (Val P)) (frames : List Nat) : Move P G σ :=
  match r with
  | .ok v => .on ⟨⟨.value v, K⟩, j, ⟨l.here, frames⟩⟩
  | .error e => if e.escapes then .cut e j else .on ⟨⟨.fault e, K⟩, j, ⟨l.here, frames⟩⟩

private theorem move_applied {s : State P G} {r : Except Fault (Val P)} (hacts : I.acts s = [])
    (hstep : Machine.step gen s =
      (do return .next (ofResult K (← Action.attemptResult r)) : Action σ (Step P G)))
    (hlevels : l.after s = ⟨l.here, l.frames.tail⟩) :
    I.move gen mode ⟨s, j, l⟩ = applied j l K r l.frames.tail := by
  simp only [move, hacts, hstep, hlevels, applied]
  cases r with
  | ok v => exact congrArg (fun j => Move.on ⟨_, j, _⟩) j.extend_nil
  | error e =>
    simp only [Action.bind_apply, Action.attemptResult]
    cases he : e.escapes
    · exact congrArg (fun j => Move.on ⟨_, j, _⟩) j.extend_nil
    · exact congrArg (Move.cut e) j.extend_nil

theorem move_apply (v : Val P) (k : Post P) :
    I.move gen mode ⟨⟨.value v, .apply k :: K⟩, j, l⟩ =
      applied j l K (k.apply v) l.frames.tail :=
  I.move_applied gen mode j l K rfl rfl rfl

theorem move_argument (f a : Val P) :
    I.move gen mode ⟨⟨.value f, .argument a :: K⟩, j, l⟩ =
      applied j l K (f.call a) l.frames.tail :=
  I.move_applied gen mode j l K rfl rfl rfl

theorem move_untagged {v : Val P} (hl : ∀ a, v ≠ .left a) (hr : ∀ b, v ≠ .right b)
    (h : Tree P G) :
    I.move gen mode ⟨⟨.value v, .select h :: K⟩, j, l⟩ =
      .on ⟨⟨.fault (.untaggedDisjunction v.typeName), K⟩, j, ⟨l.here, l.frames.tail⟩⟩ := by
  cases v with
  | left a => exact absurd rfl (hl a)
  | right b => exact absurd rfl (hr b)
  | _ => exact congrArg (fun j => Move.on ⟨_, j, _⟩) j.extend_nil

theorem move_left (a : Val P) (h : Tree P G) :
    I.move gen mode ⟨⟨.value (.left a), .select h :: K⟩, j, l⟩ =
      .on ⟨⟨.tree h, .argument a :: K⟩, j, ⟨l.frames.headD 0, l.frames⟩⟩ :=
  congrArg (fun j => Move.on ⟨_, j, _⟩) j.extend_nil

theorem move_right (b : Val P) (h : Tree P G) :
    I.move gen mode ⟨⟨.value (.right b), .select h :: K⟩, j, l⟩ =
      .on ⟨⟨.value b, K⟩, j, ⟨l.here, l.frames.tail⟩⟩ :=
  congrArg (fun j => Move.on ⟨_, j, _⟩) j.extend_nil

end Moves

/-- The stack stays in place, and what is forced is at a level below the bound. -/
structure Within (K : List (Frame P G)) (bound : Nat) (c : Config P G σ) : Prop where
  above : c.state.Above K
  shallow : c.state.forces = true → c.levels.here < bound

/-- A run comes to what an evaluation came to: a value on the given stack, a fault, or else a
deferred node at the bound, after so many moves at least. -/
def Follows (K : List (Frame P G)) (frames : List Nat) (n bound : Nat) (c : Config P G σ) :
    EStateM.Result Fault (Journal P G σ) (Option (Val P)) → Prop
  | .ok (some v) j =>
    j.legible = true ∧
      ∃ m here, I.Trail gen mode (Within K bound) m c ⟨⟨.value v, K⟩, j, ⟨here, frames⟩⟩
  | .ok none j =>
    ∃ m c', n ≤ m ∧ I.Trail gen mode (Within K bound) m c c' ∧ c'.state.Above K ∧
      c'.state.forces = true ∧ c'.levels.here = bound ∧ c'.journal = j
  | .error e j =>
    ∃ m c', I.Trail gen mode (Within K bound) m c c' ∧ Within K bound c' ∧
      I.move gen mode c' = if j.cutBy e then .cut e j else .failed e j

namespace Follows

variable {I gen mode}
variable {K top : List (Frame P G)} {frames frames' : List Nat} {n n' bound : Nat}
variable {c c' : Config P G σ} {r : EStateM.Result Fault (Journal P G σ) (Option (Val P))}

theorem step (hc : Within K bound c) (hm : I.move gen mode c = .on c')
    (h : I.Follows gen mode K frames n bound c' r) :
    I.Follows gen mode K frames (n + 1) bound c r := by
  match r, h with
  | .ok (some v) j, ⟨hj, m, here, ht⟩ => exact ⟨hj, m + 1, here, .step hc hm ht⟩
  | .ok none j, ⟨m, c'', hn, ht, h⟩ => exact ⟨m + 1, c'', by omega, .step hc hm ht, h⟩
  | .error e j, ⟨m, c'', ht, h⟩ => exact ⟨m + 1, c'', .step hc hm ht, h⟩

theorem weaken (h : I.Follows gen mode K frames n bound c r) (hn : n' ≤ n) :
    I.Follows gen mode K frames n' bound c r := by
  match r, h with
  | .ok (some v) j, h => exact h
  | .ok none j, ⟨m, c'', hm, h⟩ => exact ⟨m, c'', Nat.le_trans hn hm, h⟩
  | .error e j, h => exact h

theorem next (hc : Within K bound c) (hm : I.move gen mode c = .on c')
    (h : I.Follows gen mode K frames n bound c' r) :
    I.Follows gen mode K frames n bound c r :=
  (h.step hc hm).weaken (Nat.le_succ n)

omit [Primitives P] in
theorem within_of_append (h : Within (top ++ K) bound c) : Within K bound c :=
  ⟨h.above.of_append, h.shallow⟩

theorem after {m : Nat} (ht : I.Trail gen mode (Within K bound) m c c')
    (h : I.Follows gen mode K frames n bound c' r) :
    I.Follows gen mode K frames n bound c r := by
  match r, h with
  | .ok (some v) j, ⟨hj, m', here, ht'⟩ => exact ⟨hj, m + m', here, ht.trans ht'⟩
  | .ok none j, ⟨m', c'', hn, ht', h⟩ => exact ⟨m + m', c'', by omega, ht.trans ht', h⟩
  | .error e j, ⟨m', c'', ht', h⟩ => exact ⟨m + m', c'', ht.trans ht', h⟩

/-- Evaluations follow one another as the runs do that leave the stack in place. -/
theorem bind {x : Evaluation (Journal P G σ) (Val P)}
    {f : Val P → Evaluation (Journal P G σ) (Val P)} {j : Journal P G σ} {K' : List (Frame P G)}
    (hK : K' = top ++ K) (hx : I.Follows gen mode K' frames' n bound c (x j))
    (hf : ∀ v j' here, j'.legible = true →
      I.Follows gen mode K frames n bound ⟨⟨.value v, K'⟩, j', ⟨here, frames'⟩⟩ (f v j')) :
    I.Follows gen mode K frames n bound c ((x >>= f) j) := by
  subst hK
  rw [Evaluation.bind_apply]
  match x j, hx with
  | .ok (some v) j', ⟨hj', m, here, ht⟩ =>
    exact (hf v j' here hj').after (ht.mono fun _ => within_of_append)
  | .ok none j', ⟨m, c'', hn, ht, ha, h⟩ =>
    exact ⟨m, c'', hn, ht.mono fun _ => within_of_append, ha.of_append, h⟩
  | .error e j', ⟨m, c'', ht, hw, h⟩ =>
    exact ⟨m, c'', ht.mono fun _ => within_of_append, within_of_append hw, h⟩

theorem value {v : Val P} {j : Journal P G σ} {here : Nat} (hj : j.legible = true) :
    I.Follows gen mode K frames n bound ⟨⟨.value v, K⟩, j, ⟨here, frames⟩⟩ (.ok (some v) j) :=
  ⟨hj, 0, here, .refl _⟩

omit [Primitives P] in
theorem within_fault {e : Fault} {j : Journal P G σ} {l : Levels} :
    Within K bound ⟨⟨.fault e, top ++ K⟩, j, l⟩ :=
  ⟨(State.above_self rfl rfl).of_append, by simp [State.forces]⟩

theorem fault (top : List (Frame P G)) {e : Fault} {j : Journal P G σ} {l : Levels}
    (he : e.escapes = false) (hj : j.legible = true) :
    I.Follows gen mode K frames n bound ⟨⟨.fault e, top ++ K⟩, j, l⟩ (.error e j) := by
  refine ⟨0, _, .refl _, within_fault, ?_⟩
  simp [I.move_fault gen mode, Journal.cutBy, he, hj]

theorem applied {j : Journal P G σ} {l : Levels} {x : Except Fault (Val P)}
    (hc : Within K bound c) (hj : j.legible = true)
    (hm : I.move gen mode c = Interpreter.applied j l K x frames) :
    I.Follows gen mode K frames n bound c (Evaluation.ofExcept x j) := by
  cases x with
  | ok v => exact (value hj).next hc hm
  | error e =>
    cases he : e.escapes with
    | true =>
      refine ⟨0, c, .refl c, hc, ?_⟩
      simpa [Interpreter.applied, Journal.cutBy, he] using hm
    | false =>
      simp only [Interpreter.applied, he] at hm
      exact (fault [] he hj).next hc hm

/-- What a node does to its value last. -/
theorem post {j : Journal P G σ} {l : Levels} (k : Post P) (v : Val P) (here : Nat)
    (hj : j.legible = true) :
    I.Follows gen mode K l.frames n bound ⟨⟨.value v, push k K⟩, j, ⟨here, l.push k⟩⟩
      (Evaluation.ofExcept (k.apply v) j) := by
  cases k with
  | none => exact value hj
  | some f =>
    have hc : Within K bound (⟨⟨.value v, push (some f) K⟩, j, ⟨here, l.push (some f)⟩⟩ :
        Config P G σ) := ⟨State.above_cons rfl, by simp [State.forces]⟩
    exact applied hc hj (I.move_apply gen mode j _ K v (some f))

end Follows

/-- A push leaves what was on the stack below. -/
theorem push_eq_append {P G : Type} (k : Post P) (K : List (Frame P G)) :
    push k K = push k [] ++ K := by
  cases k <;> rfl

theorem cons_push_eq_append {P G : Type} (frame : Frame P G) (k : Post P)
    (K : List (Frame P G)) : frame :: push k K = (frame :: push k []) ++ K :=
  congrArg (frame :: ·) (push_eq_append k K)

omit [Primitives P] in
theorem isRead_calls {I : Interpreter P σ} {mode : Mode} {e : Effect P} {v : Val P} {w w' : σ}
    (h : I.answer mode e w = .ok v w') : (I.calls (G := G) e).all Event.isRead = true := by
  unfold answer at h
  unfold calls
  cases hl : e.label with
  | error f => simp [hl] at h; cases h
  | ok label => cases hr : I.resolve e <;> simp [Event.isRead]

section Simulation

variable {I gen mode}
variable {K : List (Frame P G)} {n : Nat} {j : Journal P G σ} {l : Levels}

theorem follows_lifted (e : Effect P) (k : Post P) (hj : j.legible = true) :
    I.Follows gen mode K l.frames n (l.here + n) ⟨⟨.tree (.lifted e k), K⟩, j, l⟩
      ((do
        let v ← OptionT.lift (Journal.noting (I.calls e) (I.answer mode e))
        Evaluation.ofExcept (k.apply v) : Evaluation (Journal P G σ) (Val P)) j) := by
  have hc : Within K (l.here + n) (⟨⟨.tree (.lifted e k), K⟩, j, l⟩ : Config P G σ) :=
    ⟨State.above_self rfl rfl, by simp [State.forces]⟩
  have hm := I.move_lifted gen mode j l K e k
  rw [Evaluation.bind_apply, Evaluation.lift_apply, Journal.noting]
  cases ha : I.answer mode e j.world with
  | ok v w =>
    rw [ha] at hm
    have hj' : (j.extend (I.calls e) w).legible = true := by simp [hj, isRead_calls ha]
    refine Follows.next hc hm ?_
    have hc' : Within K (l.here + n) (⟨⟨.value v, .apply k :: K⟩, j.extend (I.calls e) w,
        ⟨l.here, l.here :: l.frames⟩⟩ : Config P G σ) :=
      ⟨State.above_cons rfl, by simp [State.forces]⟩
    exact Follows.applied hc' hj' (I.move_apply gen mode _ _ K v k)
  | error f w =>
    rw [ha] at hm
    cases hcut : f.escapes || !(I.calls (G := G) e).all Event.isRead with
    | true =>
      refine ⟨0, _, .refl _, hc, ?_⟩
      simp only [hcut, if_true] at hm
      rw [hm, if_pos (by simpa [Journal.cutBy, hj] using hcut)]
    | false =>
      simp only [hcut] at hm
      obtain ⟨he, hr⟩ := Bool.or_eq_false_iff.mp hcut
      refine Follows.next hc hm (Follows.fault [.apply k] he ?_)
      simpa [hj] using hr

/-- The handler of a selection is evaluated and applied to the left payload. -/
theorem follows_choose {h : Evaluation (Journal P G σ) (Val P)} {t : Tree P G} {k : Post P}
    (hh : ∀ (K' : List (Frame P G)) (j' : Journal P G σ) (l' : Levels), j'.legible = true →
      I.Follows gen mode K' l'.frames n (l'.here + n) ⟨⟨.tree t, K'⟩, j', l'⟩ (h j'))
    (v : Val P) (here : Nat) (hj : j.legible = true) :
    I.Follows gen mode K l.frames n (l.here + n)
      ⟨⟨.value v, .select t :: push k K⟩, j, ⟨here, l.here :: l.push k⟩⟩ (Tree.choose h k v j) := by
  have hc : Within K (l.here + n) (⟨⟨.value v, .select t :: push k K⟩, j,
      ⟨here, l.here :: l.push k⟩⟩ : Config P G σ) :=
    ⟨⟨_, cons_push_eq_append (.select t) k K, by simp⟩, by simp [State.forces]⟩
  by_cases hl : ∃ a, v = .left a
  · obtain ⟨a, rfl⟩ := hl
    refine Follows.next hc (I.move_left gen mode j _ (push k K) a t) ?_
    refine Follows.bind (cons_push_eq_append (.argument a) k K)
      (hh _ j ⟨l.here, l.here :: l.push k⟩ hj) ?_
    intro f j' here' hj'
    rw [Evaluation.ofExcept_bind]
    have hc' : Within (push k K) (l.here + n) (⟨⟨.value f, .argument a :: push k K⟩, j',
        ⟨here', l.here :: l.push k⟩⟩ : Config P G σ) :=
      ⟨State.above_cons rfl, by simp [State.forces]⟩
    have happlied := Follows.applied (n := n) hc' hj' (I.move_argument gen mode j' _ (push k K) f a)
    exact Follows.bind (push_eq_append k K) happlied fun u _ here'' hj'' =>
      Follows.post k u here'' hj''
  · by_cases hr : ∃ b, v = .right b
    · obtain ⟨b, rfl⟩ := hr
      refine Follows.next hc (I.move_right gen mode j _ (push k K) b t) ?_
      exact Follows.post k b here hj
    · have hl' : ∀ a, v ≠ .left a := fun a ha => hl ⟨a, ha⟩
      have hr' : ∀ b, v ≠ .right b := fun b hb => hr ⟨b, hb⟩
      rw [Tree.choose_untagged hl' hr']
      refine Follows.next hc (I.move_untagged gen mode j _ (push k K) hl' hr' t) ?_
      rw [push_eq_append]
      exact Follows.fault _ rfl hj

/-- A tree is followed when the deferred nodes in it are. -/
theorem follows_evaluateWith {deferral : Source P G → Evaluation (Journal P G σ) (Val P)}
    (hs : ∀ source k (K : List (Frame P G)) (j : Journal P G σ) (l : Levels), j.legible = true →
      I.Follows gen mode K l.frames n (l.here + n) ⟨⟨.tree (.ofSource source k), K⟩, j, l⟩
        ((deferral source >>= fun v => Evaluation.ofExcept (k.apply v)) j))
    (t : Tree P G) (K : List (Frame P G)) (j : Journal P G σ) (l : Levels)
    (hj : j.legible = true) :
    I.Follows gen mode K l.frames n (l.here + n) ⟨⟨.tree t, K⟩, j, l⟩
      (Tree.evaluateWith (fun e => Journal.noting (I.calls e) (I.answer mode e)) deferral t j) := by
  have hc (t : Tree P G) (K : List (Frame P G)) (j : Journal P G σ) (l : Levels)
      (ht : (⟨.tree t, K⟩ : State P G).forces = false) :
      Within K (l.here + n) (⟨⟨.tree t, K⟩, j, l⟩ : Config P G σ) :=
    ⟨State.above_self rfl rfl, by simp [ht]⟩
  induction t generalizing K j l with
  | pure v => exact Follows.next (hc _ K j l rfl) (I.move_pure gen mode j l K v) (Follows.value hj)
  | lifted e k => exact follows_lifted e k hj
  | selection d h k route ihd ihh =>
    refine Follows.next (hc _ K j l rfl) (I.move_selection gen mode j l K d h k route) ?_
    refine Follows.bind (cons_push_eq_append (.select h) k K)
      (ihd _ j ⟨l.here, l.here :: l.push k⟩ hj) ?_
    intro v j' here' hj'
    exact follows_choose ihh v here' hj'
  | deferred g k => exact hs (.host g) k K j l hj
  | loop action k => exact hs (.loop action) k K j l hj
  | foreign typeName =>
    exact Follows.next (hc _ K j l rfl) (I.move_opaque gen mode j l K (.inl rfl))
      (Follows.fault [] rfl hj)
  | unknown typeName =>
    exact Follows.next (hc _ K j l rfl) (I.move_opaque gen mode j l K (.inr rfl))
      (Follows.fault [] rfl hj)

variable (I gen mode) in
/-- A run comes to what direct evaluation comes to, and forces what lies below the bound only. -/
theorem evaluate_follows (n : Nat) (t : Tree P G) (K : List (Frame P G)) (j : Journal P G σ)
    (l : Levels) (hj : j.legible = true) :
    I.Follows gen mode K l.frames n (l.here + n) ⟨⟨.tree t, K⟩, j, l⟩
      (I.evaluate gen mode n t j) := by
  induction n generalizing t K j l with
  | zero =>
    rw [Interpreter.evaluate, Tree.evaluate_eq]
    refine follows_evaluateWith ?_ t K j l hj
    intro source k K j l hj
    have hforces : (⟨.tree (.ofSource source k), K⟩ : State P G).forces = true := by
      cases source <;> rfl
    exact ⟨0, _, Nat.le_refl 0, .refl _, State.above_self rfl rfl, hforces, rfl, rfl⟩
  | succ n ih =>
    rw [Interpreter.evaluate, Tree.evaluate_eq]
    refine follows_evaluateWith ?_ t K j l hj
    intro source k K j l hj
    have hc : Within K (l.here + (n + 1)) (⟨⟨.tree (.ofSource source k), K⟩, j, l⟩ :
        Config P G σ) :=
      ⟨State.above_self rfl rfl, fun _ => by simp⟩
    have hm := I.move_ofSource gen mode j l K source k
    rw [Tree.expansion, bind_assoc, Evaluation.bind_apply, Evaluation.lift_apply, Journal.noting]
    cases hx : source.expand gen j.world with
    | ok inner w =>
      rw [hx] at hm
      have hj' : (j.extend [.forced source] w).legible = true := by simp [hj, Event.isRead]
      have hinner := ih inner (push k K) (j.extend [.forced source] w)
        ⟨l.here + 1, l.push k⟩ hj'
      rw [Nat.add_right_comm] at hinner
      refine Follows.step hc hm (Follows.bind (push_eq_append k K) hinner ?_)
      intro v j'' here hj''
      exact Follows.post k v here hj''
    | error e w =>
      rw [hx] at hm
      have hj' : (j.extend [.forced source] w).legible = true := by simp [hj, Event.isRead]
      cases he : e.escapes with
      | true =>
        refine ⟨0, _, .refl _, hc, ?_⟩
        simpa [Journal.cutBy, he] using hm
      | false =>
        simp only [he] at hm
        exact Follows.next hc hm (Follows.fault [] he hj')

end Simulation

end Interpreter

end SelectiveEffects
