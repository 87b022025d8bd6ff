import SelectiveEffects.Proofs.Run.Journal

/-! Runs as trails: the moves a run makes one after another, and where they lead. -/

namespace SelectiveEffects

namespace Machine

variable {P G : Type}

/-- How many forced subtrees enclose the control, and each frame. -/
structure Levels where
  here : Nat := 0
  frames : List Nat := []

namespace Levels

def push (k : Post P) (l : Levels) : List Nat :=
  match k with
  | none => l.frames
  | some _ => l.here :: l.frames

/-- What a deferred node generates is one level further inside, and a handler is at the level of
its selection. -/
def after (s : State P G) (l : Levels) : Levels :=
  match s.control, s.stack with
  | .tree (.lifted _ _), _ => { l with frames := l.here :: l.frames }
  | .tree (.selection _ _ k _), _ => { l with frames := l.here :: push k l }
  | .tree (.deferred _ k), _ | .tree (.loop _ k), _ => { here := l.here + 1, frames := push k l }
  | .value v, .select _ :: _ =>
    if v.isLeft then { l with here := l.frames.headD 0 } else { l with frames := l.frames.tail }
  | .value _, _ :: _ => { l with frames := l.frames.tail }
  | _, _ => l

end Levels

def Control.isValue : Control P G → Bool
  | .value _ => true
  | _ => false

/-- Whether the next step forces a deferred node. -/
def State.forces (s : State P G) : Bool :=
  match s.control with
  | .tree (.deferred _ _) | .tree (.loop _ _) => true
  | _ => false

/-- The next step leaves the given frames on the stack. -/
def State.Above (K : List (Frame P G)) (s : State P G) : Prop :=
  ∃ frames, s.stack = frames ++ K ∧ (frames = [] → s.control.isValue = false)

theorem State.Above.of_append {K frames : List (Frame P G)} {s : State P G}
    (h : s.Above (frames ++ K)) : s.Above K := by
  obtain ⟨top, hs, hv⟩ := h
  refine ⟨top ++ frames, by rw [hs, List.append_assoc], fun he => hv ?_⟩
  exact (List.append_eq_nil_iff.mp he).1

theorem State.above_self {K : List (Frame P G)} {s : State P G} (hs : s.stack = K)
    (hv : s.control.isValue = false) : s.Above K :=
  ⟨[], hs, fun _ => hv⟩

theorem State.above_cons {K : List (Frame P G)} {s : State P G} {frame : Frame P G}
    (hs : s.stack = frame :: K) : s.Above K :=
  ⟨[frame], hs, by simp⟩

/-- A state of the machine, with what the run did so far. -/
structure Config (P G σ : Type) where
  state : State P G
  journal : Journal P G σ
  levels : Levels := {}

inductive Move (P G σ : Type) where
  | on (c : Config P G σ)
  | done (v : Val P) (j : Journal P G σ)
  | failed (e : Fault) (j : Journal P G σ)
  | cut (e : Fault) (j : Journal P G σ)

def Move.journal {P G σ : Type} : Move P G σ → Journal P G σ
  | on c => c.journal
  | done _ j | failed _ j | cut _ j => j

/-- No move follows a fault, whether it is reported or cuts the run short. -/
theorem Move.fault_ne_on {P G σ : Type} {escapes : Bool} {e : Fault} {j : Journal P G σ}
    (c : Config P G σ) : (if escapes then .cut e j else .failed e j) ≠ Move.on c := by
  cases escapes <;> simp

theorem Move.fault_inj {P G σ : Type} {b b' : Bool} {e e' : Fault} {j j' : Journal P G σ}
    (h : (if b then .cut e j else .failed e j : Move P G σ) =
      if b' then .cut e' j' else .failed e' j') : b = b' ∧ e = e' ∧ j = j' := by
  cases b <;> cases b' <;> simp_all

end Machine

open Machine

namespace Interpreter

variable {P G σ : Type} [Primitives P]

/-- What the next move of a run does to the outside. -/
def acts (I : Interpreter P σ) (s : State P G) : List (Event P G) :=
  match s.control with
  | .tree (.lifted e _) => I.calls e
  | .tree (.deferred g _) => [.forced (.host g)]
  | .tree (.loop action _) => [.forced (.loop action)]
  | _ => []

/-- One turn of a run without a limit: a step of the machine, and the effect that it yields, if
any, handed to its handler. -/
def move (I : Interpreter P σ) (gen : G → Action σ (Tree P G)) (mode : Mode)
    (c : Config P G σ) : Move P G σ :=
  let journal := c.journal.extend (I.acts c.state)
  match Machine.step gen c.state c.journal.world with
  | .error e w => .cut e (journal w)
  | .ok (.done v) w => .done v (journal w)
  | .ok (.failed e) w => .failed e (journal w)
  | .ok .unchanged w => .on { c with journal := journal w }
  | .ok (.next { control := .effect e, stack }) w =>
    match I.perform mode e {} w with
    | .ok (.ok control, _) w => .on ⟨{ control, stack }, journal w, c.levels.after c.state⟩
    | .ok (.error f, _) w => .cut f (journal w)
    | .error f w => .cut f (journal w)
  | .ok (.next s) w => .on ⟨s, journal w, c.levels.after c.state⟩

/-- So many moves, each from a configuration with the given property. -/
inductive Trail (I : Interpreter P σ) (gen : G → Action σ (Tree P G)) (mode : Mode)
    (C : Config P G σ → Prop) : Nat → Config P G σ → Config P G σ → Prop where
  | refl (c : Config P G σ) : Trail I gen mode C 0 c c
  | step {m : Nat} {a b c : Config P G σ} :
      C a → I.move gen mode a = .on b → Trail I gen mode C m b c → Trail I gen mode C (m + 1) a c

variable {I : Interpreter P σ} {gen : G → Action σ (Tree P G)} {mode : Mode}

variable (I gen mode) in
/-- A move adds to the journal what it does. -/
theorem exists_journal_move (c : Config P G σ) :
    ∃ w, (I.move gen mode c).journal = c.journal.extend (I.acts c.state) w := by
  simp only [move]
  cases Machine.step gen c.state c.journal.world with
  | error e w => exact ⟨w, rfl⟩
  | ok r w =>
    cases r with
    | next s =>
      obtain ⟨control, K⟩ := s
      cases control with
      | effect e =>
        cases hp : I.perform (G := G) mode e {} w with
        | ok r w' =>
          obtain ⟨control | f, p⟩ := r
          · exact ⟨w', by simp only [hp]; rfl⟩
          · exact ⟨w', by simp only [hp]; rfl⟩
        | error f w' => exact ⟨w', by simp only [hp]; rfl⟩
      | _ => exact ⟨w, rfl⟩
    | _ => exact ⟨w, rfl⟩

/-- No move follows, or none from a configuration with the given property. -/
def Ended (I : Interpreter P σ) (gen : G → Action σ (Tree P G)) (mode : Mode)
    (C : Config P G σ → Prop) (c : Config P G σ) : Prop :=
  C c → ∀ c', I.move gen mode c ≠ .on c'

namespace Trail

variable {C C' : Config P G σ → Prop} {m n : Nat} {a b c d : Config P G σ}

theorem trans (h : Trail I gen mode C m a b) (h' : Trail I gen mode C n b c) :
    Trail I gen mode C (m + n) a c := by
  induction h with
  | refl a => simpa using h'
  | step ha hm _ ih =>
    rw [Nat.add_right_comm]
    exact .step ha hm (ih h')

theorem mono (h : Trail I gen mode C m a b) (hC : ∀ c, C c → C' c) :
    Trail I gen mode C' m a b := by
  induction h with
  | refl a => exact .refl a
  | step ha hm _ ih => exact .step (hC _ ha) hm ih

/-- Of two trails from one place, one continues the other. -/
theorem continues (h : Trail I gen mode C m a b) (h' : Trail I gen mode C' n a c)
    (hmn : m ≤ n) : Trail I gen mode C' (n - m) b c := by
  induction h generalizing n with
  | refl a => simpa using h'
  | step _ hm _ ih =>
    cases h' with
    | refl _ => omega
    | step _ hm' h' =>
      rw [hm] at hm'
      cases hm'
      simpa using ih h' (by omega)

/-- A trail from where another one starts stays on it, or goes on from its end. -/
theorem split (h : I.Trail gen mode C m a b) (h' : I.Trail gen mode C' n a c) :
    (C c ∧ I.Trail gen mode C n a c) ∨ ∃ n', I.Trail gen mode C' n' b c := by
  induction h generalizing n with
  | refl a => exact .inr ⟨n, h'⟩
  | @step m a b' b ha hm _ ih =>
    cases h' with
    | refl _ => exact .inl ⟨ha, .refl _⟩
    | step _ hm' hrest =>
      rw [hm] at hm'
      cases hm'
      rcases ih hrest with ⟨hc, htrail⟩ | hlater
      · exact .inl ⟨hc, .step ha hm htrail⟩
      · exact .inr hlater

theorem length_le_of_ended (h : Trail I gen mode C m a b) (h' : Trail I gen mode C' n a c)
    (hb : I.Ended gen mode C' b) : n ≤ m := by
  apply Nat.le_of_not_lt
  intro hlt
  have hrest := h.continues h' (by omega)
  obtain ⟨k, hk⟩ : ∃ k, n - m = k + 1 := ⟨n - m - 1, by omega⟩
  rw [hk] at hrest
  cases hrest with
  | step hC hm _ => exact hb hC _ hm

/-- A run ends in one place. -/
theorem eq_of_ended (h : Trail I gen mode C m a b) (h' : Trail I gen mode C' n a c)
    (hb : I.Ended gen mode C' b) (hc : I.Ended gen mode C c) : b = c := by
  have hle := h.length_le_of_ended h' hb
  have hge := h'.length_le_of_ended h hc
  obtain rfl : m = n := by omega
  have hrest := h.continues h' (Nat.le_refl m)
  rw [Nat.sub_self] at hrest
  cases hrest
  rfl

end Trail

end Interpreter

end SelectiveEffects
