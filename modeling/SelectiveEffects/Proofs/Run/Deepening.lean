import SelectiveEffects.Proofs.Run.Conclusion
import SelectiveEffects.Proofs.Tree.Equations
import SelectiveEffects.Scenario.Builtin

/-! How deep the stack gets in a loop: each turn leaves three frames behind for good, and in the end
they are popped one after another. -/

namespace SelectiveEffects

open Machine Scenario

namespace Post

variable {P : Type}

/-- What a turn does to the value of the loop that it starts over. -/
def restarting : Post P :=
  after Fun.thenRight (after Fun.constantly none)

/-- What a turn does to its own value: a left tag says that the loop is over. -/
def concluding [Primitives P] : Post P :=
  after (Val.either (.constant .null) .identity).call none

theorem apply_restarting (v : Val P) :
    restarting.apply v = .ok (.compose .toRight (.constant v)) := rfl

variable [Primitives P]

theorem apply_concluding_left (a : Val P) :
    concluding.apply (.left a) = .ok .null := by
  rw [concluding, apply_after, apply_none, ok_bind, Val.call_either_left, Val.call_constant]

theorem apply_concluding_right (b : Val P) : concluding.apply (.right b) = .ok b := by
  rw [concluding, apply_after, apply_none, ok_bind, Val.call_either_right, Val.call_identity]

end Post

/-- A turn of a loop goes by this tag for the truth of what its action yields. The payload on the
right is the left tag that the whole turn concludes with. -/
def Val.decision {P : Type} (truth : Bool) : Val P :=
  if truth then .left .null else .right (.left .null)

namespace Fun

/-- What a turn of a loop makes of the value of its action. -/
def guarding {P : Type} [Primitives P] : Fun P :=
  retag.comp truthToTag

theorem guarding_eq_ok_iff {P : Type} [Primitives P] {v u : Val P} :
    guarding v = .ok u ↔ ∃ b, v.truth = .ok b ∧ u = Val.decision b := by
  have hretag (b : Bool) :
      retag (if b then .left .null else .right .null) = .ok (Val.decision b : Val P) := by
    cases b <;> simp [Val.decision]
  rw [guarding, comp]
  constructor
  · intro h
    obtain ⟨tag, htag, hu⟩ := exists_of_bind_eq_ok h
    obtain ⟨b, hb, rfl⟩ := truthToTag_eq_ok htag
    rw [hretag] at hu
    cases hu
    exact ⟨b, hb, rfl⟩
  · rintro ⟨b, hb, rfl⟩
    rw [truthToTag_of_ok hb, ok_bind, hretag]

end Fun

namespace Tree

variable {P G : Type} [Primitives P]

/-- By this disjunction each turn of a loop over the action decides whether to start over. A turn is
one selection: the end takes no node of its own. -/
structure DecidesBy (action d : Tree P G) : Prop where
  mapped : action.fmap Fun.guarding = .ok d
  turn : Context.free.whenS action (.loop action none) =
    .ok (.selection d (.loop action .restarting) .concluding .optional)
  ne_loop : ∀ k, .loop action k ≠ d

theorem exists_decidesBy {action : Tree P G} (h : action.Known) (hpure : action.isPure = false) :
    ∃ d, action.DecidesBy d := by
  cases action with
  | pure v => cases hpure
  | foreign typeName => exact h.elim
  | unknown typeName => exact h.elim
  | loop action k =>
    refine ⟨_, fmap_fmap (g := Fun.truthToTag) rfl rfl, rfl, fun k h => ?_⟩
    cases h
  | _ => exact ⟨_, fmap_fmap (g := Fun.truthToTag) rfl rfl, rfl, nofun⟩

end Tree

namespace Interpreter

variable {P G σ : Type} [Primitives P]

/-- An evaluation has come to a value: the run is back on the stack where the evaluation began, and
has popped nothing of it. -/
def Finishes (I : Interpreter P σ) (gen : G → Action σ (Tree P G)) (mode : Mode)
    (b c : Config P G σ) : Prop :=
  ∃ m v, I.Trail gen mode (fun c => c.state.Above b.state.stack) m b c ∧
    c.state = ⟨.value v, b.state.stack⟩

/-- In the run of a tree an evaluation of this disjunction begins, and so many did before it: the first
where the run first comes to the disjunction, and each further one where it first comes to it after the
one before has finished. -/
inductive Begins (I : Interpreter P σ) (gen : G → Action σ (Tree P G)) (mode : Mode)
    (t d : Tree P G) (w : σ) : Nat → Config P G σ → Prop where
  | first {m : Nat} {c : Config P G σ} :
      I.Trail gen mode (fun c => c.state.control ≠ .tree d) m ⟨⟨.tree t, []⟩, ⟨w, []⟩, {}⟩ c →
      c.state.control = .tree d → Begins I gen mode t d w 0 c
  | next {i m : Nat} {b c c' : Config P G σ} :
      Begins I gen mode t d w i b → I.Finishes gen mode b c →
      I.Trail gen mode (fun c => c.state.control ≠ .tree d) m c c' →
      c'.state.control = .tree d → Begins I gen mode t d w (i + 1) c'

/-- Each move that is left pops one frame and does nothing else, until the run is done. -/
inductive Unwinds (I : Interpreter P σ) (gen : G → Action σ (Tree P G)) (mode : Mode) (v : Val P) :
    Config P G σ → Prop where
  | done {j : Journal P G σ} {l : Levels} :
      I.move gen mode ⟨⟨.value v, []⟩, j, l⟩ = .done v j →
      Unwinds I gen mode v ⟨⟨.value v, []⟩, j, l⟩
  | pop {u u' : Val P} {frame : Frame P G} {K : List (Frame P G)} {j : Journal P G σ}
      {l l' : Levels} :
      I.move gen mode ⟨⟨.value u, frame :: K⟩, j, l⟩ = .on ⟨⟨.value u', K⟩, j, l'⟩ →
      Unwinds I gen mode v ⟨⟨.value u', K⟩, j, l'⟩ →
      Unwinds I gen mode v ⟨⟨.value u, frame :: K⟩, j, l⟩

variable {I : Interpreter P σ} {gen : G → Action σ (Tree P G)} {mode : Mode}
variable {action d : Tree P G} {K : List (Frame P G)} {j : Journal P G σ} {l : Levels}

section Finishing

/-- The truth of what the action yields, its disjunction yields as a tag. -/
theorem evaluate_eq_ok_iff_of_decidesBy (h : action.DecidesBy d) {n : Nat} {v : Val P}
    {j' : Journal P G σ} :
    I.evaluate gen mode n d j = .ok (some v) j' ↔
      ∃ u, I.evaluate gen mode n action j = .ok (some u) j' ∧
        ∃ b, u.truth = .ok b ∧ v = Val.decision b := by
  simp only [evaluate, Tree.evaluate_eq, Tree.evaluateWith_fmap_eq_ok_iff h.mapped,
    Fun.guarding_eq_ok_iff]

/-- Where the action runs to a value with a truth, its disjunction finishes. -/
theorem exists_finishes (h : action.DecidesBy d) (hj : j.legible = true) {u : Val P} {b : Bool}
    {j' : Journal P G σ} (hrun : I.RunsTo gen mode action j.world (.done u j'))
    (hu : u.truth = .ok b) : ∃ c, I.Finishes gen mode ⟨⟨.tree d, K⟩, j, l⟩ c := by
  obtain ⟨n, hn⟩ := runsTo_done_iff.mp hrun
  have haction : I.evaluate gen mode n action j =
      .ok (some u) (j.extend j'.events j'.world) :=
    (I.appends_evaluate gen mode n action).eq_ok_iff.mpr ⟨j', hn, rfl⟩
  have hdecision := (evaluate_eq_ok_iff_of_decidesBy h).mpr ⟨u, haction, b, hu, rfl⟩
  obtain ⟨-, m, l', htrail⟩ := trail_of_evaluate_value (K := K) (l := l) hj hdecision
  exact ⟨_, m, _, htrail, rfl⟩

/-- The disjunction finishes with the tag for the truth of what the action runs to, after the same
events. -/
theorem Finishes.exists_runsTo {c : Config P G σ} (h : action.DecidesBy d) (hj : j.legible = true)
    (hc : I.Finishes gen mode ⟨⟨.tree d, K⟩, j, l⟩ c) :
    ∃ u b j', I.RunsTo gen mode action j.world (.done u j') ∧ u.truth = .ok b ∧
      c.state = ⟨.value (.decision b), K⟩ ∧ c.journal = j.extend j'.events j'.world ∧
      c.journal.legible = true := by
  obtain ⟨m, v, htrail, hstate⟩ := hc
  obtain ⟨state, j₁, l₁⟩ := c
  cases hstate
  have hdecision := evaluate_of_trail_value hj htrail
  obtain ⟨hlegible, -⟩ := trail_of_evaluate_value (K := K) (l := l) hj hdecision
  obtain ⟨u, haction, b, hu, rfl⟩ := (evaluate_eq_ok_iff_of_decidesBy h).mp hdecision
  obtain ⟨j', hrun, hj₁⟩ := (I.appends_evaluate gen mode (m + 1) action).eq_ok_iff.mp haction
  exact ⟨u, b, j', runsTo_done_iff.mpr ⟨m + 1, hrun⟩, hu, rfl, hj₁, hlegible⟩

end Finishing

/-- The frames that a turn leaves on the stack for the turns after it. -/
def turnFrames : List (Frame P G) :=
  [.apply .restarting, .argument .null, .apply .concluding]

/-- The stack on which a turn evaluates its disjunction. -/
def turnStack (action : Tree P G) (i : Nat) : List (Frame P G) :=
  .select (.loop action .restarting) :: .apply .concluding :: (List.replicate i turnFrames).flatten

theorem length_turnStack (action : Tree P G) (i : Nat) : (turnStack action i).length = 2 + 3 * i := by
  simp [turnStack, turnFrames]
  omega

variable (I gen mode j l) in
/-- Forcing a loop comes to the disjunction of its next turn. -/
theorem trail_loop (h : action.DecidesBy d) (k : Post P) (K : List (Frame P G)) :
    ∃ l', I.Trail gen mode (fun c => c.state.control ≠ .tree d) 2 ⟨⟨.tree (.loop action k), K⟩, j, l⟩
      ⟨⟨.tree d, .select (.loop action .restarting) :: .apply .concluding :: push k K⟩,
        j.extend [.forced (.loop action)] j.world, l'⟩ := by
  have hforce := I.move_ofSource gen mode j l K (.loop action) k
  rw [Source.expand, h.turn] at hforce
  have hselect := I.move_selection gen mode (j.extend [.forced (.loop action)] j.world)
    ⟨l.here + 1, l.push k⟩ (push k K) d (.loop action .restarting) .concluding .optional
  refine ⟨_, .step (fun hc => h.ne_loop k (Control.tree.inj hc)) hforce
    (.step (fun hc => ?_) hselect (.refl _))⟩
  cases Control.tree.inj hc

variable (I gen mode j l) in
/-- A truthy turn starts the loop over, on a stack with three frames more. -/
theorem trail_turn (h : action.DecidesBy d) (i : Nat) :
    ∃ l', I.Trail gen mode (fun c => c.state.control ≠ .tree d) 3
      ⟨⟨.value (.left .null), turnStack action i⟩, j, l⟩
      ⟨⟨.tree d, turnStack action (i + 1)⟩, j.extend [.forced (.loop action)] j.world, l'⟩ := by
  have hleft := I.move_left gen mode j l
    (.apply .concluding :: (List.replicate i turnFrames).flatten) .null (.loop action .restarting)
  obtain ⟨l', htrail⟩ := trail_loop I gen mode j ⟨l.frames.headD 0, l.frames⟩ h .restarting
    (.argument .null :: .apply .concluding :: (List.replicate i turnFrames).flatten)
  exact ⟨l', .step nofun hleft htrail⟩

theorem unwinds_apply {k : Post P} {u v v' : Val P} (hk : k.apply v = .ok v')
    (h : ∀ l, I.Unwinds gen mode u ⟨⟨.value v', K⟩, j, l⟩) :
    I.Unwinds gen mode u ⟨⟨.value v, .apply k :: K⟩, j, l⟩ := by
  refine .pop ?_ (h ⟨l.here, l.frames.tail⟩)
  rw [move_apply, hk]
  rfl

/-- The frames that the turns left pass the absent value on. -/
theorem unwinds_turnFrames (i : Nat) :
    I.Unwinds gen mode .null ⟨⟨.value .null, (List.replicate i turnFrames).flatten⟩, j, l⟩ := by
  induction i generalizing l with
  | zero => exact .done (I.move_done gen mode j l .null)
  | succ i ih =>
    rw [List.replicate_succ, List.flatten_cons]
    refine unwinds_apply (Post.apply_restarting .null) fun l => ?_
    have happlied := I.move_argument gen mode j l
      (.apply .concluding :: (List.replicate i turnFrames).flatten)
      (.compose .toRight (.constant .null)) .null
    rw [Val.call_compose, Val.call_constant, ok_bind, Val.call_toRight] at happlied
    exact .pop happlied (unwinds_apply (Post.apply_concluding_right .null) fun l => ih)

theorem unwinds_turnStack (i : Nat) :
    I.Unwinds gen mode .null ⟨⟨.value (.right (.left .null)), turnStack action i⟩, j, l⟩ :=
  .pop (I.move_right gen mode j l _ (.left .null) _)
    (unwinds_apply (Post.apply_concluding_left .null) fun _ => unwinds_turnFrames i)

/-- No disjunction is evaluated while the stack unwinds. -/
theorem Unwinds.control_ne_tree {C : Config P G σ → Prop} {v : Val P} {m : Nat}
    {c c' : Config P G σ} (h : I.Unwinds gen mode v c) (htrail : I.Trail gen mode C m c c') :
    c'.state.control ≠ .tree d := by
  induction h generalizing m with
  | done hdone =>
    cases htrail with
    | refl _ => nofun
    | step _ hm _ => cases hdone.symm.trans hm
  | pop hpop _ ih =>
    cases htrail with
    | refl _ => nofun
    | step _ hm htrail =>
      cases hpop.symm.trans hm
      exact ih htrail

/-- The whole configuration in which a turn begins to evaluate its disjunction: the stack has the
frames that the turns before left, and every label so far could be read. -/
theorem Begins.state_eq {w : σ} {i : Nat} {b : Config P G σ} (h : action.DecidesBy d)
    (hb : I.Begins gen mode (.loop action none) d w i b) :
    b.state = ⟨.tree d, turnStack action i⟩ ∧ b.journal.legible = true := by
  have hended {c : Config P G σ} (hc : c.state.control = .tree d) :
      I.Ended gen mode (fun c => c.state.control ≠ .tree d) c := fun hne => absurd hc hne
  induction hb with
  | first htrail hcontrol =>
    obtain ⟨l', hfirst⟩ := trail_loop I gen mode ⟨w, []⟩ {} h none []
    cases htrail.eq_of_ended hfirst (hended hcontrol) (hended rfl)
    exact ⟨rfl, rfl⟩
  | @next i m b c c' _ hfinishes htrail hcontrol ih =>
    obtain ⟨state, j, l⟩ := b
    obtain ⟨rfl, hj⟩ := ih
    obtain ⟨u, truth, j', -, -, hstate, -, hlegible⟩ := hfinishes.exists_runsTo h hj
    obtain ⟨state, j₁, l₁⟩ := c
    cases hstate
    cases truth with
    | true =>
      obtain ⟨l', hturn⟩ := trail_turn I gen mode j₁ l₁ h i
      cases htrail.eq_of_ended hturn (hended hcontrol) (hended rfl)
      refine ⟨rfl, ?_⟩
      simpa [Event.isRead] using hlegible
    | false => exact absurd hcontrol ((unwinds_turnStack i).control_ne_tree htrail)

/-- Each turn of a loop leaves the same amount on the stack. The evaluation of the first disjunction,
which is the action with a function mapped over it, begins on two frames, and that of every further
one on three more than the one before. It finishes exactly when the action runs to a value whose truth
can be told, and has done then what that run does. After a truthy value the loop is forced and the
next evaluation begins. After a falsy one the run only pops what is on the stack, until it is done
with the absent value. -/
theorem depth_begins_whileS (I : Interpreter P σ) (gen : G → Action σ (Tree P G)) (mode : Mode)
    {action : Tree P G} (haction : action.Known) (hpure : action.isPure = false) :
    ∃ t d h k, Context.free.whileS action = .ok t ∧
      Context.free.whenS action t = .ok (.selection d h k .optional) ∧
      action.fmap Fun.guarding = .ok d ∧
      ∀ w, (∃ b, I.Begins gen mode t d w 0 b ∧ b.journal = ⟨w, [.forced (.loop action)]⟩) ∧
        ∀ i b, I.Begins gen mode t d w i b →
          b.state.depth = 2 + 3 * i ∧
          (∀ u j truth, I.RunsTo gen mode action b.journal.world (.done u j) →
            u.truth = .ok truth → ∃ c, I.Finishes gen mode b c) ∧
          ∀ c, I.Finishes gen mode b c →
            ∃ u j truth, I.RunsTo gen mode action b.journal.world (.done u j) ∧
              u.truth = .ok truth ∧ c.journal = b.journal.extend j.events j.world ∧
              (truth = true → ∃ b', I.Begins gen mode t d w (i + 1) b' ∧
                b'.journal = c.journal.extend [.forced (.loop action)] c.journal.world) ∧
              (truth = false → I.Unwinds gen mode .null c) := by
  obtain ⟨d, hd⟩ := Tree.exists_decidesBy haction hpure
  refine ⟨_, d, _, _, rfl, hd.turn, hd.mapped, fun w => ⟨?_, fun i b hb => ?_⟩⟩
  · obtain ⟨l', hfirst⟩ := trail_loop I gen mode ⟨w, []⟩ {} hd none []
    exact ⟨_, .first hfirst rfl, rfl⟩
  · obtain ⟨hstate, hj⟩ := hb.state_eq hd
    obtain ⟨state, j, l⟩ := b
    cases hstate
    refine ⟨length_turnStack action i, fun u j' truth hrun hu => exists_finishes hd hj hrun hu,
      fun c hc => ?_⟩
    obtain ⟨u, truth, j', hrun, hu, hstate, hjournal, -⟩ := hc.exists_runsTo hd hj
    obtain ⟨state, j₁, l₁⟩ := c
    cases hstate
    refine ⟨u, j', truth, hrun, hu, hjournal, ?_, ?_⟩
    · rintro rfl
      obtain ⟨l', hturn⟩ := trail_turn I gen mode j₁ l₁ hd i
      exact ⟨_, .next hb hc hturn rfl, rfl⟩
    · rintro rfl
      exact unwinds_turnStack i

/-- An action that yields truth once: the second evaluation begins on five frames, and the run unwinds
them after it. -/
theorem depth_begins_whileS_lifted :
    let ask : Effect Builtin :=
      { className := "Ask", lineage := ["Ask"], fields := [], label := .ok "ask" }
    let I : Interpreter Builtin Nat :=
      { fallback := some fun _ => do
          return .value (.bool (← modifyGet fun n => (decide (0 < n), n - 1))) }
    let gen : Empty → Action Nat (Tree Builtin Empty) := nofun
    let action : Tree Builtin Empty := .lift ask
    action.Known ∧ action.isPure = false ∧
      ∃ t d, Context.free.whileS action = .ok t ∧ ∃ b c, I.Begins gen .sync t d 1 1 b ∧
        b.state.depth = 5 ∧ I.Finishes gen .sync b c ∧ I.Unwinds gen .sync .null c := by
  intro ask I gen action
  have hask (n : Nat) : I.RunsTo gen .sync action n
      (.done (.bool (decide (0 < n))) ⟨n - 1, [.called ask]⟩) :=
    runsTo_of_evaluate (n := 0) rfl
  have hknown : action.Known := trivial
  obtain ⟨t, d, -, -, ht, -, -, hturns⟩ := depth_begins_whileS I gen .sync hknown rfl
  obtain ⟨⟨b, hbegins, hb⟩, hall⟩ := hturns 1
  obtain ⟨-, hfinishes, hturn⟩ := hall 0 b hbegins
  rw [hb] at hfinishes hturn
  obtain ⟨c, hc⟩ := hfinishes _ _ true (hask 1) rfl
  obtain ⟨u, j, truth, hrun, hu, hjournal, hnext, -⟩ := hturn c hc
  cases runsTo_unique (hask 1) hrun
  cases hu
  obtain ⟨b', hbegins', hb'⟩ := hnext rfl
  obtain ⟨hdepth, hfinishes', hturn'⟩ := hall 1 b' hbegins'
  rw [hb', hjournal] at hfinishes' hturn'
  obtain ⟨c', hc'⟩ := hfinishes' _ _ false (hask 0) rfl
  obtain ⟨u', j', truth', hrun', hu', -, -, hunwinds⟩ := hturn' c' hc'
  cases runsTo_unique (hask 0) hrun'
  cases hu'
  exact ⟨hknown, rfl, t, d, ht, b', c', hbegins', hdepth, hc', hunwinds rfl⟩

end Interpreter

end SelectiveEffects
