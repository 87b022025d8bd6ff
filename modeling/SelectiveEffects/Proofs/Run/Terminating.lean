import SelectiveEffects.Proofs.Run.Returning
import SelectiveEffects.Proofs.Run.Stepping
import SelectiveEffects.Tree.Language

/-! Runs of trees without deferred nodes: they end after a linear number of steps, and perform their
effects in the order in which these stand in the tree. -/

namespace SelectiveEffects

open Machine Scenario

namespace Effect

variable {P : Type}

/-- Labels that can all be read are those that are left when the others are dropped. -/
theorem labels_of_mapM {es : List (Effect P)} {labels : List String}
    (h : es.mapM (fun e => e.label) = .ok labels) :
    es.filterMap (fun e => e.label.toOption) = labels ∧ ∀ e ∈ es, ∃ label, e.label = .ok label := by
  induction es generalizing labels with
  | nil =>
    cases h
    exact ⟨rfl, fun e he => absurd he List.not_mem_nil⟩
  | cons e es ih =>
    rw [List.mapM_cons] at h
    obtain ⟨label, hlabel, h⟩ := exists_of_bind_eq_ok h
    obtain ⟨rest, hrest, h⟩ := exists_of_bind_eq_ok h
    cases h
    obtain ⟨hsame, hread⟩ := ih hrest
    refine ⟨?_, List.forall_mem_cons.mpr ⟨⟨label, hlabel⟩, hread⟩⟩
    rw [List.filterMap_cons, hlabel, hsame]
    rfl

end Effect

namespace Event

variable {P G : Type}

/-- The effect that was handed to a handler. -/
def effect? : Event P G → Option (Effect P)
  | called e => some e
  | _ => none

theorem filterMap_label? (events : List (Event P G)) :
    events.filterMap label? = (events.filterMap effect?).filterMap fun e => e.label.toOption := by
  have hlabel : (label? : Event P G → Option String) =
      fun event => event.effect?.bind fun e => e.label.toOption :=
    funext fun event => by cases event <;> rfl
  rw [List.filterMap_filterMap, hlabel]

end Event

namespace Tree

variable {P G : Type}

/-- How many moves a tree takes at most, until there is a value on the stack it started from. -/
@[simp] def cost : Tree P G → Nat
  | pure _ | unknown _ => 1
  | lifted _ _ => 2
  -- Down to the disjunction, the tag, the handler applied to what is in it, the node's own function.
  | selection d h _ _ => d.cost + h.cost + 4
  | deferred _ _ | loop _ _ | foreign _ => 0

theorem cost_le (t : Tree P G) : t.cost ≤ 4 * t.nodeCount := by
  induction t with
  | selection d h k route ihd ihh =>
    simp only [cost, nodeCount]
    omega
  | _ => simp [cost, nodeCount]

theorem not_loopFree_ofSource (source : Source P G) (k : Post P) :
    ¬ (ofSource source k).LoopFree := by
  cases source <;> exact fun h => h trivial

end Tree

namespace Machine

variable {P G σ : Type}

namespace Frame

/-- How many moves a frame takes at most, with what it puts in place. -/
@[simp] def cost : Frame P G → Nat
  | select h => h.cost + 2
  | apply _ | argument _ | unknown => 1

/-- The effects that a frame may still have performed. -/
def effects : Frame P G → List (Effect P)
  | select h => h.effects
  | apply _ | argument _ | unknown => []

def LoopFree : Frame P G → Prop
  | select h => h.LoopFree
  | apply _ | argument _ => True
  | unknown => False

end Frame

def stackCost : List (Frame P G) → Nat
  | [] => 0
  | frame :: K => frame.cost + stackCost K

def stackEffects (K : List (Frame P G)) : List (Effect P) :=
  K.flatMap Frame.effects

@[simp] theorem stackCost_cons (frame : Frame P G) (K : List (Frame P G)) :
    stackCost (frame :: K) = frame.cost + stackCost K := rfl

@[simp] theorem stackEffects_cons (frame : Frame P G) (K : List (Frame P G)) :
    stackEffects (frame :: K) = frame.effects ++ stackEffects K := rfl

theorem stackCost_push_le (k : Post P) (K : List (Frame P G)) :
    stackCost (push k K) ≤ stackCost K + 1 := by
  cases k <;> simp [push, Nat.add_comm]

@[simp] theorem stackEffects_push (k : Post P) (K : List (Frame P G)) :
    stackEffects (push k K) = stackEffects K := by
  cases k <;> rfl

theorem stackCost_pos {K : List (Frame P G)} (h : K ≠ []) : 0 < stackCost K := by
  cases K with
  | nil => exact absurd rfl h
  | cons frame K =>
    have hframe : 0 < frame.cost := by cases frame <;> simp
    rw [stackCost_cons]
    omega

namespace State

/-- How many moves are left at most. Only a report follows a fault. -/
def cost (s : State P G) : Nat :=
  match s.control with
  | .tree t => t.cost + stackCost s.stack
  | .value _ => stackCost s.stack
  | .fault _ | .effect _ | .unknown => 0

@[simp] theorem cost_tree (t : Tree P G) (K : List (Frame P G)) :
    cost ⟨.tree t, K⟩ = t.cost + stackCost K := rfl

@[simp] theorem cost_value (v : Val P) (K : List (Frame P G)) :
    cost ⟨.value v, K⟩ = stackCost K := rfl

/-- The effects that may still be performed, in their order. -/
def pending (s : State P G) : List (Effect P) :=
  match s.control with
  | .tree t => t.effects ++ stackEffects s.stack
  | .value _ => stackEffects s.stack
  | .fault _ | .effect _ | .unknown => []

/-- What a run without deferred nodes works on. Something foreign stands only where a selection put
it. -/
def LoopFree (s : State P G) : Prop :=
  match s.control with
  | .tree t =>
    t.LoopFree ∧ (t.isNode = false → s.stack ≠ []) ∧ ∀ frame ∈ s.stack, frame.LoopFree
  | .value _ => ∀ frame ∈ s.stack, frame.LoopFree
  | .fault _ => True
  | .effect _ | .unknown => False

end State

theorem loopFree_push {k : Post P} {K : List (Frame P G)} (h : ∀ frame ∈ K, frame.LoopFree) :
    ∀ frame ∈ push k K, frame.LoopFree := by
  cases k with
  | none => exact h
  | some f => exact List.forall_mem_cons.mpr ⟨trivial, h⟩

namespace Config

variable {c : Config P G σ}

/-- The effects handed to handlers so far, and those that may still be. -/
def effects (c : Config P G σ) : List (Effect P) :=
  c.journal.events.filterMap Event.effect? ++ c.state.pending

theorem labels_sublist (c : Config P G σ) : c.journal.labels.Sublist
    (c.effects.filterMap fun e => e.label.toOption) := by
  rw [Journal.labels, Event.filterMap_label?]
  exact (List.sublist_append_left _ _).filterMap _

theorem mem_effects_of_lifted {e : Effect P} {k : Post P}
    (h : c.state.control = .tree (.lifted e k)) : e ∈ c.effects := by
  have hpending : c.state.pending = [e] ++ stackEffects c.state.stack := by
    rw [State.pending, h]
    rfl
  rw [effects, hpending]
  simp

theorem not_stuck (hc : c.state.LoopFree) : ¬ (c.state.control = .unknown ∨
    (∃ e, c.state.control = .effect e) ∨ ∃ v K, c.state = ⟨.value v, .unknown :: K⟩) := by
  rintro (h | ⟨e, h⟩ | ⟨v, K, h⟩)
  · rwa [State.LoopFree, h] at hc
  · rwa [State.LoopFree, h] at hc
  · rw [h] at hc
    exact hc .unknown List.mem_cons_self

end Config

end Machine

namespace Interpreter

variable {P G σ : Type} {I : Interpreter P σ}

/-- The effects that the next move hands to a handler. -/
def performed (I : Interpreter P σ) (s : State P G) : List (Effect P) :=
  (I.acts s).filterMap Event.effect?

theorem performed_lifted_sublist (e : Effect P) (k : Post P) (K : List (Frame P G)) :
    (I.performed ⟨.tree (.lifted e k), K⟩).Sublist [e] := by
  have hcalls : I.acts (⟨.tree (.lifted e k), K⟩ : State P G) = I.calls e := rfl
  rw [performed, hcalls, calls]
  split
  · exact List.nil_sublist _
  · split
    · exact List.Sublist.refl _
    · exact List.nil_sublist _

theorem performed_sublist (s : State P G) : (I.performed s).Sublist s.pending := by
  obtain ⟨control, K⟩ := s
  cases control with
  | tree t =>
    cases t with
    | lifted e k =>
      exact (performed_lifted_sublist e k K).trans (List.sublist_append_left [e] (stackEffects K))
    | _ => exact List.nil_sublist _
  | _ => exact List.nil_sublist _

variable [Primitives P] {gen : G → Action σ (Tree P G)} {mode : Mode}
variable {c c' : Config P G σ} {s : State P G} {f : Fault}

theorem Fails.cost_pos (h : I.Fails gen mode c f) (hc : c.state.LoopFree) : 0 < c.state.cost := by
  have hlifted (e : Effect P) (k : Post P) (K : List (Frame P G)) :
      0 < State.cost ⟨.tree (.lifted e k), K⟩ := Nat.add_pos_left Nat.two_pos _
  have hframe (v : Val P) (frame : Frame P G) (K : List (Frame P G)) :
      0 < State.cost ⟨.value v, frame :: K⟩ := stackCost_pos (List.cons_ne_nil frame K)
  cases h with
  | raised h =>
    cases h with
    | call => exact hlifted _ _ _
    | thunk => exact absurd hc.1 (Tree.not_loopFree_ofSource _ _)
    | continuation => exact hframe _ _ _
    | function => exact hframe _ _ _
  | awaitable => exact hlifted _ _ _
  | unhandled => exact hlifted _ _ _
  | untagged => exact hframe _ _ _
  | uninterpretable ht =>
    rcases ht with rfl | rfl
    · exact Nat.add_pos_right _ (stackCost_pos (hc.2.1 rfl))
    · exact Nat.add_pos_left Nat.one_pos _

/-- Without deferred nodes, every move brings the end of the run nearer. -/
theorem Onward.cost_lt (h : I.Onward gen mode c s) (hc : c.state.LoopFree) :
    s.cost < c.state.cost := by
  cases h with
  | @descended d h k route K j l =>
    have hpush := stackCost_push_le k K
    simp only [State.cost_tree, Tree.cost, stackCost_cons, Frame.cost]
    omega
  | expanded => exact absurd hc.1 (Tree.not_loopFree_ofSource _ _)
  | left =>
    simp only [State.cost_tree, State.cost_value, stackCost_cons, Frame.cost]
    omega
  | failed hfails _ hfault =>
    have hzero : s.cost = 0 := by rw [State.cost, hfault]
    rw [hzero]
    exact hfails.cost_pos hc
  | stuck hstuck => exact absurd hstuck (Config.not_stuck hc)
  | _ => simp

theorem Onward.loopFree (h : I.Onward gen mode c s) (hc : c.state.LoopFree) : s.LoopFree := by
  cases h with
  | pure => exact hc.2.2
  | answered => exact List.forall_mem_cons.mpr ⟨trivial, hc.2.2⟩
  | descended =>
    obtain ⟨hd, hh⟩ := Tree.loopFree_selection.mp hc.1
    exact ⟨hd, fun _ => List.cons_ne_nil _ _, List.forall_mem_cons.mpr ⟨hh, loopFree_push hc.2.2⟩⟩
  | expanded => exact absurd hc.1 (Tree.not_loopFree_ofSource _ _)
  | left =>
    obtain ⟨hh, hK⟩ := List.forall_mem_cons.mp hc
    exact ⟨hh, fun _ => List.cons_ne_nil _ _, List.forall_mem_cons.mpr ⟨trivial, hK⟩⟩
  | right => exact (List.forall_mem_cons.mp hc).2
  | applied => exact (List.forall_mem_cons.mp hc).2
  | called => exact (List.forall_mem_cons.mp hc).2
  | failed _ _ hfault =>
    rw [State.LoopFree, hfault]
    trivial
  | stuck hstuck => exact absurd hstuck (Config.not_stuck hc)

/-- What a move performs comes first among the effects that were pending, and the others stay in
their order. -/
theorem Onward.pending (h : I.Onward gen mode c s) (hc : c.state.LoopFree) :
    (I.performed c.state ++ s.pending).Sublist c.state.pending := by
  cases h with
  | pure => exact List.Sublist.refl _
  | answered => exact (performed_lifted_sublist _ _ _).append_right _
  | @descended d h k route K j l =>
    have hsame : State.pending ⟨.tree d, .select h :: push k K⟩ =
        State.pending ⟨.tree (.selection d h k route), K⟩ := by
      simp [State.pending, Frame.effects]
    exact hsame ▸ List.Sublist.refl _
  | expanded => exact absurd hc.1 (Tree.not_loopFree_ofSource _ _)
  | left => exact List.Sublist.refl _
  | right => exact List.sublist_append_right _ _
  | applied => exact List.Sublist.refl _
  | called => exact List.Sublist.refl _
  | failed _ _ hfault =>
    have hnone : s.pending = [] := by rw [State.pending, hfault]
    rw [hnone, List.append_nil]
    exact performed_sublist c.state
  | stuck hstuck => exact absurd hstuck (Config.not_stuck hc)

variable (I gen mode) in
theorem events_move (c : Config P G σ) :
    (I.move gen mode c).journal.events = c.journal.events ++ I.acts c.state := by
  obtain ⟨w, hjournal⟩ := I.exists_journal_move gen mode c
  rw [hjournal]
  rfl

theorem effects_sublist_of_move (h : I.move gen mode c = .on c') (hc : c.state.LoopFree) :
    c'.effects.Sublist c.effects := by
  have hevents : c'.journal.events = c.journal.events ++ I.acts c.state := by
    rw [← I.events_move gen mode c, h]
    rfl
  rw [Config.effects, Config.effects, hevents, List.filterMap_append, List.append_assoc]
  exact ((onward_of_move h).pending hc).append_left _

/-- Whatever the next move is, the labels up to it are those of effects that were handed over or
pending. -/
theorem labels_move_sublist (c : Config P G σ) : (I.move gen mode c).journal.labels.Sublist
    (c.effects.filterMap fun e => e.label.toOption) := by
  rw [Journal.labels, Event.filterMap_label?, events_move, List.filterMap_append]
  exact ((performed_sublist c.state).append_left _).filterMap _

/-- A run without deferred nodes spends its moves, and performs pending effects in their order. -/
theorem Trail.spends {C : Config P G σ → Prop} {m : Nat} (h : I.Trail gen mode C m c c')
    (hc : c.state.LoopFree) : c'.state.LoopFree ∧ m + c'.state.cost ≤ c.state.cost ∧
      c'.effects.Sublist c.effects := by
  induction h with
  | refl c => exact ⟨hc, Nat.le_of_eq (Nat.zero_add _), List.Sublist.refl _⟩
  | step _ hmove _ ih =>
    have honward := onward_of_move hmove
    obtain ⟨hfree, hcost, heffects⟩ := ih (honward.loopFree hc)
    have hless := honward.cost_lt hc
    exact ⟨hfree, by omega, heffects.trans (effects_sublist_of_move hmove hc)⟩

variable {t : Tree P G} {w : σ} {m : Nat}

/-- The run of a tree is as long as the tree allows, and hands over no other effects. -/
theorem Trail.within_tree {C : Config P G σ → Prop}
    (h : I.Trail gen mode C m ⟨⟨.tree t, []⟩, ⟨w, []⟩, {}⟩ c) (hnode : t.isNode = true)
    (hfree : t.LoopFree) : m ≤ 4 * t.nodeCount ∧ c.effects.Sublist t.effects := by
  have hstart : (⟨.tree t, []⟩ : State P G).LoopFree := by
    refine ⟨hfree, fun hforeign => ?_, fun frame h => absurd h List.not_mem_nil⟩
    rw [hnode] at hforeign
    cases hforeign
  obtain ⟨-, hcost, heffects⟩ := h.spends hstart
  have hbound := t.cost_le
  have hall : (⟨⟨.tree t, []⟩, ⟨w, []⟩, {}⟩ : Config P G σ).effects = t.effects :=
    List.append_nil t.effects
  refine ⟨?_, hall ▸ heffects⟩
  have hnone : stackCost ([] : List (Frame P G)) = 0 := rfl
  simp only [State.cost_tree] at hcost
  omega

theorem exists_last_move (I : Interpreter P σ) (gen : G → Action σ (Tree P G)) (mode : Mode)
    (hnode : t.isNode = true) (hfree : t.LoopFree) (w : σ) :
    ∃ m c, I.Trail gen mode (fun _ => True) m ⟨⟨.tree t, []⟩, ⟨w, []⟩, {}⟩ c ∧
      ∀ c', I.move gen mode c ≠ .on c' := by
  rcases I.exists_trail_or_last gen mode ⟨⟨.tree t, []⟩, ⟨w, []⟩, {}⟩ (4 * t.nodeCount + 1) with
    ⟨c, htrail⟩ | ⟨m, c, -, htrail, hlast⟩
  · -- A trail of this length would be longer than the tree allows.
    exact absurd (htrail.within_tree hnode hfree).1 (Nat.not_succ_le_self _)
  · exact ⟨m, c, htrail, hlast⟩

/-- A tree without deferred nodes, run without a limit on steps, takes four steps for each of its
nodes and one more at most, and hands over its effects in the order in which they stand in it, each
once at most. The run returns, unless a fault that is raised on the way escapes: such a fault ends
it at once. -/
theorem run_of_loopFree (I : Interpreter P σ) (gen : G → Action σ (Tree P G)) (mode : Mode)
    (hsteps : I.maxSteps = none) (htrace : I.maxTrace = none) {t : Tree P G}
    (hnode : t.isNode = true) (hfree : t.LoopFree) {labels : List String}
    (hlabels : t.effects.mapM (fun e => e.label) = .ok labels) (w : σ) :
    (∀ m c, I.Reaches gen mode t w m c →
      m ≤ 4 * t.nodeCount ∧ (I.move gen mode c).journal.labels.Sublist labels) ∧
    (I.Ordinary gen mode t w → ∃ r w', I.Reports gen mode t w r w' ∧
      r.steps ≤ 4 * t.nodeCount + 1 ∧ r.trace.Sublist labels) ∧
    ∀ m c f, I.Reaches gen mode t w m c → I.Raises gen mode c f → f.escapes = true →
      ∃ events w', I.run gen mode (m + 1) t w = .ok (some ⟨.error f, events⟩) w' := by
  obtain ⟨hall, hread⟩ := Effect.labels_of_mapM hlabels
  refine ⟨fun m c hreach => ?_, fun hordinary => ?_, fun m c f => run_of_escaping⟩
  · obtain ⟨hcount, heffects⟩ := hreach.1.within_tree hnode hfree
    exact ⟨hcount, hall ▸ (labels_move_sublist c).trans (heffects.filterMap _)⟩
  · obtain ⟨m, c, htrail, hlast⟩ := I.exists_last_move gen mode hnode hfree w
    obtain ⟨hcount, heffects⟩ := htrail.within_tree hnode hfree
    have hreach : I.Reaches gen mode t w m c := by
      refine ⟨htrail, fun limit hlimit => ?_⟩
      rw [hsteps] at hlimit
      cases hlimit
    have hreadable (e : Effect P) (k : Post P) (f : Fault)
        (hcontrol : c.state.control = .tree (.lifted e k)) : e.label ≠ .error f := by
      obtain ⟨label, hlabel⟩ := hread e (heffects.subset (Config.mem_effects_of_lifted hcontrol))
      rw [hlabel]
      nofun
    obtain ⟨result, n, hhalts⟩ :=
      halts_of_last hreach.2 hlast fun f j => hordinary.not_cut hreach hreadable j
    have hbound : n ≤ 4 * t.nodeCount + 1 := Nat.le_trans hhalts.le_succ (Nat.succ_le_succ hcount)
    refine ⟨_, _, hhalts.reports htrail, hbound, ?_⟩
    rw [htrace, Journal.trace_none]
    exact hall ▸ c.labels_sublist.trans (heffects.filterMap _)

/-- The question is answered with a right tag, so that the handler of the selection is left out. -/
theorem run_of_loopFree_selection :
    let effect (name : String) : Effect Builtin :=
      { className := name, lineage := [name], fields := [], label := .ok name }
    let answer : Handler Builtin Unit := fun _ => return .value (.right .null)
    let I : Interpreter Builtin Unit := { fallback := some answer }
    let gen : Empty → Action Unit (Tree Builtin Empty) := nofun
    let t : Tree Builtin Empty :=
      .selection (.lift (effect "Ask")) (.lift (effect "Tell")) none .optional
    I.maxSteps = none ∧ I.maxTrace = none ∧ t.isNode = true ∧ t.LoopFree ∧
      t.effects.mapM (fun e => e.label) = .ok ["Ask", "Tell"] ∧ I.Ordinary gen .sync t () ∧
      (∀ m c, I.Reaches gen .sync t () m c →
        m ≤ 12 ∧ (I.move gen .sync c).journal.labels.Sublist ["Ask", "Tell"]) ∧
      (∃ r w', I.Reports gen .sync t () r w' ∧ r.steps ≤ 13 ∧
        r.trace.Sublist ["Ask", "Tell"]) ∧
      ∀ m c f, I.Reaches gen .sync t () m c → I.Raises gen .sync c f → f.escapes = true →
        ∃ events w', I.run gen .sync (m + 1) t () = .ok (some ⟨.error f, events⟩) w' := by
  intro effect answer I gen t
  have hfree : t.LoopFree := fun h => h.elim id id
  have hrun : I.run gen .sync 5 t () =
      .ok (some ⟨.ok ⟨.ok .null, ["Ask"], 5⟩, [.performing "Ask"]⟩) () := rfl
  have hordinary : I.Ordinary gen .sync t () := Reports.ordinary ⟨5, _, hrun⟩
  obtain ⟨hwithin, hreports, hescapes⟩ := I.run_of_loopFree gen .sync rfl rfl rfl hfree rfl ()
  exact ⟨rfl, rfl, rfl, hfree, rfl, hordinary, hwithin, hreports hordinary, hescapes⟩

/-- The handler answers, and the run reports nothing all the same: what is done to the answer raises
a fault that escapes. -/
theorem escaping_continuation_reports_nothing :
    let ask : Effect Builtin :=
      { className := "Ask", lineage := ["Ask"], fields := [], label := .ok "ask" }
    let answer : Handler Builtin Unit := fun _ => return .value .null
    let I : Interpreter Builtin Unit := { handlers := [("Ask", some answer)] }
    let gen : Empty → Action Unit (Tree Builtin Empty) := nofun
    let t : Tree Builtin Empty := .lifted ask (some fun _ => .error (.raised .abort "stop"))
    I.maxSteps = none ∧ I.maxTrace = none ∧ t.isNode = true ∧ t.LoopFree ∧
      t.effects.mapM (fun e => e.label) = .ok ["ask"] ∧
      (∀ e w, ∃ v, answer e w = .ok (.value v) w) ∧ ∀ r w', ¬ I.Reports gen .sync t () r w' := by
  intro ask answer I gen t
  have hrun : I.run gen .sync 2 t () =
      .ok (some ⟨.error (.raised .abort "stop"), [.performing "ask"]⟩) () := rfl
  refine ⟨rfl, rfl, rfl, id, rfl, fun _ _ => ⟨.null, rfl⟩, fun r w' hreports => ?_⟩
  obtain ⟨fuel, events, h⟩ := hreports
  obtain ⟨hreport, -⟩ := run_deterministic h hrun
  cases hreport

end Interpreter

end SelectiveEffects
