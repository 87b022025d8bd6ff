import SelectiveEffects.Proofs.Run.Failing
import SelectiveEffects.Scenario.Builtin

/-! Layered handler tables: the last layer that names a class has its entry, and layers that name no
class of the effects that a run meets leave the run alone. -/

namespace SelectiveEffects

open Machine Scenario

namespace HandlerTable

variable {P σ : Type}

/-- The entry of a class in a layer, whose later entries replace its earlier ones. -/
def entry? (layer : HandlerTable P σ) (className : String) : Option (Option (Handler P σ)) :=
  layer.reverse.lookup className

/-- The entry of a class in the last of the layers that name it, or else in the table below them. -/
def merged (table : HandlerTable P σ) (layers : List (HandlerTable P σ)) (className : String) :
    Option (Option (Handler P σ)) :=
  (layers.reverse.findSome? fun layer => layer.entry? className).or (table.lookup className)

theorem lookup_layer (table entries : HandlerTable P σ) (className : String) :
    (table.layer entries).lookup className = (entries.entry? className).or (table.lookup className) := by
  induction entries generalizing table with
  | nil => rfl
  | cons entry rest ih =>
    obtain ⟨name, h⟩ := entry
    have hrest := ih (table.insert name h)
    rw [layer] at hrest
    rw [layer, List.foldl_cons, hrest, lookup_insert, entry?, entry?, List.reverse_cons,
      List.lookup_append, Option.or_assoc]
    by_cases hname : className = name
    · simp [hname]
    · have hb : (className == name) = false := by simpa using hname
      simp [List.lookup_cons, hname, hb]

theorem lookup_layers (table : HandlerTable P σ) (layers : List (HandlerTable P σ))
    (className : String) :
    (layers.foldl layer table).lookup className = table.merged layers className := by
  induction layers generalizing table with
  | nil => rfl
  | cons entries rest ih =>
    rw [List.foldl_cons, ih, merged, merged, lookup_layer, List.reverse_cons,
      List.findSome?_append, Option.or_assoc]
    simp

/-- A class that no layer names has the entry of the table below them. -/
theorem merged_of_unnamed {table : HandlerTable P σ} {layers : List (HandlerTable P σ)}
    {className : String} (h : ∀ layer ∈ layers, ∀ entry ∈ layer, entry.1 ≠ className) :
    table.merged layers className = table.lookup className := by
  have hnone : (layers.reverse.findSome? fun layer => layer.entry? className) = none := by
    refine List.findSome?_eq_none_iff.mpr fun layer hlayer => ?_
    refine List.lookup_eq_none_iff.mpr fun entry hentry => ?_
    have hne := h layer (List.mem_reverse.mp hlayer) entry (List.mem_reverse.mp hentry)
    simpa using hne.symm
  rw [merged, hnone, Option.none_or]

theorem find?_congr {table table' : HandlerTable P σ} {lineage : List String}
    (h : ∀ className ∈ lineage, table'.lookup className = table.lookup className) :
    find? table' lineage = find? table lineage := by
  induction lineage with
  | nil => rfl
  | cons className lineage ih =>
    have hrest := ih fun other hother => h other (List.mem_cons_of_mem className hother)
    have hclass : handlerOf? table' className = handlerOf? table className :=
      congrArg Option.join (h className List.mem_cons_self)
    rw [find?, find?] at hrest
    rw [find?, find?, List.findSome?_cons, List.findSome?_cons, hclass, hrest]

end HandlerTable

namespace Interpreter

variable {P G σ : Type}

/-- The interpreter with one layer of handlers after another over its table. -/
def layered (I : Interpreter P σ) (layers : List (HandlerTable P σ)) : Interpreter P σ :=
  layers.foldl withHandlers I

theorem layered_eq (I : Interpreter P σ) (layers : List (HandlerTable P σ)) :
    I.layered layers = { I with handlers := layers.foldl HandlerTable.layer I.handlers } := by
  induction layers generalizing I with
  | nil => rfl
  | cons entries rest ih => exact ih (I.withHandlers entries)

theorem lookup_layered (I : Interpreter P σ) (layers : List (HandlerTable P σ))
    (className : String) :
    (I.layered layers).handlers.lookup className = I.handlers.merged layers className := by
  rw [layered_eq]
  exact HandlerTable.lookup_layers I.handlers layers className

variable {I I' : Interpreter P σ} {e : Effect P}

theorem resolve_congr (hfallback : I'.fallback = I.fallback)
    (h : ∀ className ∈ e.lineage, I'.handlers.lookup className = I.handlers.lookup className) :
    I'.resolve e = I.resolve e := by
  rw [resolve, resolve, HandlerTable.find?_congr h, hfallback]

theorem perform_congr (h : I'.resolve e = I.resolve e) (mode : Mode) (p : Progress) :
    I'.perform (G := G) mode e p = I.perform mode e p := by
  unfold perform
  rw [h]

/-- The handler of an effect: the first class of the lineage whose entry is a handler has it, or none
has one and it is the fallback. -/
def Serves (entry : String → Option (Option (Handler P σ))) (fallback : Option (Handler P σ))
    (e : Effect P) (h : Handler P σ) : Prop :=
  (∃ before className after, e.lineage = before ++ className :: after ∧
    entry className = some (some h) ∧ ∀ other ∈ before, (entry other).join = none) ∨
  (∀ className ∈ e.lineage, (entry className).join = none) ∧ fallback = some h

theorem resolve_eq_some_iff {h : Handler P σ} :
    I.resolve e = some h ↔ Serves (fun className => I.handlers.lookup className) I.fallback e h := by
  rw [resolve, Option.orElse_eq_orElse, Option.orElse_eq_or, Option.or_eq_some_iff]
  refine or_congr ?_ (and_congr_left' ?_)
  · rw [HandlerTable.find?, List.findSome?_eq_some_iff]
    simp only [HandlerTable.handlerOf?, Option.join_eq_some_iff]
  · rw [HandlerTable.find?, List.findSome?_eq_none_iff]
    rfl

theorem resolve_eq_none_iff :
    I.resolve e = none ↔
      ∀ h, ¬ Serves (fun className => I.handlers.lookup className) I.fallback e h := by
  simp only [Option.eq_none_iff_forall_ne_some, ne_eq, resolve_eq_some_iff]

/-- From this world, handing an effect over calls this handler. The run goes on with the value that
its reply comes to, or fails with the fault that it comes to, or is cut short when that escapes. -/
structure HandsTo (I : Interpreter P σ) (G : Type) (mode : Mode) (e : Effect P) (label : String)
    (h : Handler P σ) (w : σ) : Prop where
  answered : ∀ v w', (do await mode label (← h e)) w = .ok (.ok v) w' → ∀ p,
    I.perform (G := G) mode e p w = .ok (.ok (.value v), p.performing label) w'
  refused : ∀ f w', (do await mode label (← h e)) w = .ok (.error f) w' → ∀ p,
    I.perform (G := G) mode e p w = .ok (.ok (.fault f), p.performing label) w'
  raised : ∀ f w', (do await mode label (← h e)) w = .error f w' → f.escapes = false → ∀ p,
    I.perform (G := G) mode e p w =
      .ok (.ok (.fault f), noteFailure (p.performing label) e label f) w'
  escaped : ∀ f w', (do await mode label (← h e)) w = .error f w' → f.escapes = true → ∀ p,
    I.perform (G := G) mode e p w = .ok (.error f, p.performing label) w'

theorem handsTo_of_resolve {label : String} {h : Handler P σ} (hlabel : e.label = .ok label)
    (hresolve : I.resolve e = some h) (mode : Mode) (w : σ) : I.HandsTo G mode e label h w := by
  constructor
  all_goals
    intro r w' hreply
    simp only [perform, hlabel, hresolve]
    generalize (do await mode label (← h e) : Action σ (Except Fault (Val P))) = reply at hreply ⊢
  case answered | refused =>
    intro p
    rw [Action.bind_apply, Action.outcome, hreply]
    rfl
  case raised | escaped =>
    intro hf p
    simp [Action.bind_apply, Action.outcome, hreply, hf, Action.pure_apply]

theorem perform_of_unhandled {label : String} (hlabel : e.label = .ok label)
    (hresolve : I.resolve e = none) (mode : Mode) (p : Progress) (w : σ) :
    I.perform (G := G) mode e p w =
      .ok (.ok (.fault e.unhandled), noteFailure p e label e.unhandled) w := by
  simp only [perform, hlabel, hresolve]
  rfl

variable [Primitives P]

/-- A run comes to perform this effect, and its limit on steps leaves it the step to do so. -/
def Meets (I : Interpreter P σ) (gen : G → Action σ (Tree P G)) (mode : Mode) (t : Tree P G) (w : σ)
    (e : Effect P) : Prop :=
  ∃ m c k, I.Reaches gen mode t w m c ∧ c.state.control = .tree (.lifted e k)

variable {gen : G → Action σ (Tree P G)} {mode : Mode} {t : Tree P G} {w : σ}

/-- Interpreters that find the same handlers for all the effects that a run meets run alike. -/
theorem run_congr_of_meets (hsteps : I'.maxSteps = I.maxSteps) (htrace : I'.maxTrace = I.maxTrace)
    (hdebug : I'.debug = I.debug)
    (hresolve : ∀ e, I.Meets gen mode t w e → I'.resolve e = I.resolve e) (fuel : Nat) :
    I'.run gen mode fuel t w = I.run gen mode fuel t w := by
  refine drive_congr_along (c := ⟨⟨.tree t, []⟩, ⟨w, []⟩, {}⟩) htrace hdebug ?_
    fun q _ => by rw [exhausted, exhausted, hsteps]
  intro m c e k htrail hlimit hcontrol
  have hlimit' : ∀ limit, I.maxSteps = some limit → m < limit := by simpa using hlimit
  exact perform_congr (hresolve e ⟨m, c, k, ⟨htrail, hlimit'⟩, hcontrol⟩) mode

/-- No layer has an entry for a class of the effect. -/
def Unnamed (layers : List (HandlerTable P σ)) (e : Effect P) : Prop :=
  ∀ className ∈ e.lineage, ∀ layer ∈ layers, ∀ entry ∈ layer, entry.1 ≠ className

omit [Primitives P] in
theorem resolve_layered_of_unnamed {layers : List (HandlerTable P σ)} (h : Unnamed layers e) :
    (I.layered layers).resolve e = I.resolve e := by
  refine resolve_congr ?_ fun className hclass => ?_
  · rw [layered_eq]
  · rw [lookup_layered, HandlerTable.merged_of_unnamed (h className hclass)]

/-- One layer over another runs as one table does that has, for each class, the entry of the last
layer naming it. An effect is handed to the handler that is the entry of the first class of its
lineage whose merged entry is one, or else to the fallback, and is unhandled only where there is
neither. Layers that name no class of the effects that a run meets leave that run as it was. -/
theorem run_layered (I : Interpreter P σ) (layers : List (HandlerTable P σ)) :
    (∀ M : Interpreter P σ, M.fallback = I.fallback → M.maxSteps = I.maxSteps →
      M.maxTrace = I.maxTrace → M.debug = I.debug →
      (∀ className, M.handlers.lookup className = I.handlers.merged layers className) →
      ∀ (gen : G → Action σ (Tree P G)) mode fuel t w,
        (I.layered layers).run gen mode fuel t w = M.run gen mode fuel t w) ∧
    (∀ e h, (I.layered layers).resolve e = some h ↔
      Serves (I.handlers.merged layers) I.fallback e h) ∧
    (∀ e label mode w, e.label = .ok label →
      (∀ h, Serves (I.handlers.merged layers) I.fallback e h →
        (I.layered layers).HandsTo G mode e label h w) ∧
      ((∀ h, ¬ Serves (I.handlers.merged layers) I.fallback e h) → ∀ p,
        (I.layered layers).perform (G := G) mode e p w =
          .ok (.ok (.fault e.unhandled), noteFailure p e label e.unhandled) w)) ∧
    ∀ (gen : G → Action σ (Tree P G)) mode t w,
      ((∀ e, I.Meets gen mode t w e → Unnamed layers e) ∨
        ∀ e, (I.layered layers).Meets gen mode t w e → Unnamed layers e) →
      ∀ fuel, (I.layered layers).run gen mode fuel t w = I.run gen mode fuel t w := by
  have hentries : (fun className => (I.layered layers).handlers.lookup className) =
      I.handlers.merged layers := funext (I.lookup_layered layers)
  have hfallback : (I.layered layers).fallback = I.fallback := by rw [layered_eq]
  have hserved (e : Effect P) (h : Handler P σ) : (I.layered layers).resolve e = some h ↔
      Serves (I.handlers.merged layers) I.fallback e h := by
    rw [resolve_eq_some_iff, hentries, hfallback]
  refine ⟨?_, hserved, ?_, ?_⟩
  · intro M hfallback hsteps htrace hdebug hlookup gen mode fuel t w
    have hlayered := I.layered_eq layers
    refine run_congr_of_meets ?_ ?_ ?_ (fun e _ => ?_) fuel
    · rw [hlayered, hsteps]
    · rw [hlayered, htrace]
    · rw [hlayered, hdebug]
    · refine resolve_congr ?_ fun className _ => ?_
      · rw [hlayered, hfallback]
      · rw [lookup_layered, hlookup]
  · intro e label mode w hlabel
    refine ⟨fun h hserves => ?_, fun hnone p => ?_⟩
    · exact handsTo_of_resolve hlabel ((hserved e h).mpr hserves) mode w
    · refine perform_of_unhandled hlabel ?_ mode p w
      rwa [resolve_eq_none_iff, hentries, hfallback]
  · intro gen mode t w hmeets fuel
    have hlayered := I.layered_eq layers
    rcases hmeets with h | h
    · exact run_congr_of_meets (by rw [hlayered]) (by rw [hlayered]) (by rw [hlayered])
        (fun e he => resolve_layered_of_unnamed (h e he)) fuel
    · exact (run_congr_of_meets (by rw [hlayered]) (by rw [hlayered]) (by rw [hlayered])
        (fun e he => (resolve_layered_of_unnamed (h e he)).symm) fuel).symm

/-- Of the classes that `Late` inherits from, `Early` is masked and `Other` has a handler, so that the
layer for their common base comes too late, and the run gives what the handler of `Other` answers. An
effect of a class that no layer names goes to the fallback as before. -/
theorem run_layered_diamond :
    let late : Effect Builtin :=
      { className := "Late", lineage := ["Late", "Early", "Other", "Base"], fields := [],
        label := .ok "late" }
    let ask : Effect Builtin :=
      { className := "Ask", lineage := ["Ask"], fields := [], label := .ok "ask" }
    let answer (n : Int) : Handler Builtin Nat := fun _ => do
      modify (· + 1)
      return .value (.int n)
    let I : Interpreter Builtin Nat :=
      { handlers := [("Early", some (answer 1)), ("Base", some (answer 2))]
        fallback := some (answer 3) }
    let layers : List (HandlerTable Builtin Nat) :=
      [[("Early", some (answer 4)), ("Other", some (answer 5))],
        [("Early", none), ("Base", some (answer 6))]]
    let M : Interpreter Builtin Nat :=
      { handlers := [("Early", none), ("Base", some (answer 6)), ("Other", some (answer 5))]
        fallback := some (answer 3) }
    let gen : Empty → Action Nat (Tree Builtin Empty) := nofun
    (∀ fuel, (I.layered layers).run gen .sync fuel (.lift late) 0 =
        M.run gen .sync fuel (.lift late) 0) ∧
      (I.layered layers).resolve late = some (answer 5) ∧
      (∀ p w, (I.layered layers).perform (G := Empty) .sync late p w =
        .ok (.ok (.value (.int 5)), p.performing "late") (w + 1)) ∧
      (∃ events, (I.layered layers).run gen .sync 3 (.lift late) 0 =
        .ok (some ⟨.ok ⟨.ok (.int 5), ["late"], 3⟩, events⟩) 1) ∧
      I.Meets gen .sync (.lift ask) 0 ask ∧
      (∃ events, (I.layered layers).run gen .sync 3 (.lift ask) 0 =
        .ok (some ⟨.ok ⟨.ok (.int 3), ["ask"], 3⟩, events⟩) 1) ∧
      ∀ fuel, (I.layered layers).run gen .sync fuel (.lift ask) 0 =
        I.run gen .sync fuel (.lift ask) 0 := by
  intro late ask answer I layers M gen
  obtain ⟨hmerged, hserved, hhanded, hframe⟩ := run_layered (G := Empty) I layers
  have hother : Serves (I.handlers.merged layers) I.fallback late (answer 5) :=
    .inl ⟨["Late", "Early"], "Other", ["Base"], rfl, rfl, by decide⟩
  have hmeets (e : Effect Builtin) (h : I.Meets gen .sync (.lift ask) 0 e) : e = ask := by
    obtain ⟨m, c, k, ⟨htrail, -⟩, hcontrol⟩ := h
    cases htrail with
    | refl _ =>
      cases hcontrol
      rfl
    | step _ hm htrail =>
      cases (I.move_lifted gen .sync _ _ _ ask none).symm.trans hm
      cases htrail with
      | refl _ => cases hcontrol
      | step _ hm htrail =>
        cases (I.move_apply gen .sync _ _ _ _ none).symm.trans hm
        cases htrail with
        | refl _ => cases hcontrol
        | step _ hm _ => cases (I.move_done gen .sync _ _ _).symm.trans hm
  refine ⟨fun fuel => ?_, (hserved late (answer 5)).mpr hother, fun p w => ?_, ⟨_, rfl⟩, ?_,
    ⟨_, rfl⟩, ?_⟩
  · exact hmerged M rfl rfl rfl rfl (HandlerTable.lookup_layers I.handlers layers) gen .sync fuel
      (.lift late) 0
  · exact ((hhanded late "late" .sync w rfl).1 (answer 5) hother).answered (.int 5) (w + 1) rfl p
  · exact ⟨0, _, none, ⟨.refl _, nofun⟩, rfl⟩
  · refine hframe gen .sync (.lift ask) 0 (.inl fun e he => ?_)
    rw [hmeets e he]
    simp +contextual [Unnamed, layers, ask, or_imp]

end Interpreter

end SelectiveEffects
