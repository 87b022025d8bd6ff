import SelectiveEffects.Proofs.Run.Driving

/-! Runs that await: handlers may do their work when they are called or when they are awaited. -/

namespace SelectiveEffects

open Machine Scenario

/-- What a reply comes to once it is awaited. -/
def Reply.settle {P σ : Type} : Reply P σ → Action σ (Val P)
  | .value v => return v
  | .later action => action

namespace Handler

variable {P G σ : Type}

/-- Never answers later. -/
def Prompt (h : Handler P σ) : Prop :=
  ∀ e w reply w', h e w = .ok reply w' → ∃ v, reply = .value v

/-- Answers at once, and does the work when the answer is awaited. -/
def postponed (h : Handler P σ) : Handler P σ := fun e =>
  return .later (h e >>= Reply.settle)

/-- The first handler is the second one, or postpones its work. -/
def Delays (h' h : Handler P σ) : Prop :=
  h' = h ∨ h' = h.postponed

/-- Notes an effect when the work for it is done, be it when the handler is called or awaited. -/
def noted (h : Handler P σ) : Handler P (Journal P G σ) := fun e j =>
  match h e j.world with
  | .ok (.value v) w => .ok (.value v) (j.extend [.called e] w)
  | .ok (.later action) w => .ok (.later (Journal.noting [.called e] action)) (j.extend [] w)
  | .error f w => .error f (j.extend [.called e] w)

theorem Prompt.cases {h : Handler P σ} (hh : h.Prompt) (e : Effect P) (w : σ) :
    (∃ v w', h e w = .ok (.value v) w') ∨ ∃ f w', h e w = .error f w' := by
  cases hw : h e w with
  | ok reply w' =>
    obtain ⟨v, rfl⟩ := hh e w reply w' hw
    exact .inl ⟨v, w', rfl⟩
  | error f w' => exact .inr ⟨f, w', rfl⟩

theorem Prompt.noted {h : Handler P σ} (hh : h.Prompt) : (h.noted (G := G)).Prompt := by
  intro e j reply j' hj
  rcases hh.cases e j.world with ⟨v, w, hw⟩ | ⟨f, w, hw⟩
  · simp only [Handler.noted, hw] at hj
    cases hj
    exact ⟨v, rfl⟩
  · simp only [Handler.noted, hw] at hj
    cases hj

theorem noted_postponed {h : Handler P σ} (hh : h.Prompt) :
    h.postponed.noted (G := G) = h.noted.postponed := by
  funext e j
  have haction : Journal.noting [.called e] (h e >>= Reply.settle) =
      h.noted (G := G) e >>= Reply.settle := by
    funext j
    rw [Journal.noting, Action.bind_apply, Action.bind_apply]
    rcases hh.cases e j.world with ⟨v, w, hw⟩ | ⟨f, w, hw⟩
    · simp only [noted, hw]
      rfl
    · simp only [noted, hw]
  calc h.postponed.noted e j
      = .ok (.later (Journal.noting [.called e] (h e >>= Reply.settle))) (j.extend [] j.world) := rfl
    _ = h.noted.postponed e j := by
      rw [haction, Journal.extend_nil]
      rfl

theorem Delays.noted {h h' : Handler P σ} (hd : h'.Delays h) (hh : h.Prompt) :
    (h'.noted (G := G)).Delays h.noted := by
  rcases hd with rfl | rfl
  · exact .inl rfl
  · exact .inr (noted_postponed hh)

end Handler

namespace HandlerTable

variable {P σ τ : Type}

/-- The same table, with every handler changed, perhaps depending on its class. -/
def mapHandlers (f : String → Handler P σ → Handler P τ) (table : HandlerTable P σ) :
    HandlerTable P τ :=
  table.map fun entry => (entry.1, entry.2.map (f entry.1))

theorem handlerOf?_mapHandlers (f : String → Handler P σ → Handler P τ)
    (table : HandlerTable P σ) (className : String) :
    handlerOf? (mapHandlers f table) className = (handlerOf? table className).map (f className) := by
  induction table with
  | nil => rfl
  | cons entry rest ih =>
    obtain ⟨name, h⟩ := entry
    by_cases hc : className = name
    · subst hc
      simp [handlerOf?, mapHandlers]
    · have hb : (className == name) = false := by simpa using hc
      simpa [handlerOf?, mapHandlers, List.lookup_cons, hb] using ih

/-- An effect finds the handler of the same class. -/
theorem rel_find?_mapHandlers {R : Handler P τ → Handler P σ → Prop}
    {f : String → Handler P σ → Handler P τ} (hf : ∀ className h, R (f className h) h)
    (table : HandlerTable P σ) (lineage : List String) :
    Option.Rel R (find? (mapHandlers f table) lineage) (find? table lineage) := by
  induction lineage with
  | nil => exact .none
  | cons className lineage ih =>
    rw [find?, find?, List.findSome?_cons, List.findSome?_cons, handlerOf?_mapHandlers]
    cases handlerOf? table className with
    | none => exact ih
    | some h => exact .some (hf className h)

end HandlerTable

namespace Interpreter

variable {P G σ τ : Type}

/-- No handler of the table answers later, and neither does the fallback. -/
def Prompt (I : Interpreter P σ) : Prop :=
  (∀ entry ∈ I.handlers, ∀ h, entry.2 = some h → h.Prompt) ∧ ∀ h, I.fallback = some h → h.Prompt

/-- Handlers note in a journal the effects that they do their work for. -/
def noted (I : Interpreter P σ) : Interpreter P (Journal P G σ) where
  handlers := I.handlers.mapHandlers fun _ h => h.noted
  fallback := I.fallback.map Handler.noted
  maxSteps := I.maxSteps
  maxTrace := I.maxTrace
  debug := I.debug

theorem rel_resolve {I : Interpreter P σ} {I' : Interpreter P τ} {e : Effect P}
    {R : Handler P τ → Handler P σ → Prop}
    (hfind : Option.Rel R (HandlerTable.find? I'.handlers e.lineage)
      (HandlerTable.find? I.handlers e.lineage))
    (hfallback : Option.Rel R I'.fallback I.fallback) :
    Option.Rel R (I'.resolve e) (I.resolve e) := by
  rw [resolve, resolve]
  generalize HandlerTable.find? I'.handlers e.lineage = found' at hfind ⊢
  generalize HandlerTable.find? I.handlers e.lineage = found at hfind ⊢
  cases hfind with
  | none => exact hfallback
  | some h => exact .some h

/-- Where every handler is changed alike, an effect finds its handler so changed. -/
theorem resolve_eq_map {I : Interpreter P σ} {I' : Interpreter P τ}
    {change : Handler P σ → Handler P τ}
    (hhandlers : I'.handlers = I.handlers.mapHandlers fun _ => change)
    (hfallback : I'.fallback = I.fallback.map change) (e : Effect P) :
    I'.resolve e = (I.resolve e).map change := by
  have hrel : Option.Rel (fun h' h => h' = change h) (I'.resolve e) (I.resolve e) := by
    have hfind := HandlerTable.rel_find?_mapHandlers (f := fun _ => change)
      (R := fun h' h => h' = change h) (fun _ _ => rfl) I.handlers e.lineage
    refine rel_resolve (hhandlers ▸ hfind) ?_
    rw [hfallback]
    cases I.fallback with
    | none => exact .none
    | some h => exact .some rfl
  generalize I'.resolve e = resolved at hrel ⊢
  generalize I.resolve e = found at hrel ⊢
  cases hrel with
  | none => rfl
  | some h => rw [h, Option.map_some]

variable [Primitives P]

end Interpreter

end SelectiveEffects
