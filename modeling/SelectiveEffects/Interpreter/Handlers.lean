import SelectiveEffects.Action
import SelectiveEffects.Effect.Basic

/-! Effect handlers, and tables that find the handler of an effect by its class. -/

namespace SelectiveEffects

/-- A handler answers with a value, or with an action that is still to be awaited. -/
inductive Reply (P σ : Type) where
  | value (v : Val P)
  | later (action : Action σ (Val P))

abbrev Handler (P σ : Type) := Effect P → Action σ (Reply P σ)

/-- Entries by class name, in order of insertion. A class may be entered without a handler. -/
abbrev HandlerTable (P σ : Type) := List (String × Option (Handler P σ))

namespace HandlerTable

variable {P σ : Type}

def insert (table : HandlerTable P σ) (className : String) (h : Option (Handler P σ)) :
    HandlerTable P σ :=
  match table with
  | [] => [(className, h)]
  | (name, h') :: rest =>
    if name = className then (name, h) :: rest else (name, h') :: insert rest className h

/-- The entries of a layer replace those of the same classes. -/
def layer (table entries : HandlerTable P σ) : HandlerTable P σ :=
  entries.foldl (fun table entry => insert table entry.1 entry.2) table

def handlerOf? (table : HandlerTable P σ) (className : String) : Option (Handler P σ) :=
  (table.lookup className).join

/-- The first class of a lineage with a handler. -/
def find? (table : HandlerTable P σ) (lineage : List String) : Option (Handler P σ) :=
  lineage.findSome? (handlerOf? table)

@[simp] theorem find?_nil (lineage : List String) : find? ([] : HandlerTable P σ) lineage = none :=
  List.findSome?_eq_none_iff.mpr fun _ _ => rfl

theorem lookup_insert (table : HandlerTable P σ) (className other : String)
    (h : Option (Handler P σ)) :
    (insert table className h).lookup other =
      if other = className then some h else table.lookup other := by
  induction table with
  | nil =>
    by_cases ho : other = className
    · simp [insert, ho]
    · have hb : (other == className) = false := by simpa using ho
      simp [insert, List.lookup_cons, ho, hb]
  | cons entry rest ih =>
    obtain ⟨name, h'⟩ := entry
    by_cases ho : other = name
    · by_cases hn : name = className <;> simp [insert, ho, hn]
    · have hb : (other == name) = false := by simpa using ho
      by_cases hn : name = className
      · subst hn
        simp [insert, List.lookup_cons, ho, hb]
      · simp only [insert, hn, if_false, List.lookup_cons, hb, ih]

end HandlerTable

end SelectiveEffects
