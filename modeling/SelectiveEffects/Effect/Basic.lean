import SelectiveEffects.Effect.Site
import SelectiveEffects.Value.Marks

/-! Effects: opaque requests that a handler performs. -/

namespace SelectiveEffects

/-- `lineage` lists the class and its ancestors in the order in which handlers are looked up.
The label may be unreadable. -/
structure Effect (P : Type) where
  className : String
  lineage : List String
  fields : List (String × Val P)
  label : Except Fault String
  site : Option Site := none

namespace Effect

variable {P : Type}

def payload (e : Effect P) : Val P :=
  match e.fields.lookup "payload" with
  | some v => v
  | none => (e.fields.lookup "key").getD .null

def sameFields [Named P] : List (String × Val P) → List (String × Val P) → Bool
  | [], [] => true
  | (name, v) :: fs, (name', w) :: gs => name == name' && v.same w && sameFields fs gs
  | _, _ => false

/-- Equality of effects does not look at their sites. -/
def same [Named P] (e f : Effect P) : Bool :=
  e.className == f.className && sameFields e.fields f.fields

/-- Marks the functions and faults that an effect holds. -/
def withMarks [Named P] (e : Effect P) : StateM Nat (Effect P) := do
  let fields ← e.fields.mapM fun (name, v) => do
    let v ← v.withMarks
    return (name, v)
  return { e with fields }

def renderField (field : String × Val P) : String :=
  field.1 ++ "=" ++ field.2.render

def render (e : Effect P) : String :=
  e.className ++ "(" ++ ", ".intercalate (e.fields.map renderField) ++ ")"

def withSite (e : Effect P) (site : Option Site) : Effect P :=
  { e with site := site }

def unhandled (e : Effect P) : Fault :=
  .unhandledEffect e.render (e.site.map Site.description) e.className

/-- What failure reports call an effect: its label, with its location when known. -/
def origin (e : Effect P) (label : String) : String :=
  match e.site with
  | none => label
  | some site => label ++ " (created at " ++ site.location ++ ")"

@[simp] theorem withSite_label (e : Effect P) (site : Option Site) :
    (e.withSite site).label = e.label := rfl

end Effect

end SelectiveEffects
