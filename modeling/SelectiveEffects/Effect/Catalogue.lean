import SelectiveEffects.Effect.Basic

/-! Named effect classes, with their ancestors and the rule that labels each. -/

namespace SelectiveEffects.Effect

variable {P : Type}

def rootLineage : List String := ["EffectBase", "object"]

def labelText (v : Val P) : String :=
  match v with
  | .text s => s
  | v => (v.fault?.map Fault.message).getD v.render

def plain : Effect P :=
  { className := "EffectBase", lineage := rootLineage, fields := [], label := .ok "EffectBase" }

/-- A generic labelled effect. -/
def token (name : String) (payload : Val P := .null) : Effect P :=
  { className := "Token"
    lineage := "Token" :: rootLineage
    fields := [("name", .text name), ("payload", payload)]
    label := .ok name }

def tokenVariant (name : String) (payload : Val P) : Effect P :=
  { token name payload with
    className := "TokenX"
    lineage := "TokenX" :: "Token" :: rootLineage }

def ping : Effect P :=
  { className := "Ping", lineage := "Ping" :: rootLineage, fields := [], label := .ok "Ping" }

def keyed (className : String) (ancestors : List String) (label : String) (key : Val P) :
    Effect P :=
  { className := className
    lineage := className :: ancestors ++ rootLineage
    fields := [("key", key)]
    label := .ok label }

def unreadable : Effect P :=
  { className := "BadLabel"
    lineage := "BadLabel" :: rootLineage
    fields := []
    label := .error (.raised .runtime "no label") }

def fetchLabel (key : Val P) : String :=
  "fetch:" ++ labelText key

/-- The effect of a named class. Tokens take a name and a payload, the keyed classes a key. -/
def ofClass? (className name : String) (payload key : Val P) : Option (Effect P) :=
  match className with
  | "EffectBase" => some plain
  | "Token" => some (token name payload)
  | "TokenX" => some (tokenVariant name payload)
  | "Ping" => some ping
  | "Fetch" => some (keyed "Fetch" [] (fetchLabel key) key)
  | "FetchAll" => some (keyed "FetchAll" ["Fetch"] (fetchLabel key) key)
  | "Base" => some (keyed "Base" [] "Base" key)
  | "LeftArm" => some (keyed "LeftArm" ["Base"] "LeftArm" key)
  | "RightArm" => some (keyed "RightArm" ["Base"] "RightArm" key)
  | "Diamond" => some (keyed "Diamond" ["LeftArm", "RightArm", "Base"] "Diamond" key)
  | "BadLabel" => some unreadable
  | _ => none

end SelectiveEffects.Effect
