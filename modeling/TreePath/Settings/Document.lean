import TreePath.Settings.Basic

/-!
# Settings as documents

Settings are written as JSON and read back. A reader skips unknown fields, and missing ones have
their usual values.
-/

namespace TreePath.Settings

def topFields : List String :=
  ["query", "global_", "name", "description"]

/-- The fields of a section that a section of its kind has. -/
def knownFields (known : List (String × Json)) : Json → Except Fault (List (String × Json))
  | .obj fields => .ok (fields.filter fun (name, _) => known.any (·.1 = name))
  | _ => .error .sectionNotObject

/-- Reads a section and checks it. A missing section has the usual values. -/
def readSection {σ : Type} (toFields : σ → List (String × Json))
    (set? : σ → String → Json → Option σ) (check : σ → Except Fault Unit) (usual : σ) :
    Option Json → Except Fault σ
  | none => .ok usual
  | some v => do updateSection set? check usual (← knownFields (toFields usual) v)

def readQuery : Option Json → Except Fault QuerySettings :=
  readSection QuerySettings.toFields QuerySettings.set? (·.check .invalidSettings) {}

def readLog : Option Json → Except Fault LogSettings :=
  readSection LogSettings.toFields LogSettings.set? (·.check .invalidSettings) {}

/-- Whether a value that is no object still mentions a field, so that it must not be passed over:
a list by an item, a text by any part of it. -/
def mentions (v : Json) (name : String) : Bool :=
  match v with
  | .arr items => items.any fun item => item.str? = some name
  | .str s => s.contains name
  | _ => false

/-- Reads settings. A list or a text that mentions none of the fields stands for the usual
settings. -/
def ofJson (v : Json) : Except Fault Settings :=
  match v with
  | .obj fields => do
    let s : Settings := {
      query := ← readQuery (fields.lookup "query")
      log := ← readLog (fields.lookup "global_")
      name := (fields.lookup "name").getD .null
      description := (fields.lookup "description").getD .null }
    s.check
    return s
  | .arr _ | .str _ => if topFields.any (mentions v) then .error .documentNotObject else .ok {}
  | _ => .error .documentNotObject

def toText (s : Settings) (indent : Json) : Except Fault String := do
  let layout ← (Json.Layout.ofIndent indent).mapError .layout
  (s.toJson.dump layout).mapError .unwritable

/-- Reads settings from a text, however deeply its values are nested. -/
def ofText (text : String) : Except Fault Settings := do
  ofJson (← (Json.read ⟨Json.maxDigits, text.length⟩ text).mapError .unreadable)

end TreePath.Settings
