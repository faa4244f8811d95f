import TreePath.Settings.Basic

/-!
# Overriding settings

Settings are revised by keywords with values. `query__f` and `global___f` set the field `f` of a
section, a section's own name replaces several of its fields, and `name` and `description` stand for
themselves. Sections that no keyword mentions are kept as they are. The keyword `self` stands for
the settings that are revised, which no value can replace, so it is refused before all others.
-/

namespace TreePath.Settings

def reservedKeyword : String := "self"

inductive Keyword where
  | queryField (name : String)
  | logField (name : String)
  | query
  | log
  | top (name : String)
  deriving DecidableEq, Repr

/-- The text after a head, if the text begins with it. -/
def after? (head text : String) : Option String :=
  if head.toList.isPrefixOf text.toList then
    some (String.ofList (text.toList.drop head.length))
  else none

def Keyword.ofText (text : String) : Keyword :=
  match after? "query__" text, after? "global___" text with
  | some field, _ => .queryField field
  | _, some field => .logField field
  | none, none =>
    if text = "query" then .query
    else if text = "global_" then .log
    else .top text

/-- What keywords ask for: the fields of each section that is mentioned, and everything else. -/
structure Changes where
  query : Option Json := none
  log : Option Json := none
  top : List (String × Json) := []
  deriving Inhabited

def addField (asked : Option Json) (name : String) (v : Json) : Except Fault Json :=
  match asked with
  | none => .ok (.obj [(name, v)])
  | some (.obj fields) => .ok (.obj (setEntry name v fields))
  | some _ => .error .revisionNotObject

/-- Takes one keyword into account. A section named as a whole replaces what was asked of it
before. -/
def Changes.add (c : Changes) (keyword : String) (v : Json) : Except Fault Changes :=
  match Keyword.ofText keyword with
  | .queryField name => do return { c with query := ← addField c.query name v }
  | .logField name => do return { c with log := ← addField c.log name v }
  | .query => .ok { c with query := v }
  | .log => .ok { c with log := v }
  | .top name => .ok { c with top := setEntry name v c.top }

/-- All keywords together. Of several equal ones the last gives the value. -/
def Changes.ofKeywords (keywords : List (String × Json)) : Except Fault Changes :=
  (mergeEntries keywords).foldlM (fun c (keyword, v) => c.add keyword v) {}

/-- Settings with the sections that differ from older ones. A section that is missing here is the
older one. -/
structure Revision where
  query : Option QuerySettings := none
  log : Option LogSettings := none
  name : Json
  description : Json
  deriving Inhabited

def Revision.apply (r : Revision) (s : Settings) : Settings where
  query := r.query.getD s.query
  log := r.log.getD s.log
  name := r.name
  description := r.description

/-- Revises a section by what is asked of it, if anything is. -/
def revise {σ : Type} (set? : σ → String → Json → Option σ) (check : σ → Except Fault Unit)
    (s : σ) : Option Json → Except Fault (Option σ)
  | none => .ok none
  | some (.obj fields) => return some (← updateSection set? check s fields)
  | some _ => .error .revisionNotObject

def reviseTop (r : Revision) : List (String × Json) → Except Fault Revision
  | [] => .ok r
  | ("name", v) :: top => reviseTop { r with name := v } top
  | ("description", v) :: top => reviseTop { r with description := v } top
  | (name, _) :: _ => .error (.unknownField name)

/-- Revises settings by keywords: the sections first, then the other fields, and then the result is
checked as a whole. -/
def override (s : Settings) (keywords : List (String × Json)) : Except Fault Revision := do
  if keywords.any (·.1 = reservedKeyword) then throw .reservedKeyword
  let c ← Changes.ofKeywords keywords
  let query ← revise QuerySettings.set? (·.check .invalidSettings) s.query c.query
  let log ← revise LogSettings.set? (·.check .invalidSettings) s.log c.log
  let r ← reviseTop { query, log, name := s.name, description := s.description } c.top
  (r.apply s).check
  return r

end TreePath.Settings
