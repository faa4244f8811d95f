import TreePath.Json.Equality
import TreePath.Json.Printer
import TreePath.Json.Reader

/-!
# Settings

Settings consist of a section for queries, a section for everything else, a name and a description.
A section may hold values of any kind in its fields. Two rules are checked: the limit of the cache
is a number and not negative, and the logging level is one of `LogSettings.levels`.
-/

namespace TreePath

/-- A field with a value that it may not have. -/
inductive Settings.Invalid where
  | negativeCacheLimit
  | unknownLoggingLevel
  deriving DecidableEq, Repr

inductive Settings.Fault where
  /-- No section and no settings have a field of this name. -/
  | unknownField (name : String)
  /-- A keyword stands for the settings themselves. -/
  | reservedKeyword
  | limitNotNumber
  /-- A section on its own is invalid. -/
  | invalidSection (reason : Settings.Invalid)
  /-- A section is invalid within settings. -/
  | invalidSettings (reason : Settings.Invalid)
  /-- Something other than an object was read as a section. -/
  | sectionNotObject
  /-- Something other than an object was to replace fields of a section. -/
  | revisionNotObject
  /-- Something other than an object was read as settings. -/
  | documentNotObject
  | unreadable (reason : Json.ReadFault)
  | layout (reason : Json.Layout.Fault)
  | unwritable (reason : Number.Fault)
  deriving DecidableEq, Repr

structure QuerySettings where
  enableCaching : Json := true
  cacheSizeLimit : Json := .int 256
  enableMetrics : Json := true
  deriving Inhabited

structure LogSettings where
  loggingLevel : Json := "WARNING"
  enableCorrelationTracking : Json := true
  deriving Inhabited

namespace QuerySettings

def toFields (q : QuerySettings) : List (String × Json) :=
  [("enable_caching", q.enableCaching), ("cache_size_limit", q.cacheSizeLimit),
   ("enable_metrics", q.enableMetrics)]

def set? (q : QuerySettings) (name : String) (v : Json) : Option QuerySettings :=
  match name with
  | "enable_caching" => some { q with enableCaching := v }
  | "cache_size_limit" => some { q with cacheSizeLimit := v }
  | "enable_metrics" => some { q with enableMetrics := v }
  | _ => none

def same (q r : QuerySettings) : Bool :=
  (Json.obj q.toFields).same (.obj r.toFields)

def limit? (q : QuerySettings) : Option Number :=
  q.cacheSizeLimit.number?

def check (q : QuerySettings) (invalid : Settings.Invalid → Settings.Fault) :
    Except Settings.Fault Unit :=
  match q.limit? with
  | none => .error .limitNotNumber
  | some n => if n.lt (.int 0) then .error (invalid .negativeCacheLimit) else .ok ()

end QuerySettings

namespace LogSettings

def levels : List String :=
  ["DEBUG", "INFO", "WARNING", "ERROR", "CRITICAL"]

def toFields (l : LogSettings) : List (String × Json) :=
  [("logging_level", l.loggingLevel), ("enable_correlation_tracking", l.enableCorrelationTracking)]

def set? (l : LogSettings) (name : String) (v : Json) : Option LogSettings :=
  match name with
  | "logging_level" => some { l with loggingLevel := v }
  | "enable_correlation_tracking" => some { l with enableCorrelationTracking := v }
  | _ => none

def same (l r : LogSettings) : Bool :=
  (Json.obj l.toFields).same (.obj r.toFields)

def check (l : LogSettings) (invalid : Settings.Invalid → Settings.Fault) :
    Except Settings.Fault Unit :=
  if l.loggingLevel.str?.any levels.contains then .ok () else .error (invalid .unknownLoggingLevel)

end LogSettings

namespace Settings.Invalid

/-- The field in question, within its section. -/
def field : Settings.Invalid → String
  | negativeCacheLimit => "cache_size_limit"
  | unknownLoggingLevel => "logging_level"

/-- The section of the field, within settings. -/
def sectionName : Settings.Invalid → String
  | negativeCacheLimit => "query"
  | unknownLoggingLevel => "global_"

def message : Settings.Invalid → String
  | negativeCacheLimit => "cache_size_limit must be >= 0"
  | unknownLoggingLevel =>
    "logging_level must be one of [" ++
      ", ".intercalate (LogSettings.levels.map fun l => "\x27" ++ l ++ "\x27") ++ "]"

def suggestions : Settings.Invalid → List String
  | negativeCacheLimit => ["Use 0 to disable the compiled path cache"]
  | unknownLoggingLevel => LogSettings.levels

end Settings.Invalid

/-- Sets a field of a section, unchecked. A field that the section does not have is of no effect. -/
def Settings.assign {σ : Type} (set? : σ → String → Json → Option σ) (s : σ) (name : String)
    (v : Json) : σ :=
  (set? s name v).getD s

/-- Sets fields one after the other, if all of them are known. -/
def Settings.setAll {σ : Type} (set? : σ → String → Json → Option σ) (s : σ) :
    List (String × Json) → Except Settings.Fault σ
  | [] => .ok s
  | (name, v) :: fields =>
    match set? s name v with
    | none => .error (.unknownField name)
    | some s => Settings.setAll set? s fields

/-- Sets fields of a section and checks the result. -/
def Settings.updateSection {σ : Type} (set? : σ → String → Json → Option σ)
    (check : σ → Except Settings.Fault Unit) (s : σ) (fields : List (String × Json)) :
    Except Settings.Fault σ := do
  let t ← Settings.setAll set? s fields
  check t
  return t

def QuerySettings.update (q : QuerySettings) (fields : List (String × Json))
    (invalid : Settings.Invalid → Settings.Fault) : Except Settings.Fault QuerySettings :=
  Settings.updateSection set? (·.check invalid) q fields

def LogSettings.update (l : LogSettings) (fields : List (String × Json))
    (invalid : Settings.Invalid → Settings.Fault) : Except Settings.Fault LogSettings :=
  Settings.updateSection set? (·.check invalid) l fields

structure Settings where
  query : QuerySettings := {}
  log : LogSettings := {}
  name : Json := .null
  description : Json := .null
  deriving Inhabited

namespace Settings

/-- Both sections are valid. Of two invalid sections that for queries is reported. -/
def check (s : Settings) : Except Fault Unit := do
  s.query.check .invalidSettings
  s.log.check .invalidSettings

def toJson (s : Settings) : Json :=
  .obj [("query", .obj s.query.toFields), ("global_", .obj s.log.toFields), ("name", s.name),
    ("description", s.description)]

def same (s t : Settings) : Bool :=
  s.toJson.same t.toJson

/-- For many repeated queries. -/
def performanceOptimized : Settings where
  query := { enableCaching := true, cacheSizeLimit := .int 4096, enableMetrics := false }
  log := { loggingLevel := "ERROR" }
  name := "performance_optimized"
  description := "Large compiled-path cache, metrics and chatty logging off"

/-- For a close look at every query. -/
def debugging : Settings where
  query := { enableCaching := false, cacheSizeLimit := .int 0, enableMetrics := true }
  log := { loggingLevel := "DEBUG" }
  name := "debugging"
  description := "No caching, full metrics and debug logging"

end Settings

end TreePath
