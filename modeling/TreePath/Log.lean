import TreePath.Json.Equality
import TreePath.Log.Vocabulary

/-!
# The log

Every logger writes to one log. A logger has a dotted name, and the loggers of this library, whose
names begin with `Log.packageName`, share a threshold that can be set; for other loggers, and as
long as none is set, the threshold is that of warnings. What lies below the threshold is not kept.
-/

namespace TreePath

inductive Log.Level where
  | debug
  | info
  | warning
  | error
  deriving DecidableEq, Repr, Inhabited

namespace Log.Level

def label : Log.Level → String
  | debug => "DEBUG"
  | info => "INFO"
  | warning => "WARNING"
  | error => "ERROR"

/-- The higher, the more important. -/
def weight : Log.Level → Nat
  | debug => 10
  | info => 20
  | warning => 30
  | error => 40

end Log.Level

/-- Writes to the log under a name. -/
structure Logger where
  name : String
  component : Json
  correlation : Json := .null
  deriving DecidableEq, Inhabited

inductive Logger.Fault where
  | nameNotText
  /-- There is neither a component nor a name to take it from. -/
  | noComponent
  deriving DecidableEq, Repr

namespace Logger

/-- A logger without a component of its own takes the last part of its name. -/
def make (name : String) (correlation component : Json) : Logger where
  name := name
  component := if component.truthy then component else (name.splitOn ".").getLastD ""
  correlation := correlation

/-- A logger by a name of any kind. What counts as false stands for no name. -/
def ofValues (name correlation component : Json) : Except Fault Logger :=
  match name with
  | .str name => .ok (make name correlation component)
  | name =>
    if name.truthy then .error .nameNotText
    else if component.truthy then .ok { name := "", component, correlation }
    else .error .noComponent

end Logger

structure Log.Record where
  logger : String
  level : Log.Level
  message : String
  component : Json
  correlation : Json
  /-- Whether the state of a failure was to be kept with the record. -/
  withFailure : Bool
  extra : List (String × Json)
  deriving Inhabited

/-- What is shown of a record apart from its extra fields. -/
def Log.Record.fields (r : Log.Record) : List (String × Json) :=
  [("logger", r.logger), ("level", r.level.label), ("message", r.message),
   ("component", r.component), ("correlation_id", r.correlation), ("exc_info", r.withFailure)]

/-- The threshold set for this library, where zero means none, and the records kept. -/
structure Log where
  threshold : Nat := 0
  records : Array Log.Record := #[]
  deriving Inhabited

namespace Log

def packageName : String := "element_query"

/-- What a name sets as the threshold: a level, or a switch that is on. -/
inductive Threshold where
  | level (weight : Nat)
  | switch
  deriving DecidableEq, Repr

/-- A switch that is on counts as one. -/
def Threshold.weight : Threshold → Nat
  | level weight => weight
  | switch => 1

inductive ThresholdFault where
  | unknownName
  /-- The name stands for a text, and no level has that text for a name. -/
  | unknownLevel
  /-- The name stands for something else, or the value is no name at all. -/
  | notALevel
  deriving DecidableEq, Repr

def Threshold.ofJson : Json → Except ThresholdFault Threshold
  | .str name =>
    match Vocabulary.meaning? name with
    | some (.level weight) => .ok (.level weight)
    | some .switch => .ok .switch
    | some .text => .error .unknownLevel
    | some .part => .error .notALevel
    | none => .error .unknownName
  | _ => .error .notALevel

def isOwn (logger : Logger) : Bool :=
  logger.name = packageName || (packageName ++ ".").toList.isPrefixOf logger.name.toList

/-- The least weight that is kept for a logger. -/
def thresholdFor (l : Log) (logger : Logger) : Nat :=
  if isOwn logger && l.threshold ≠ 0 then l.threshold else Level.weight .warning

def isEnabledFor (l : Log) (logger : Logger) (weight : Int) : Bool :=
  l.thresholdFor logger ≤ weight

/-- Whether messages of a weight are kept, where the weight may be of any kind. -/
def isEnabledAt (l : Log) (logger : Logger) (weight : Json) : Except Number.Fault Bool := do
  return Number.le (.int (l.thresholdFor logger)) (← weight.toNumber)

/-- The record of a message. Extra fields may replace the component and the correlation. -/
def record (logger : Logger) (level : Level) (message : String) (extra : List (String × Json))
    (withFailure : Bool) : Record where
  logger := if logger.name.isEmpty then "root" else logger.name
  level := level
  message := message
  component := (extra.lookup "component").getD logger.component
  correlation := (extra.lookup "correlation_id").getD logger.correlation
  withFailure := withFailure
  extra := extra.filter fun (name, _) => name ≠ "component" && name ≠ "correlation_id"

def write (l : Log) (logger : Logger) (level : Level) (message : String)
    (extra : List (String × Json)) : Log :=
  if l.isEnabledFor logger level.weight then
    { l with records := l.records.push (record logger level message extra false) }
  else l

def reservedNames : List String :=
  ["message", "asctime", "name", "msg", "args", "levelname", "levelno", "pathname", "filename",
   "module", "exc_info", "exc_text", "stack_info", "lineno", "funcName", "created", "msecs",
   "relativeCreated", "thread", "threadName", "processName", "process"]

/-- Keeps a message from outside, whose extra fields may have any name. Nothing is the answer if a
message that is important enough has a reserved one. -/
def submit? (l : Log) (logger : Logger) (level : Level) (message : String)
    (extra : List (String × Json)) (withFailure : Bool) : Option Log :=
  if !l.isEnabledFor logger level.weight then some l
  else if extra.any fun (name, _) => reservedNames.contains name then none
  else some { l with records := l.records.push (record logger level message extra withFailure) }

def take (l : Log) : List Record × Log :=
  (l.records.toList, { l with records := #[] })

end Log

end TreePath
