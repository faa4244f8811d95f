/-!
# The vocabulary of the log

The log is spoken to by names. Only some of them name a level: others stand for a switch, a text or
a part of the log such as a way of writing to it, and none of these can be mistaken for an unknown
name.
-/

namespace TreePath.Log.Vocabulary

/-- What a name of the vocabulary stands for. -/
inductive Meaning where
  /-- A level, which is the higher, the more important. -/
  | level (weight : Nat)
  | switch
  | text
  /-- Something to write by, or another part of the log. -/
  | part
  deriving DecidableEq, Repr

def levels : List (String × Nat) :=
  [("NOTSET", 0), ("DEBUG", 10), ("INFO", 20), ("WARNING", 30), ("WARN", 30), ("ERROR", 40),
   ("CRITICAL", 50), ("FATAL", 50)]

def switches : List String :=
  ["logMultiprocessing", "logProcesses", "logThreads", "raiseExceptions"]

def texts : List String :=
  ["BASIC_FORMAT", "__author__", "__cached__", "__date__", "__doc__", "__file__", "__name__",
   "__package__", "__status__", "__version__", "_srcfile"]

def parts : List String :=
  ["BufferingFormatter", "FileHandler", "Filter", "Filterer", "Formatter", "GenericAlias",
   "Handler", "LogRecord", "Logger", "LoggerAdapter", "Manager", "NullHandler", "PercentStyle",
   "PlaceHolder", "RootLogger", "StrFormatStyle", "StreamHandler", "StringTemplateStyle",
   "Template", "_STYLES", "_StderrHandler", "__all__", "__annotations__", "__builtins__",
   "__class__", "__delattr__", "__dict__", "__dir__", "__eq__", "__format__", "__ge__",
   "__getattribute__", "__getstate__", "__gt__", "__hash__", "__init__", "__init_subclass__",
   "__le__", "__loader__", "__lt__", "__ne__", "__new__", "__path__", "__reduce__",
   "__reduce_ex__", "__repr__", "__setattr__", "__sizeof__", "__spec__", "__str__",
   "__subclasshook__", "_acquireLock", "_addHandlerRef", "_after_at_fork_child_reinit_locks",
   "_at_fork_reinit_lock_weakset", "_checkLevel", "_defaultFormatter", "_defaultLastResort",
   "_handlerList", "_handlers", "_is_internal_frame", "_levelToName", "_lock", "_logRecordFactory",
   "_loggerClass", "_nameToLevel", "_register_at_fork_reinit_lock", "_releaseLock",
   "_removeHandlerRef", "_showwarning", "_startTime", "_str_formatter", "_warnings_showwarning",
   "addLevelName", "atexit", "basicConfig", "captureWarnings", "collections", "critical",
   "currentframe", "debug", "disable", "error", "exception", "fatal", "getLevelName",
   "getLevelNamesMapping", "getLogRecordFactory", "getLogger", "getLoggerClass", "info", "io",
   "lastResort", "log", "makeLogRecord", "os", "re", "root", "setLogRecordFactory",
   "setLoggerClass", "shutdown", "sys", "threading", "time", "traceback", "warn", "warning",
   "warnings", "weakref"]

def meaning? (name : String) : Option Meaning :=
  match levels.lookup name with
  | some weight => some (.level weight)
  | none =>
    if switches.contains name then some .switch
    else if texts.contains name then some .text
    else if parts.contains name then some .part
    else none

end TreePath.Log.Vocabulary
