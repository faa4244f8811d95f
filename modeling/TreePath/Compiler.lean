import TreePath.Log
import TreePath.Metrics
import TreePath.Recency
import TreePath.Request
import TreePath.Settings.Basic

/-!
# Preparing paths

A compiler reads path texts and keeps the paths used last, as many as its settings allow. A text
among them is answered by the very path that was read for it. What a compiler does shows in its
metrics and in the log. This file holds what one request changes while the settings stay as they
are.
-/

namespace TreePath

namespace QuerySettings

/-- Whether paths are kept, shown as the setting itself if that rules it out. -/
def caching (q : QuerySettings) : Except QueryFault Json :=
  if q.enableCaching.truthy then
    match q.limit? with
    | some n => .ok (Number.lt (.int 0) n)
    | none => .error .limitNotNumber
  else .ok q.enableCaching

def exceeds (q : QuerySettings) (size : Nat) : Bool :=
  q.limit?.any fun n => n.lt (.int size)

/-- Counts only if the settings ask for it. -/
def count (q : QuerySettings) (g : Metrics → Metrics) (m : Metrics) : Metrics :=
  if q.enableMetrics.truthy then g m else m

end QuerySettings

namespace Compiler

/-- What a request may change. -/
structure State where
  cache : Recency String Prepared := {}
  metrics : Metrics := {}
  log : Log := {}
  /-- The number of the next path. -/
  serial : Nat := 0
  deriving Inhabited

def loggerName : String := Log.packageName ++ ".path.compiler"

def logger (correlation : Json) : Logger :=
  .make loggerName correlation "path_compiler"

def hit (q : QuerySettings) (g : Logger) (text : String) (p : Prepared) (s : State) : State :=
  { s with
    cache := s.cache.use text p
    metrics := q.count .countHit s.metrics
    log := s.log.write g .debug "Using cached compiled path" [("expression", text)] }

def miss (q : QuerySettings) (s : State) : State :=
  { s with metrics := q.count .countMiss s.metrics }

def reject (g : Logger) (e : Path.Malformed) (s : State) : State :=
  { s with
    log := s.log.write g .warning "Path expression rejected"
      [("expression", e.expression), ("error_offset", .int e.position),
       ("remainder", e.remainder)] }

def accept (q : QuerySettings) (g : Logger) (p : Path) (s : State) : Prepared × State :=
  (⟨p, s.serial⟩,
    { s with
      metrics := q.count .countCompilation s.metrics
      log := s.log.write g .debug "Compiled path expression"
        [("expression", p.expression), ("seed_mode", p.seed.label),
         ("step_count", .int p.steps.length)]
      serial := s.serial + 1 })

/-- Keeps a path and lets go of those used least recently. -/
def keep (q : QuerySettings) (p : Prepared) (s : State) : State :=
  { s with cache := (s.cache.use p.path.expression p).trim q.exceeds }

/-- Reads a text without looking at the paths that are kept. -/
def read (q : QuerySettings) (g : Logger) (text : String) (s : State) :
    Except QueryFault Prepared × State :=
  match Path.ofText text with
  | .error e => (.error (.malformed e), reject g e s)
  | .ok p =>
    let (p, s) := accept q g p s
    (.ok p, s)

/-- Answers a text by a path that is kept, or reads it and keeps the path. -/
def lookUp (q : QuerySettings) (g : Logger) (text : String) (s : State) :
    Except QueryFault Prepared × State :=
  match s.cache.find? text with
  | some p => (.ok p, hit q g text p s)
  | none =>
    match read q g text (miss q s) with
    | (.ok p, s) => (.ok p, keep q p s)
    | (.error e, s) => (.error e, s)

/-- Refuses what is no text, after it was looked for among the paths that are kept. -/
def refuse (q : QuerySettings) (caching : Bool) (request : Request) (s : State) :
    QueryFault × State :=
  if !caching then (.notText, s)
  else if request.isKey then (.notText, miss q s)
  else (.compoundKey, s)

/-- Answers a request for a path. Only texts are accepted. -/
def prepare (q : QuerySettings) (g : Logger) (request : Request) (s : State) :
    Except QueryFault Prepared × State :=
  match q.caching, request with
  | .error e, _ => (.error e, s)
  | .ok caching, .text text => if caching.truthy then lookUp q g text s else read q g text s
  | .ok caching, request =>
    let (e, s) := refuse q caching.truthy request s
    (.error e, s)

def clear (s : State) : State :=
  { s with cache := {} }

end Compiler

end TreePath
