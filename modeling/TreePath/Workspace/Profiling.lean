import TreePath.Json.Printer
import TreePath.Workspace.Query

/-!
# Profiling

A profiler measures queries of its own matcher, phase by phase, and keeps the sessions that have
ended. A phase starts with a reading of the clock and then one of the memory, and ends likewise.
-/

namespace TreePath

open Profile

/-- A report whose sessions may still change. -/
structure LiveReport where
  sessions : List (Slot LiveSession)
  generated : Float
  deriving Inhabited

namespace Workspace

def profilerLogger : Logger :=
  .make (Log.packageName ++ ".tools.profiling") .null "query_profiler"

def noteProfiling (w : Workspace) (level : Log.Level) (message : String)
    (extra : List (String × Json)) : Workspace :=
  { w with log := w.log.write profilerLogger level message extra }

/-- A profiler tracks memory if it is asked to, by a value of any kind, and memory can be read. -/
def addProfiler (w : Workspace) (settings : Option (Slot SharedSettings)) (tracksMemory : Json) :
    Slot Profiler × Workspace :=
  let (matcher, w) := w.addMatcher settings .null none
  let (slot, profilers) := w.profilers.add {
    matcher, tracksMemory := if tracksMemory.truthy then w.memoryKnown else tracksMemory }
  (slot, { w with profilers })

def currentMemory (w : Workspace) (p : Slot Profiler) : Int × Workspace :=
  if (w.profilers.get p).tracksMemory.truthy then
    let (bytes, memory) := w.memory.read
    (bytes, { w with memory })
  else (0, w)

def sessionOf (w : Workspace) (s : Slot LiveSession) : Session Phase :=
  (w.sessions.get s).mapPhases w.phases.get

def modifySession (w : Workspace) (s : Slot LiveSession) (g : LiveSession → LiveSession) :
    Workspace :=
  { w with sessions := w.sessions.modify s g }

def addSession (w : Workspace) (s : Session Phase) : Slot LiveSession × Workspace :=
  let (slots, phases) := w.phases.addAll s.phases
  let (slot, sessions) := w.sessions.add { s with phases := slots }
  (slot, { w with sessions, phases })

def startSession (w : Workspace) (p : Slot Profiler) (id expression treeSize : Json) :
    Slot LiveSession × Workspace :=
  let (started, w) := w.now
  let (slot, w) := w.addSession { id, started, expression, treeSize }
  (slot, w.noteProfiling .debug "Started profiling session"
    [("session_id", id), ("expression", expression),
     ("memory_tracking", (w.profilers.get p).tracksMemory)])

def endSession (w : Workspace) (p : Slot Profiler) (s : Slot LiveSession) : Workspace :=
  let (ended, w) := w.now
  let w := w.modifySession s fun session => { session with ended }
  let w := { w with
    profilers := w.profilers.modify p fun q => { q with sessions := q.sessions ++ [s] } }
  let session := w.sessions.get s
  w.noteProfiling .info "Ended profiling session"
    [("session_id", session.id), ("duration_ms", .float session.duration),
     ("result_count", session.resultCount)]

def clearSessions (w : Workspace) (p : Slot Profiler) : Workspace :=
  let count := (w.profilers.get p).sessions.length
  let w := { w with profilers := w.profilers.modify p fun q => { q with sessions := [] } }
  w.noteProfiling .info "Cleared profiling sessions" [("cleared_count", .int count)]

/-- Starts a phase, which belongs to no session yet. -/
def startPhase (w : Workspace) (p : Slot Profiler) (name : Json) : Slot Phase × Workspace :=
  let (started, w) := w.now
  let (bytes, w) := w.currentMemory p
  let (slot, phases) := w.phases.add { name, started, memoryBefore := .int bytes }
  (slot, { w with phases })

def stopPhase (w : Workspace) (p : Slot Profiler) (x : Slot Phase) : Workspace :=
  let (ended, w) := w.now
  let (bytes, w) := w.currentMemory p
  { w with
    phases := w.phases.modify x fun phase => { phase with ended, memoryAfter := .int bytes } }

def addPhase (w : Workspace) (s : Slot LiveSession) (x : Slot Phase) : Workspace :=
  w.modifySession s fun session => { session with phases := session.phases ++ [x] }

def endPhase (w : Workspace) (p : Slot Profiler) (s : Slot LiveSession) (x : Slot Phase) :
    Workspace :=
  (w.stopPhase p x).addPhase s x

def setOperations (w : Workspace) (x : Slot Phase) (operations : Json) : Workspace :=
  { w with phases := w.phases.modify x fun phase => { phase with operations } }

/-- Reads a path as one phase of a session. The matcher and what its compiler keeps are left alone,
so the reading is always done. -/
def profileCompilation (w : Workspace) (p : Slot Profiler) (s : Slot LiveSession)
    (request : Json) : Except QueryFault Path × Workspace :=
  let (phase, w) := w.startPhase p "compile"
  match Path.ofJson request with
  | .ok path => (.ok path, (w.setOperations phase (.int path.steps.length)).endPhase p s phase)
  | .error e => (.error e, w.endPhase p s phase)

def profileMatch (w : Workspace) (p : Slot Profiler) (s : Slot LiveSession) (x : ElementId)
    (path : Path) : Except QueryFault (List ElementId) × Workspace :=
  let (phase, w) := w.startPhase p "match"
  let matcher := (w.profilers.get p).matcher
  let metrics := (w.matchers.get matcher).metrics
  let before := (w.metrics.get metrics).yielded
  match w.run matcher path x with
  | (.error e, w) => (.error e, w.endPhase p s phase)
  | (.ok found, w) =>
    let w := w.setOperations phase (.int ((w.metrics.get metrics).yielded - before))
    (.ok found, w.endPhase p s phase)

/-- Measures a query. A session that fails is not kept. -/
def profileQuery (w : Workspace) (p : Slot Profiler) (id : Json) (x : ElementId)
    (request : Json) : Except QueryFault (Slot LiveSession) × Workspace :=
  let treeSize := (w.forest.preorder (w.forest.root x)).length
  let (s, w) := w.startSession p id request (.int treeSize)
  match w.profileCompilation p s request with
  | (.error e, w) => (.error e, w)
  | (.ok path, w) =>
    match w.profileMatch p s x path with
    | (.error e, w) => (.error e, w)
    | (.ok found, w) =>
      let w := w.modifySession s fun session => { session with resultCount := .int found.length }
      (.ok s, w.endSession p s)

def reportOf (w : Workspace) (r : LiveReport) : Report where
  sessions := r.sessions.map w.sessionOf
  generated := r.generated

def generateReport (w : Workspace) (p : Slot Profiler) : LiveReport × Workspace :=
  let (generated, w) := w.now
  ({ sessions := (w.profilers.get p).sessions, generated }, w)

/-- The text of a report, which is saved under the given name. -/
def saveReport (w : Workspace) (r : LiveReport) (file : String) :
    Except Number.Fault String × Workspace :=
  let report := w.reportOf r
  match report.toJson >>= Json.dump (.spaces 2) with
  | .error e => (.error e, w)
  | .ok text =>
    (.ok text,
      w.noteProfiling .info "Saved profiling report"
        [("output_path", file), ("session_count", .int report.sessions.length)])

end Workspace

end TreePath
