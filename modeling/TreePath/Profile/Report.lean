import TreePath.Json.Literal
import TreePath.Profile.Session

namespace TreePath.Profile

structure Report where
  sessions : List (Session Phase)
  generated : Float
  deriving Inhabited

/-- The sum, from left to right, divided by the count. -/
def average (xs : List Float) : Float :=
  if xs.isEmpty then 0 else xs.foldl (· + ·) 0 / Float.ofNat xs.length

/-- What might make queries faster. -/
inductive Advice where
  | noSessions
  | slowCompilation
  | slowMatching
  /-- Steps yield far more elements than the tree holds. -/
  | fanOut (expression : Json)
  /-- Most of the time goes into reading the path. -/
  | compilationDominates (expression : Json)
  | fine
  deriving DecidableEq

def Advice.message : Advice → String
  | noSessions => "No profiling data available for analysis"
  | slowCompilation =>
    "Compilation is noticeable. Enable the compiled path cache or precompile frequently used " ++
      "expressions with compile_path()"
  | slowMatching =>
    "Matching is slow. Start queries from a closer element instead of the document root"
  | fanOut expression =>
    "Query " ++ expression.literal ++ " produces far more intermediate nodes than the tree " ++
      "holds because descendant steps rescan nested subtrees. Avoid chaining several '//' steps"
  | compilationDominates expression =>
    "Compilation dominates query " ++ expression.literal ++
      ". Reuse the CompiledPath across calls"
  | fine => "Query performance appears optimal based on current analysis"

/-- A compilation that takes longer, in milliseconds, is slow. -/
def slowCompilationTime : Float := 1.0

/-- A match that takes longer, in milliseconds, is slow. -/
def slowMatchTime : Float := 50.0

/-- A compilation that takes a greater share of a query dominates it. -/
def dominantShare : Float := 0.8

/-- Three times the size of a tree. Size and limit are rounded as binary64 numbers are: a size out
of range is refused, and nothing exceeds a limit out of range. -/
def fanOutLimit : Number → Except Number.Fault Number
  | .int n =>
    let size := Number.nearest n.toNat
    let limit := Number.nearest (3 * size)
    if !Number.inRange size then .error .outOfRange
    else .ok (if Number.inRange limit then .int limit else .float (1 / 0))
  | .float x => .ok (.float (x * 3))

/-- Whether a session yields more elements than three times the size of its tree. -/
def Session.fansOut (s : Session Phase) : Except Number.Fault Bool := do
  let some p := s.phase? "match" | return false
  let size ← s.treeSize.toNumber
  if Number.lt (.int 0) size then
    return (← fanOutLimit size).lt (← p.operations.toNumber)
  else return false

def Session.compilationDominates (s : Session Phase) : Bool :=
  match s.phase? "compile" with
  | none => false
  | some p =>
    0 < s.duration && s.duration * dominantShare < p.duration && slowCompilationTime < p.duration

namespace Report

def averageDuration (r : Report) : Float :=
  average (r.sessions.map (·.duration))

def averagePhase (r : Report) (name : Json) : Float :=
  average <| r.sessions.flatMap fun s =>
    (s.phases.filter (·.name.same name)).map (·.duration)

/-- Each session that fans out is named, and the first one that compilation dominates. -/
def findings (r : Report) : Except Number.Fault (List Advice) := do
  let fannedOut ← r.sessions.filterM Session.fansOut
  let dominated := r.sessions.find? Session.compilationDominates
  return (if slowCompilationTime < r.averagePhase "compile" then [.slowCompilation] else []) ++
    (if slowMatchTime < r.averagePhase "match" then [.slowMatching] else []) ++
    fannedOut.map (.fanOut ·.expression) ++
    (dominated.map (.compilationDominates ·.expression)).toList

def advice (r : Report) : Except Number.Fault (List Advice) := do
  if r.sessions.isEmpty then return [.noSessions]
  let findings ← r.findings
  return if findings.isEmpty then [.fine] else findings

def same (a b : Report) : Bool :=
  a.sessions.length == b.sessions.length &&
    (a.sessions.zip b.sessions).all (fun (s, t) => s.same t) &&
    Number.same (.float a.generated) (.float b.generated)

end Report

def Phase.toJson (p : Phase) : Except Number.Fault Json := do
  return .obj [("phase_name", p.name), ("duration_ms", .float p.duration),
    ("memory_delta", ← p.memoryDelta), ("operations_count", p.operations)]

def Session.fields (s : Session Phase) : List (String × Json) :=
  [("session_id", s.id), ("expression", s.expression), ("tree_size", s.treeSize),
   ("result_count", s.resultCount), ("total_duration_ms", .float s.duration),
   ("metadata", s.metadata)]

def Session.toJson (s : Session Phase) : Except Number.Fault Json := do
  return .obj (s.fields ++ [("phases", .arr (← s.phases.mapM Phase.toJson))])

def Report.toJson (r : Report) : Except Number.Fault Json := do
  return .obj [("generation_time", .float r.generated),
    ("summary", .obj [("session_count", .int r.sessions.length),
      ("average_duration_ms", .float r.averageDuration),
      ("average_compile_ms", .float (r.averagePhase "compile")),
      ("average_match_ms", .float (r.averagePhase "match"))]),
    ("sessions", .arr (← r.sessions.mapM Session.toJson))]

end TreePath.Profile
