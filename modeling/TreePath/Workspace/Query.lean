import TreePath.Workspace.Matcher

namespace TreePath.Workspace

def compile (w : Workspace) (c : Slot Compiler) (request : Request) :
    Except QueryFault Prepared × Workspace :=
  let k := w.compilers.get c
  let before : Compiler.State := {
    cache := k.cache, metrics := w.metrics.get k.metrics, log := w.log, serial := w.serial }
  let (answer, after) :=
    Compiler.prepare (w.querySettings.get k.settings) (Compiler.logger k.correlation) request before
  (answer, { w with
    compilers := w.compilers.set c { k with cache := after.cache }
    metrics := w.metrics.set k.metrics after.metrics
    log := after.log
    serial := after.serial })

def clearCache (w : Workspace) (c : Slot Compiler) : Workspace :=
  { w with compilers := w.compilers.modify c fun k => { k with cache := {} } }

/-- Asks a matcher for a path. Paths that are prepared already are taken as they are. -/
def prepare (w : Workspace) (m : Slot Matcher) (request : Request) :
    Except QueryFault Prepared × Workspace :=
  match request with
  | .path p => (.ok p, w)
  | request => w.compile (w.matchers.get m).compiler request

def matcherLogger (correlation : Json) : Logger :=
  .make (Log.packageName ++ ".path.matcher") correlation "path_matcher"

/-- Counts and logs a run that took so many milliseconds. -/
def noteRun (w : Workspace) (m : Slot Matcher) (p : Path) (x : ElementId) (sel : Selection)
    (time : Float) : Workspace :=
  let matcher := w.matchers.get m
  let count := (w.settingsOf matcher.settings).query.count
    (.countRun sel.yielded sel.members.length time)
  { w with
    metrics := w.metrics.modify matcher.metrics count
    log := w.log.write (matcherLogger matcher.correlation) .debug "Path matched"
      [("expression", p.expression), ("start_tag", w.forest.tag x),
       ("nodes_yielded", .int sel.yielded), ("result_count", .int sel.members.length),
       ("match_time_ms", .float time)] }

def run (w : Workspace) (m : Slot Matcher) (p : Path) (x : ElementId) :
    Except QueryFault (List ElementId) × Workspace :=
  let (started, w) := w.now
  match w.forest.select p x with
  | .error e => (.error (.unsupported e), w)
  | .ok sel =>
    let (ended, w) := w.now
    (.ok sel.members, w.noteRun m p x sel ((ended - started) * 1000))

def findAll (w : Workspace) (m : Slot Matcher) (x : ElementId) (request : Request) :
    Except QueryFault (List ElementId) × Workspace :=
  match w.prepare m request with
  | (.error e, w) => (.error e, w)
  | (.ok p, w) => w.run m p.path x

def firstOf (asked : Except QueryFault (List ElementId) × Workspace) :
    Except QueryFault (Option ElementId) × Workspace :=
  (asked.1.map List.head?, asked.2)

/-- The text of the element that is found, which may be null. The default only stands for a missing
element. -/
def textOf (default : Json) (asked : Except QueryFault (Option ElementId) × Workspace) :
    Except QueryFault Json × Workspace :=
  (asked.1.map fun found =>
    match found with
    | none => default
    | some y => (asked.2.forest.element y).text, asked.2)

def find (w : Workspace) (m : Slot Matcher) (x : ElementId) (request : Request) :
    Except QueryFault (Option ElementId) × Workspace :=
  firstOf (w.findAll m x request)

def findText (w : Workspace) (m : Slot Matcher) (x : ElementId) (request : Request)
    (default : Json) : Except QueryFault Json × Workspace :=
  textOf default (w.find m x request)

def findAllByDefault (w : Workspace) (x : ElementId) (request : Request) :
    Except QueryFault (List ElementId) × Workspace :=
  let (m, w) := w.ensureDefault
  w.findAll m x request

def findByDefault (w : Workspace) (x : ElementId) (request : Request) :
    Except QueryFault (Option ElementId) × Workspace :=
  let (m, w) := w.ensureDefault
  w.find m x request

def findTextByDefault (w : Workspace) (x : ElementId) (request : Request)
    (default : Json) : Except QueryFault Json × Workspace :=
  let (m, w) := w.ensureDefault
  w.findText m x request default

/-- What an element finds from itself. -/
def findAllFrom (w : Workspace) (x : ElementId) (request : Request) :
    Except QueryFault (List ElementId) × Workspace :=
  let (m, w) := w.ensureDefault
  w.findAll m x request

def findFrom (w : Workspace) (x : ElementId) (request : Request) :
    Except QueryFault (Option ElementId) × Workspace :=
  firstOf (w.findAllFrom x request)

def findTextFrom (w : Workspace) (x : ElementId) (request : Request) (default : Json) :
    Except QueryFault Json × Workspace :=
  textOf default (w.findFrom x request)

/-- Who is asked: the element where the search starts, the package, or a matcher. -/
inductive Route where
  | element
  | package
  | matcher (m : Slot Matcher)

def findAllBy (w : Workspace) : Route → ElementId → Request →
    Except QueryFault (List ElementId) × Workspace
  | .element => w.findAllFrom
  | .package => w.findAllByDefault
  | .matcher m => w.findAll m

def findBy (w : Workspace) : Route → ElementId → Request →
    Except QueryFault (Option ElementId) × Workspace
  | .element => w.findFrom
  | .package => w.findByDefault
  | .matcher m => w.find m

def findTextBy (w : Workspace) : Route → ElementId → Request → Json →
    Except QueryFault Json × Workspace
  | .element => w.findTextFrom
  | .package => w.findTextByDefault
  | .matcher m => w.findText m

/-- How full the cache of a compiler is, and how often it was of use. -/
def cacheReport (w : Workspace) (c : Slot Compiler) : Except QueryFault (List (String × Json)) := do
  let k := w.compilers.get c
  let q := w.querySettings.get k.settings
  let m := w.metrics.get k.metrics
  let caching ← q.caching
  let rate ← m.cacheHitRate.mapError .number
  return [("cache_size", .int k.cache.size), ("cache_limit", q.cacheSizeLimit),
    ("cache_enabled", caching)] ++ m.fields [.cacheHits, .cacheMisses] ++
    [("cache_hit_rate", .float rate)]

end TreePath.Workspace
