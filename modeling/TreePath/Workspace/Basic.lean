import TreePath.Compiler
import TreePath.Forest.Clone
import TreePath.Forest.Edit
import TreePath.Profile.Report
import TreePath.Readings
import TreePath.Registry

/-!
# Workspaces

A workspace holds everything that lives: the forest, and the settings, metrics, compilers, matchers
and profilers with what they share. Two settings may share a section, a matcher shares its metrics
with its compiler, and a change to what is shared shows everywhere.
-/

namespace TreePath

/-- Settings whose sections may be shared with other settings. -/
structure SharedSettings where
  query : Slot QuerySettings
  log : Slot LogSettings
  name : Json := .null
  description : Json := .null
  deriving Inhabited

structure Compiler where
  settings : Slot QuerySettings
  correlation : Json := .null
  metrics : Slot Metrics
  cache : Recency String Prepared := {}
  deriving Inhabited

/-- Runs paths that its compiler prepares. -/
structure Matcher where
  settings : Slot SharedSettings
  correlation : Json := .null
  compiler : Slot Compiler
  metrics : Slot Metrics
  deriving Inhabited

/-- A session whose phases may still change. -/
abbrev LiveSession := Profile.Session (Slot Profile.Phase)

/-- Measures queries of its own matcher and keeps the sessions that have ended. -/
structure Profiler where
  matcher : Slot Matcher
  /-- Counts as true if the memory in use is read. -/
  tracksMemory : Json
  sessions : List (Slot LiveSession) := []
  deriving Inhabited

structure Workspace where
  forest : Forest := {}
  querySettings : Registry QuerySettings := {}
  logSettings : Registry LogSettings := {}
  settings : Registry SharedSettings := {}
  metrics : Registry Metrics := {}
  compilers : Registry Compiler := {}
  matchers : Registry Matcher := {}
  profilers : Registry Profiler := {}
  sessions : Registry LiveSession := {}
  phases : Registry Profile.Phase := {}
  /-- The matcher of queries that name none. -/
  defaultMatcher : Option (Slot Matcher) := none
  log : Log := {}
  clock : Readings Float := { last := 0 }
  memory : Readings Int := { last := 0 }
  /-- Whether the memory in use can be read. -/
  memoryKnown : Bool := true
  /-- The number of the next path that is made. -/
  serial : Nat := 0
  deriving Inhabited

namespace Workspace

def settingsOf (w : Workspace) (c : Slot SharedSettings) : Settings :=
  let shared := w.settings.get c
  { query := w.querySettings.get shared.query
    log := w.logSettings.get shared.log
    name := shared.name
    description := shared.description }

def now (w : Workspace) : Float × Workspace :=
  let (t, clock) := w.clock.read
  (t, { w with clock })

def addPath (w : Workspace) (p : Path) : Prepared × Workspace :=
  (⟨p, w.serial⟩, { w with serial := w.serial + 1 })

end Workspace

end TreePath
