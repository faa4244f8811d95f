import TreePath.Workspace.Settings

namespace TreePath.Workspace

def addMetrics (w : Workspace) (m : Metrics) : Slot Metrics × Workspace :=
  let (slot, metrics) := w.metrics.add m
  (slot, { w with metrics })

def metricsOrNew (w : Workspace) : Option (Slot Metrics) → Slot Metrics × Workspace
  | some m => (m, w)
  | none => w.addMetrics {}

/-- Equality of all counters. Metrics equal themselves even where their run time is NaN. -/
def sameMetrics (w : Workspace) (a b : Slot Metrics) : Bool :=
  a = b || (w.metrics.get a).same (w.metrics.get b)

def resetMetrics (w : Workspace) (m : Slot Metrics) : Workspace :=
  { w with metrics := w.metrics.set m {} }

/-- A compiler. Missing settings and metrics are made for it. -/
def addCompiler (w : Workspace) (settings : Option (Slot QuerySettings))
    (correlation : Json) (metrics : Option (Slot Metrics)) : Slot Compiler × Workspace :=
  let (settings, w) := w.querySettingsOrNew settings
  let (metrics, w) := w.metricsOrNew metrics
  let (slot, compilers) := w.compilers.add { settings, correlation, metrics }
  (slot, { w with compilers })

def compilerOrNew (w : Workspace) (settings : Slot QuerySettings) (correlation : Json) :
    Option (Slot Compiler) → Slot Compiler × Workspace
  | some k => (k, w)
  | none => w.addCompiler settings correlation none

/-- A correlation, if the settings ask for it. -/
def trackedCorrelation (w : Workspace) (c : Slot SharedSettings) (correlation : Json) : Json :=
  if (w.settingsOf c).log.enableCorrelationTracking.truthy then correlation else .null

/-- A matcher. Unless it is given a compiler, one is made that shares its settings, and in any case
it shares the metrics of its compiler. -/
def addMatcher (w : Workspace) (settings : Option (Slot SharedSettings))
    (correlation : Json) (compiler : Option (Slot Compiler)) : Slot Matcher × Workspace :=
  let (settings, w) := w.settingsOrNew settings
  let correlation := w.trackedCorrelation settings correlation
  let (compiler, w) := w.compilerOrNew (w.settings.get settings).query correlation compiler
  let metrics := (w.compilers.get compiler).metrics
  let (slot, matchers) := w.matchers.add { settings, correlation, compiler, metrics }
  (slot, { w with matchers })

/-- The default matcher, which is made when it is first asked for. -/
def ensureDefault (w : Workspace) : Slot Matcher × Workspace :=
  match w.defaultMatcher with
  | some m => (m, w)
  | none =>
    let (m, w) := w.addMatcher none .null none
    (m, { w with defaultMatcher := m })

def setThreshold (w : Workspace) (name : Json) :
    Except Log.ThresholdFault Log.Threshold × Workspace :=
  match Log.Threshold.ofJson name with
  | .error e => (.error e, w)
  | .ok t => (.ok t, { w with log := { w.log with threshold := t.weight } })

def apiLogger : Logger :=
  .make (Log.packageName ++ ".api.query") .null "api"

/-- Sets the threshold of the log and installs a new default matcher, both by the settings. -/
def configure (w : Workspace) (settings : Option (Slot SharedSettings)) :
    Except Log.ThresholdFault (Slot Matcher) × Workspace :=
  let (c, w) := w.settingsOrNew settings
  let s := w.settingsOf c
  match w.setThreshold s.log.loggingLevel with
  | (.error e, w) => (.error e, w)
  | (.ok _, w) =>
    let (m, w) := w.addMatcher c .null none
    let log := w.log.write apiLogger .info "Default matcher configured"
      [("config_name", s.name), ("cache_enabled", s.query.enableCaching),
       ("cache_size_limit", s.query.cacheSizeLimit)]
    (.ok m, { w with defaultMatcher := m, log })

end TreePath.Workspace
