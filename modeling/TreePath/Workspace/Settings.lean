import TreePath.Settings.Override
import TreePath.Workspace.Basic

namespace TreePath.Workspace

def addQuerySettings (w : Workspace) (q : QuerySettings) : Slot QuerySettings × Workspace :=
  let (slot, querySettings) := w.querySettings.add q
  (slot, { w with querySettings })

def addLogSettings (w : Workspace) (l : LogSettings) : Slot LogSettings × Workspace :=
  let (slot, logSettings) := w.logSettings.add l
  (slot, { w with logSettings })

def querySettingsOrNew (w : Workspace) :
    Option (Slot QuerySettings) → Slot QuerySettings × Workspace
  | some slot => (slot, w)
  | none => w.addQuerySettings {}

def logSettingsOrNew (w : Workspace) : Option (Slot LogSettings) → Slot LogSettings × Workspace
  | some slot => (slot, w)
  | none => w.addLogSettings {}

def addSettings (w : Workspace) (s : SharedSettings) : Slot SharedSettings × Workspace :=
  let (slot, settings) := w.settings.add s
  (slot, { w with settings })

def createSettings (w : Workspace) (s : Settings) : Slot SharedSettings × Workspace :=
  let (query, w) := w.addQuerySettings s.query
  let (log, w) := w.addLogSettings s.log
  w.addSettings { query, log, name := s.name, description := s.description }

/-- Settings of given sections, where missing ones have the usual values. -/
def composeSettings (w : Workspace) (query : Option (Slot QuerySettings))
    (log : Option (Slot LogSettings)) (name description : Json) :
    Except Settings.Fault (Slot SharedSettings) × Workspace :=
  let (query, w) := w.querySettingsOrNew query
  let (log, w) := w.logSettingsOrNew log
  let (c, w) := w.addSettings { query, log, name, description }
  match (w.settingsOf c).check with
  | .error e => (.error e, w)
  | .ok () => (.ok c, w)

/-- New settings, revised from older ones by keywords. Sections that are not mentioned are shared
with the older ones. -/
def overrideSettings (w : Workspace) (c : Slot SharedSettings) (keywords : List (String × Json)) :
    Except Settings.Fault (Slot SharedSettings) × Workspace :=
  match (w.settingsOf c).override keywords with
  | .error e => (.error e, w)
  | .ok r =>
    let old := w.settings.get c
    let (query, querySettings) := w.querySettings.addOr old.query r.query
    let (log, logSettings) := w.logSettings.addOr old.log r.log
    let (revised, settings) :=
      w.settings.add { query, log, name := r.name, description := r.description }
    (.ok revised, { w with querySettings, logSettings, settings })

def settingsOrNew (w : Workspace) : Option (Slot SharedSettings) → Slot SharedSettings × Workspace
  | some c => (c, w)
  | none => w.createSettings {}

def assignQueryField (w : Workspace) (s : Slot QuerySettings) (name : String) (v : Json) :
    Workspace :=
  { w with querySettings := w.querySettings.modify s (Settings.assign QuerySettings.set? · name v) }

def assignLogField (w : Workspace) (s : Slot LogSettings) (name : String) (v : Json) : Workspace :=
  { w with logSettings := w.logSettings.modify s (Settings.assign LogSettings.set? · name v) }

end TreePath.Workspace
