import TreePath.Proofs.Settings
import TreePath.Proofs.Workspace.Queries

namespace TreePath.Workspace

/-- What may be done while the elements stay as they are. Sections and settings are checked where
they are made, and a section that is in use may be given other values of the declared kinds. -/
inductive Action where
  | addQuerySettings (q : QuerySettings)
  | addLogSettings (l : LogSettings)
  | createSettings (s : Settings)
  | composeSettings (query : Option (Slot QuerySettings)) (log : Option (Slot LogSettings))
      (name description : Json)
  | overrideSettings (c : Slot SharedSettings) (keywords : List (String × Json))
  | assign (q : Slot QuerySettings) (a : QuerySettings.Assignment)
  | addMetrics (m : Metrics)
  | resetMetrics (m : Slot Metrics)
  | addCompiler (settings : Option (Slot QuerySettings)) (correlation : Json)
      (metrics : Option (Slot Metrics))
  | addMatcher (settings : Option (Slot SharedSettings)) (correlation : Json)
      (compiler : Option (Slot Compiler))
  | configure (settings : Option (Slot SharedSettings))
  | ensureDefault
  | compile (c : Slot Compiler) (request : Request)
  | prepare (m : Slot Matcher) (request : Request)
  | clearCache (c : Slot Compiler)
  | findAll (via : Route) (x : ElementId) (request : Request)
  | find (via : Route) (x : ElementId) (request : Request)
  | findText (via : Route) (x : ElementId) (request : Request) (default : Json)

/-- Only what passes its check is made. -/
def Action.IsChecked : Action → Prop
  | addQuerySettings q => q.check .invalidSection = .ok ()
  | createSettings s => s.check = .ok ()
  | _ => True

def act (w : Workspace) : Action → Workspace
  | .addQuerySettings q => (w.addQuerySettings q).2
  | .addLogSettings l => (w.addLogSettings l).2
  | .createSettings s => (w.createSettings s).2
  | .composeSettings query log name description =>
    (w.composeSettings query log name description).2
  | .overrideSettings c keywords => (w.overrideSettings c keywords).2
  | .assign q a => w.assignQueryField q a.field a.value
  | .addMetrics m => (w.addMetrics m).2
  | .resetMetrics m => w.resetMetrics m
  | .addCompiler settings correlation metrics => (w.addCompiler settings correlation metrics).2
  | .addMatcher settings correlation compiler => (w.addMatcher settings correlation compiler).2
  | .configure settings => (w.configure settings).2
  | .ensureDefault => w.ensureDefault.2
  | .compile c request => (w.compile c request).2
  | .prepare m request => (w.prepare m request).2
  | .clearCache c => w.clearCache c
  | .findAll via x request => (w.findAllBy via x request).2
  | .find via x request => (w.findBy via x request).2
  | .findText via x request default => (w.findTextBy via x request default).2

/-- The workspaces that actions over a forest lead to, by whatever clock. -/
inductive Reached (f : Forest) : Workspace → Prop
  | start (clock : Readings Float) : Reached f { forest := f, clock }
  | act {w : Workspace} {a : Action} : Reached f w → a.IsChecked → Reached f (w.act a)

/-- The workspace has this forest, it can tell of every compiler whether paths are kept, and paths
are kept for the texts that they were read from. -/
structure Serves (w : Workspace) (f : Forest) : Prop where
  forest_eq : w.forest = f
  limited : w.querySettings.All QuerySettings.IsLimited
  faithful : w.compilers.All fun k => Compiler.Faithful k.cache

variable {f : Forest} {w : Workspace}

namespace Serves

theorem answers (h : w.Serves f) (m : Slot Matcher) : w.Answers m :=
  ⟨(h.limited _).caching, h.faithful _⟩

theorem addQuerySettings (h : w.Serves f) {q : QuerySettings} (hq : q.IsLimited) :
    (w.addQuerySettings q).2.Serves f :=
  ⟨h.forest_eq, h.limited.add hq, h.faithful⟩

theorem addLogSettings (h : w.Serves f) (l : LogSettings) : (w.addLogSettings l).2.Serves f :=
  ⟨h.forest_eq, h.limited, h.faithful⟩

theorem addSettings (h : w.Serves f) (s : SharedSettings) : (w.addSettings s).2.Serves f :=
  ⟨h.forest_eq, h.limited, h.faithful⟩

theorem addMetrics (h : w.Serves f) (m : Metrics) : (w.addMetrics m).2.Serves f :=
  ⟨h.forest_eq, h.limited, h.faithful⟩

theorem querySettingsOrNew (h : w.Serves f) (settings : Option (Slot QuerySettings)) :
    (w.querySettingsOrNew settings).2.Serves f := by
  cases settings with
  | none => exact h.addQuerySettings ⟨_, rfl⟩
  | some slot => exact h

theorem logSettingsOrNew (h : w.Serves f) (settings : Option (Slot LogSettings)) :
    (w.logSettingsOrNew settings).2.Serves f := by
  cases settings with
  | none => exact h.addLogSettings _
  | some slot => exact h

theorem metricsOrNew (h : w.Serves f) (metrics : Option (Slot Metrics)) :
    (w.metricsOrNew metrics).2.Serves f := by
  cases metrics with
  | none => exact h.addMetrics _
  | some slot => exact h

theorem createSettings (h : w.Serves f) {s : Settings} (hs : s.query.IsLimited) :
    (w.createSettings s).2.Serves f :=
  ((h.addQuerySettings hs).addLogSettings s.log).addSettings _

theorem settingsOrNew (h : w.Serves f) (settings : Option (Slot SharedSettings)) :
    (w.settingsOrNew settings).2.Serves f := by
  cases settings with
  | none => exact h.createSettings ⟨_, rfl⟩
  | some slot => exact h

theorem composeSettings (h : w.Serves f) (query : Option (Slot QuerySettings))
    (log : Option (Slot LogSettings)) (name description : Json) :
    (w.composeSettings query log name description).2.Serves f := by
  have hsections := ((h.querySettingsOrNew query).logSettingsOrNew log).addSettings
    { query := (w.querySettingsOrNew query).1
      log := ((w.querySettingsOrNew query).2.logSettingsOrNew log).1
      name, description }
  dsimp only [Workspace.composeSettings]
  split
  · exact hsections
  · exact hsections

theorem overrideSettings (h : w.Serves f) (c : Slot SharedSettings)
    (keywords : List (String × Json)) : (w.overrideSettings c keywords).2.Serves f := by
  rw [Workspace.overrideSettings]
  split
  · exact h
  · next r hr =>
    have hlimited := Settings.isLimited_of_check (Settings.check_of_override hr)
    have hquery : Registry.All QuerySettings.IsLimited
        (w.querySettings.addOr (w.settings.get c).query r.query).2 := by
      cases hq : r.query with
      | none => exact h.limited
      | some q =>
        rw [Settings.Revision.apply, hq] at hlimited
        exact h.limited.add hlimited
    exact ⟨h.forest_eq, hquery, h.faithful⟩

theorem assign (h : w.Serves f) (q : Slot QuerySettings) (a : QuerySettings.Assignment) :
    (w.assignQueryField q a.field a.value).Serves f :=
  ⟨h.forest_eq, h.limited.modify (fun _ hq => hq.assign a) q, h.faithful⟩

theorem addCompiler (h : w.Serves f) (settings : Option (Slot QuerySettings))
    (correlation : Json) (metrics : Option (Slot Metrics)) :
    (w.addCompiler settings correlation metrics).2.Serves f := by
  have hparts := (h.querySettingsOrNew settings).metricsOrNew metrics
  exact ⟨hparts.forest_eq, hparts.limited, hparts.faithful.add Compiler.faithful_empty⟩

theorem compilerOrNew (h : w.Serves f) (settings : Slot QuerySettings) (correlation : Json)
    (compiler : Option (Slot Compiler)) :
    (w.compilerOrNew settings correlation compiler).2.Serves f := by
  cases compiler with
  | none => exact h.addCompiler _ _ _
  | some k => exact h

theorem addMatcher (h : w.Serves f) (settings : Option (Slot SharedSettings)) (correlation : Json)
    (compiler : Option (Slot Compiler)) :
    (w.addMatcher settings correlation compiler).2.Serves f := by
  have hparts := (h.settingsOrNew settings).compilerOrNew
    ((w.settingsOrNew settings).2.settings.get (w.settingsOrNew settings).1).query
    ((w.settingsOrNew settings).2.trackedCorrelation (w.settingsOrNew settings).1 correlation)
    compiler
  exact ⟨hparts.forest_eq, hparts.limited, hparts.faithful⟩

theorem ensureDefault (h : w.Serves f) : w.ensureDefault.2.Serves f := by
  rw [Workspace.ensureDefault]
  split
  · exact h
  · have hmatcher := h.addMatcher none .null none
    exact ⟨hmatcher.forest_eq, hmatcher.limited, hmatcher.faithful⟩

theorem setThreshold (h : w.Serves f) (name : Json) : (w.setThreshold name).2.Serves f := by
  rw [Workspace.setThreshold]
  split
  · exact h
  · exact ⟨h.forest_eq, h.limited, h.faithful⟩

theorem configure (h : w.Serves f) (settings : Option (Slot SharedSettings)) :
    (w.configure settings).2.Serves f := by
  have hthreshold := (h.settingsOrNew settings).setThreshold
    ((w.settingsOrNew settings).2.settingsOf (w.settingsOrNew settings).1).log.loggingLevel
  dsimp only [Workspace.configure]
  split
  · next hset =>
    rwa [hset] at hthreshold
  · next hset =>
    rw [hset] at hthreshold
    have hmatcher := hthreshold.addMatcher (w.settingsOrNew settings).1 .null none
    exact ⟨hmatcher.forest_eq, hmatcher.limited, hmatcher.faithful⟩

theorem compile (h : w.Serves f) (c : Slot Compiler) (request : Request) :
    (w.compile c request).2.Serves f := by
  have hkept : Compiler.Faithful (w.compilerState c).cache := h.faithful c
  exact ⟨h.forest_eq, h.limited, h.faithful.set (hkept.prepare request) c⟩

theorem clearCache (h : w.Serves f) (c : Slot Compiler) : (w.clearCache c).Serves f :=
  ⟨h.forest_eq, h.limited, h.faithful.modify (fun _ _ => Compiler.faithful_empty) c⟩

theorem prepare (h : w.Serves f) (m : Slot Matcher) (request : Request) :
    (w.prepare m request).2.Serves f := by
  cases request with
  | text text => exact h.compile _ _
  | path p => exact h
  | other isKey => exact h.compile _ _

theorem run (h : w.Serves f) (m : Slot Matcher) (p : Path) (x : ElementId) :
    (w.run m p x).2.Serves f := by
  dsimp only [Workspace.run]
  split
  · exact ⟨h.forest_eq, h.limited, h.faithful⟩
  · exact ⟨h.forest_eq, h.limited, h.faithful⟩

theorem findAll (h : w.Serves f) (m : Slot Matcher) (x : ElementId) (request : Request) :
    (w.findAll m x request).2.Serves f := by
  have hprepared := h.prepare m request
  rw [Workspace.findAll]
  split
  · next hanswer =>
    rwa [hanswer] at hprepared
  · next hanswer =>
    rw [hanswer] at hprepared
    exact hprepared.run m _ x

theorem findAllBy (h : w.Serves f) (via : Route) (x : ElementId)
    (request : Request) : (w.findAllBy via x request).2.Serves f := by
  cases via with
  | element | package => exact h.ensureDefault.findAll _ x request
  | matcher m => exact h.findAll m x request

end Serves

theorem findBy_snd (via : Route) (x : ElementId) (request : Request) :
    (w.findBy via x request).2 = (w.findAllBy via x request).2 := by
  cases via <;> rfl

theorem findTextBy_snd (via : Route) (x : ElementId) (request : Request)
    (default : Json) :
    (w.findTextBy via x request default).2 = (w.findAllBy via x request).2 := by
  cases via <;> rfl

theorem Serves.act (h : w.Serves f) {a : Action} (ha : a.IsChecked) : (w.act a).Serves f := by
  cases a with
  | addQuerySettings q => exact h.addQuerySettings (QuerySettings.isLimited_of_check ha)
  | addLogSettings l => exact h.addLogSettings l
  | createSettings s => exact h.createSettings (Settings.isLimited_of_check ha)
  | composeSettings query log name description => exact h.composeSettings query log name description
  | overrideSettings c keywords => exact h.overrideSettings c keywords
  | assign q a => exact h.assign q a
  | addMetrics m => exact h.addMetrics m
  | resetMetrics m => exact ⟨h.forest_eq, h.limited, h.faithful⟩
  | addCompiler settings correlation metrics => exact h.addCompiler settings correlation metrics
  | addMatcher settings correlation compiler => exact h.addMatcher settings correlation compiler
  | configure settings => exact h.configure settings
  | ensureDefault => exact h.ensureDefault
  | compile c request => exact h.compile c request
  | prepare m request => exact h.prepare m request
  | clearCache c => exact h.clearCache c
  | findAll via x request => exact h.findAllBy via x request
  | find via x request =>
    rw [Workspace.act, findBy_snd]
    exact h.findAllBy via x request
  | findText via x request default =>
    rw [Workspace.act, findTextBy_snd]
    exact h.findAllBy via x request

theorem Reached.serves (h : Reached f w) : w.Serves f := by
  induction h with
  | start clock => exact ⟨rfl, .empty ⟨_, rfl⟩, .empty Compiler.faithful_empty⟩
  | act _ ha ih => exact ih.act ha

end TreePath.Workspace
