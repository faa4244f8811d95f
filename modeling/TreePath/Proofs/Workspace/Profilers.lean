import TreePath.Proofs.Workspace.Accounts
import TreePath.Workspace.Profiling

namespace TreePath.Workspace

open Profile

/-- What may be done with profilers, and with the sessions and phases that they measure, with paths,
and with sections that are in use, whose fields take values of any kind. -/
inductive Deed where
  | addPath (p : Path)
  | assignQueryField (s : Slot QuerySettings) (name : String) (v : Json)
  | assignLogField (s : Slot LogSettings) (name : String) (v : Json)
  | addProfiler (settings : Option (Slot SharedSettings)) (tracksMemory : Json)
  | profileQuery (p : Slot Profiler) (id : Json) (x : ElementId) (request : Json)
  | addSession (s : Session Phase)
  | startSession (p : Slot Profiler) (id expression treeSize : Json)
  | endSession (p : Slot Profiler) (s : Slot LiveSession)
  | clearSessions (p : Slot Profiler)
  | startPhase (p : Slot Profiler) (name : Json)
  | setOperations (x : Slot Phase) (operations : Json)
  | endPhase (p : Slot Profiler) (s : Slot LiveSession) (x : Slot Phase)
  | generateReport (p : Slot Profiler)

def perform (w : Workspace) : Deed → Workspace
  | .addPath p => (w.addPath p).2
  | .assignQueryField s name v => w.assignQueryField s name v
  | .assignLogField s name v => w.assignLogField s name v
  | .addProfiler settings tracksMemory => (w.addProfiler settings tracksMemory).2
  | .profileQuery p id x request => (w.profileQuery p id x request).2
  | .addSession s => (w.addSession s).2
  | .startSession p id expression treeSize => (w.startSession p id expression treeSize).2
  | .endSession p s => w.endSession p s
  | .clearSessions p => w.clearSessions p
  | .startPhase p name => (w.startPhase p name).2
  | .setOperations x operations => w.setOperations x operations
  | .endPhase p s x => w.endPhase p s x
  | .generateReport p => (w.generateReport p).2

/-- The workspaces that come about while the elements and the log are changed at will, by whatever
clock and whatever is known of the memory. -/
inductive Arises : Workspace → Prop
  | start : Arises {}
  | change {w : Workspace} (forest : Forest) (log : Log) (clock : Readings Float)
      (memory : Readings Int) (memoryKnown : Bool) :
    Arises w → Arises { w with forest, log, clock, memory, memoryKnown }
  | act {w : Workspace} (a : Action) : Arises w → Arises (w.act a)
  | perform {w : Workspace} (d : Deed) : Arises w → Arises (w.perform d)

structure Equipped (w : Workspace) (m : Slot Matcher) : Prop where
  matcher_mem : m.index < w.matchers.size
  metrics_mem : (w.matchers.get m).metrics.index < w.metrics.size

def AllEquipped (w : Workspace) : Prop :=
  w.profilers.Each fun q => w.Equipped q.matcher

/-- Matchers and metrics may be added, and profilers keep their matchers. -/
structure Grows (w w' : Workspace) : Prop where
  matchers_size : w.matchers.size ≤ w'.matchers.size
  matcher_eq : ∀ m : Slot Matcher, m.index < w.matchers.size → w'.matchers.get m = w.matchers.get m
  metrics_size : w.metrics.size ≤ w'.metrics.size
  profilers_size : w'.profilers.size = w.profilers.size
  profiler_eq : ∀ p : Slot Profiler, (w'.profilers.get p).matcher = (w.profilers.get p).matcher

/-- The settings that the queries of a profiler go by. -/
def querySettingsOf (w : Workspace) (p : Slot Profiler) : QuerySettings :=
  (w.settingsOf (w.matchers.get (w.profilers.get p).matcher).settings).query

/-- What queries depend on is the same, and so are the profilers. -/
structure Undisturbed (w w' : Workspace) : Prop where
  forest_eq : w'.forest = w.forest
  querySettings_eq : w'.querySettings = w.querySettings
  settings_eq : w'.settings = w.settings
  metrics_eq : w'.metrics = w.metrics
  matchers_eq : w'.matchers = w.matchers
  profilers_eq : w'.profilers = w.profilers

variable {w w' w'' : Workspace} {m : Slot Matcher}

namespace Undisturbed

theorem trans (h : w.Undisturbed w') (h' : w'.Undisturbed w'') : w.Undisturbed w'' where
  forest_eq := h'.forest_eq.trans h.forest_eq
  querySettings_eq := h'.querySettings_eq.trans h.querySettings_eq
  settings_eq := h'.settings_eq.trans h.settings_eq
  metrics_eq := h'.metrics_eq.trans h.metrics_eq
  matchers_eq := h'.matchers_eq.trans h.matchers_eq
  profilers_eq := h'.profilers_eq.trans h.profilers_eq

theorem querySettingsOf_eq (h : w.Undisturbed w') (p : Slot Profiler) :
    w'.querySettingsOf p = w.querySettingsOf p := by
  dsimp only [querySettingsOf, settingsOf]
  rw [h.querySettings_eq, h.settings_eq, h.matchers_eq, h.profilers_eq]

theorem currentMemory (w : Workspace) (p : Slot Profiler) :
    w.Undisturbed (w.currentMemory p).2 := by
  rw [Workspace.currentMemory]
  split <;> exact ⟨rfl, rfl, rfl, rfl, rfl, rfl⟩

theorem startSession (w : Workspace) (p : Slot Profiler) (id expression treeSize : Json) :
    w.Undisturbed (w.startSession p id expression treeSize).2 :=
  ⟨rfl, rfl, rfl, rfl, rfl, rfl⟩

theorem modifySession (w : Workspace) (s : Slot LiveSession) (g : LiveSession → LiveSession) :
    w.Undisturbed (w.modifySession s g) :=
  ⟨rfl, rfl, rfl, rfl, rfl, rfl⟩

theorem startPhase (w : Workspace) (p : Slot Profiler) (name : Json) :
    w.Undisturbed (w.startPhase p name).2 := by
  have h := currentMemory w.now.2 p
  exact ⟨h.forest_eq, h.querySettings_eq, h.settings_eq, h.metrics_eq, h.matchers_eq,
    h.profilers_eq⟩

theorem setOperations (w : Workspace) (x : Slot Phase) (operations : Json) :
    w.Undisturbed (w.setOperations x operations) :=
  ⟨rfl, rfl, rfl, rfl, rfl, rfl⟩

theorem stopPhase (w : Workspace) (p : Slot Profiler) (x : Slot Phase) :
    w.Undisturbed (w.stopPhase p x) := by
  have h := currentMemory w.now.2 p
  exact ⟨h.forest_eq, h.querySettings_eq, h.settings_eq, h.metrics_eq, h.matchers_eq,
    h.profilers_eq⟩

theorem endPhase (w : Workspace) (p : Slot Profiler) (s : Slot LiveSession) (x : Slot Phase) :
    w.Undisturbed (w.endPhase p s x) :=
  (stopPhase w p x).trans ⟨rfl, rfl, rfl, rfl, rfl, rfl⟩

theorem profileCompilation (w : Workspace) (p : Slot Profiler) (s : Slot LiveSession)
    (request : Json) : w.Undisturbed (w.profileCompilation p s request).2 := by
  have hphase := startPhase w p "compile"
  dsimp only [Workspace.profileCompilation]
  split
  · exact (hphase.trans (setOperations _ _ _)).trans (endPhase _ p s _)
  · exact hphase.trans (endPhase _ p s _)

end Undisturbed

theorem Equipped.of_grows (h : w.Equipped m) (hg : w.Grows w') : w'.Equipped m := by
  refine ⟨Nat.lt_of_lt_of_le h.matcher_mem hg.matchers_size, ?_⟩
  rw [hg.matcher_eq m h.matcher_mem]
  exact Nat.lt_of_lt_of_le h.metrics_mem hg.metrics_size

namespace Grows

theorem refl (w : Workspace) : w.Grows w :=
  ⟨Nat.le_refl _, fun _ _ => rfl, Nat.le_refl _, rfl, fun _ => rfl⟩

theorem trans (h : w.Grows w') (h' : w'.Grows w'') : w.Grows w'' where
  matchers_size := Nat.le_trans h.matchers_size h'.matchers_size
  matcher_eq m hm :=
    (h'.matcher_eq m (Nat.lt_of_lt_of_le hm h.matchers_size)).trans (h.matcher_eq m hm)
  metrics_size := Nat.le_trans h.metrics_size h'.metrics_size
  profilers_size := h'.profilers_size.trans h.profilers_size
  profiler_eq p := (h'.profiler_eq p).trans (h.profiler_eq p)

theorem of_eq (hmatchers : w'.matchers = w.matchers) (hmetrics : w.metrics.size ≤ w'.metrics.size)
    (hprofilers : w'.profilers = w.profilers) : w.Grows w' := by
  refine ⟨?_, fun m _ => ?_, hmetrics, ?_, fun p => ?_⟩
  · rw [hmatchers]
  · rw [hmatchers]
  · rw [hprofilers]
  · rw [hprofilers]

theorem of_undisturbed (h : w.Undisturbed w') : w.Grows w' :=
  of_eq h.matchers_eq (Nat.le_of_eq (congrArg Registry.size h.metrics_eq.symm)) h.profilers_eq

theorem querySettingsOrNew (w : Workspace) (settings : Option (Slot QuerySettings)) :
    w.Grows (w.querySettingsOrNew settings).2 := by
  cases settings <;> exact .of_eq rfl (Nat.le_refl _) rfl

theorem logSettingsOrNew (w : Workspace) (settings : Option (Slot LogSettings)) :
    w.Grows (w.logSettingsOrNew settings).2 := by
  cases settings <;> exact .of_eq rfl (Nat.le_refl _) rfl

theorem settingsOrNew (w : Workspace) (settings : Option (Slot SharedSettings)) :
    w.Grows (w.settingsOrNew settings).2 := by
  cases settings <;> exact .of_eq rfl (Nat.le_refl _) rfl

theorem composeSettings (w : Workspace) (query : Option (Slot QuerySettings))
    (log : Option (Slot LogSettings)) (name description : Json) :
    w.Grows (w.composeSettings query log name description).2 := by
  have hsections := (querySettingsOrNew w query).trans (logSettingsOrNew _ log)
  dsimp only [Workspace.composeSettings]
  split
  · exact hsections.trans (.of_eq rfl (Nat.le_refl _) rfl)
  · exact hsections.trans (.of_eq rfl (Nat.le_refl _) rfl)

theorem overrideSettings (w : Workspace) (c : Slot SharedSettings)
    (keywords : List (String × Json)) : w.Grows (w.overrideSettings c keywords).2 := by
  rw [Workspace.overrideSettings]
  split
  · exact refl w
  · next r _ =>
    cases r.query <;> cases r.log <;> exact .of_eq rfl (Nat.le_refl _) rfl

theorem metricsOrNew (w : Workspace) (metrics : Option (Slot Metrics)) :
    w.Grows (w.metricsOrNew metrics).2 := by
  cases metrics with
  | none =>
    refine of_eq rfl ?_ rfl
    rw [Workspace.metricsOrNew, addMetrics, Registry.size_add]
    exact Nat.le_succ _
  | some slot => exact refl w

theorem addCompiler (w : Workspace) (settings : Option (Slot QuerySettings)) (correlation : Json)
    (metrics : Option (Slot Metrics)) : w.Grows (w.addCompiler settings correlation metrics).2 :=
  ((querySettingsOrNew w settings).trans (metricsOrNew _ metrics)).trans
    (.of_eq rfl (Nat.le_refl _) rfl)

theorem compilerOrNew (w : Workspace) (settings : Slot QuerySettings) (correlation : Json)
    (compiler : Option (Slot Compiler)) :
    w.Grows (w.compilerOrNew settings correlation compiler).2 := by
  cases compiler with
  | none => exact addCompiler w _ _ _
  | some k => exact refl w

theorem addMatcher (w : Workspace) (settings : Option (Slot SharedSettings)) (correlation : Json)
    (compiler : Option (Slot Compiler)) :
    w.Grows (w.addMatcher settings correlation compiler).2 := by
  have hparts := (settingsOrNew w settings).trans (compilerOrNew (w.settingsOrNew settings).2
    ((w.settingsOrNew settings).2.settings.get (w.settingsOrNew settings).1).query
    ((w.settingsOrNew settings).2.trackedCorrelation (w.settingsOrNew settings).1 correlation)
    compiler)
  refine hparts.trans
    ⟨?_, fun m hm => Registry.get_add_of_lt _ hm, Nat.le_refl _, rfl, fun _ => rfl⟩
  exact Nat.le_of_lt (Nat.lt_of_lt_of_eq (Nat.lt_succ_self _) (Registry.size_add _ _).symm)

theorem ensureDefault (w : Workspace) : w.Grows w.ensureDefault.2 := by
  rw [Workspace.ensureDefault]
  split
  · exact refl w
  · exact (addMatcher w none .null none).trans (.of_eq rfl (Nat.le_refl _) rfl)

theorem setThreshold (w : Workspace) (name : Json) : w.Grows (w.setThreshold name).2 := by
  rw [Workspace.setThreshold]
  split <;> exact .of_eq rfl (Nat.le_refl _) rfl

theorem configure (w : Workspace) (settings : Option (Slot SharedSettings)) :
    w.Grows (w.configure settings).2 := by
  have hthreshold := (settingsOrNew w settings).trans (setThreshold (w.settingsOrNew settings).2
    ((w.settingsOrNew settings).2.settingsOf (w.settingsOrNew settings).1).log.loggingLevel)
  dsimp only [Workspace.configure]
  split
  · next hset =>
    rwa [hset] at hthreshold
  · next hset =>
    rw [hset] at hthreshold
    have hmatcher := hthreshold.trans (addMatcher _ (w.settingsOrNew settings).1 .null none)
    exact hmatcher.trans (.of_eq rfl (Nat.le_refl _) rfl)

theorem compile (w : Workspace) (c : Slot Compiler) (request : Request) :
    w.Grows (w.compile c request).2 := by
  refine of_eq rfl ?_ rfl
  dsimp only [Workspace.compile]
  rw [Registry.size_set]

theorem prepare (w : Workspace) (m : Slot Matcher) (request : Request) :
    w.Grows (w.prepare m request).2 := by
  cases request with
  | path p => exact refl w
  | text text => exact compile w _ _
  | other isKey => exact compile w _ _

theorem run (w : Workspace) (m : Slot Matcher) (p : Path) (x : ElementId) :
    w.Grows (w.run m p x).2 := by
  dsimp only [Workspace.run]
  split
  · exact .of_eq rfl (Nat.le_refl _) rfl
  · refine of_eq rfl ?_ rfl
    dsimp only [noteRun]
    rw [Registry.size_modify]
    rfl

theorem findAll (w : Workspace) (m : Slot Matcher) (x : ElementId) (request : Request) :
    w.Grows (w.findAll m x request).2 := by
  have hprepared := prepare w m request
  rw [Workspace.findAll]
  split
  · next hanswer =>
    rwa [hanswer] at hprepared
  · next hanswer =>
    rw [hanswer] at hprepared
    exact hprepared.trans (run _ m _ x)

theorem findAllBy (w : Workspace) (via : Route) (x : ElementId)
    (request : Request) : w.Grows (w.findAllBy via x request).2 := by
  cases via with
  | element | package => exact (ensureDefault w).trans (findAll _ _ x request)
  | matcher m => exact findAll w m x request

theorem act (w : Workspace) (a : Action) : w.Grows (w.act a) := by
  cases a with
  | addQuerySettings | addLogSettings | createSettings | assign | clearCache =>
    exact .of_eq rfl (Nat.le_refl _) rfl
  | composeSettings query log name description =>
    exact composeSettings w query log name description
  | overrideSettings c keywords => exact overrideSettings w c keywords
  | addMetrics m =>
    refine of_eq rfl ?_ rfl
    rw [Workspace.act, addMetrics, Registry.size_add]
    exact Nat.le_succ _
  | resetMetrics m =>
    refine of_eq rfl ?_ rfl
    rw [Workspace.act, resetMetrics, Registry.size_set]
  | addCompiler settings correlation metrics => exact addCompiler w settings correlation metrics
  | addMatcher settings correlation compiler => exact addMatcher w settings correlation compiler
  | configure settings => exact configure w settings
  | ensureDefault => exact ensureDefault w
  | compile c request => exact compile w c request
  | prepare m request => exact prepare w m request
  | findAll via x request => exact findAllBy w via x request
  | find via x request =>
    rw [Workspace.act, findBy_snd]
    exact findAllBy w via x request
  | findText via x request default =>
    rw [Workspace.act, findTextBy_snd]
    exact findAllBy w via x request

theorem of_modify {p : Slot Profiler} {g : Profiler → Profiler}
    (hprofilers : w'.profilers = w.profilers.modify p g) (hg : ∀ q, (g q).matcher = q.matcher)
    (hmatchers : w'.matchers = w.matchers) (hmetrics : w'.metrics = w.metrics) : w.Grows w' := by
  refine ⟨?_, fun m _ => ?_, ?_, ?_, fun t => ?_⟩
  · rw [hmatchers]
  · rw [hmatchers]
  · rw [hmetrics]
  · rw [hprofilers, Registry.size_modify]
  · rw [hprofilers]
    exact Registry.apply_get_modify hg p t

theorem endSession (w : Workspace) (p : Slot Profiler) (s : Slot LiveSession) :
    w.Grows (w.endSession p s) :=
  of_modify rfl (fun _ => rfl) rfl rfl

theorem clearSessions (w : Workspace) (p : Slot Profiler) : w.Grows (w.clearSessions p) :=
  of_modify rfl (fun _ => rfl) rfl rfl

theorem profileMatch (w : Workspace) (p : Slot Profiler) (s : Slot LiveSession) (x : ElementId)
    (path : Path) : w.Grows (w.profileMatch p s x path).2 := by
  have hphase := of_undisturbed (.startPhase w p "match")
  have hrun := hphase.trans (run _ ((w.startPhase p "match").2.profilers.get p).matcher path x)
  dsimp only [Workspace.profileMatch]
  split
  · next hanswer =>
    rw [hanswer] at hrun
    exact hrun.trans (of_undisturbed (.endPhase _ p s _))
  · next hanswer =>
    rw [hanswer] at hrun
    exact (hrun.trans (of_undisturbed (.setOperations _ _ _))).trans
      (of_undisturbed (.endPhase _ p s _))

theorem profileQuery (w : Workspace) (p : Slot Profiler) (id : Json) (x : ElementId)
    (request : Json) : w.Grows (w.profileQuery p id x request).2 := by
  let started := w.startSession p id request (.int (w.forest.preorder (w.forest.root x)).length)
  have hstarted : w.Grows started.2 := of_undisturbed (.startSession w p id request _)
  have hcompiled := hstarted.trans
    (of_undisturbed (.profileCompilation started.2 p started.1 request))
  dsimp only [Workspace.profileQuery]
  split
  · next hread =>
    rwa [hread] at hcompiled
  · next path compiled hread =>
    rw [hread] at hcompiled
    have hmatched := hcompiled.trans (profileMatch compiled p started.1 x path)
    split
    · next hfound =>
      rwa [hfound] at hmatched
    · next hfound =>
      rw [hfound] at hmatched
      exact (hmatched.trans (of_undisturbed (.modifySession _ _ _))).trans (endSession _ p _)

end Grows

theorem equipped_addMatcher (w : Workspace) (settings : Option (Slot SharedSettings))
    (correlation : Json) :
    (w.addMatcher settings correlation none).2.Equipped
      (w.addMatcher settings correlation none).1 := by
  have howns :=
    Owns.addMatcher (w.settingsOrNew settings).2 (w.settingsOrNew settings).1 correlation
  refine ⟨?_, ?_⟩
  · rw [addMatcher, Registry.size_add]
    exact Nat.lt_succ_self _
  · have hmetrics := howns.metrics_mem
    rwa [← howns.metrics_eq] at hmetrics

namespace AllEquipped

theorem of_grows (h : w.AllEquipped) (hg : w.Grows w') : w'.AllEquipped := by
  intro p hp
  rw [hg.profilers_size] at hp
  rw [hg.profiler_eq]
  exact (h p hp).of_grows hg

theorem addProfiler (h : w.AllEquipped) (settings : Option (Slot SharedSettings))
    (tracksMemory : Json) : (w.addProfiler settings tracksMemory).2.AllEquipped := by
  have hold := h.of_grows (.addMatcher w settings .null none)
  have hnew := w.equipped_addMatcher settings .null
  refine Registry.Each.add (fun p hp => ?_) ⟨hnew.matcher_mem, hnew.metrics_mem⟩
  exact ⟨(hold p hp).matcher_mem, (hold p hp).metrics_mem⟩

theorem perform (h : w.AllEquipped) (d : Deed) : (w.perform d).AllEquipped := by
  cases d with
  | addPath | assignQueryField | assignLogField => exact h.of_grows (.of_eq rfl (Nat.le_refl _) rfl)
  | addProfiler settings tracksMemory => exact h.addProfiler settings tracksMemory
  | profileQuery p id x request => exact h.of_grows (.profileQuery w p id x request)
  | addSession s => exact h.of_grows (.of_eq rfl (Nat.le_refl _) rfl)
  | startSession p id expression treeSize =>
    exact h.of_grows (.of_undisturbed (.startSession w p id expression treeSize))
  | endSession p s => exact h.of_grows (.endSession w p s)
  | clearSessions p => exact h.of_grows (.clearSessions w p)
  | startPhase p name => exact h.of_grows (.of_undisturbed (.startPhase w p name))
  | setOperations x operations =>
    exact h.of_grows (.of_undisturbed (.setOperations w x operations))
  | endPhase p s x => exact h.of_grows (.of_undisturbed (.endPhase w p s x))
  | generateReport p => exact h.of_grows (.of_eq rfl (Nat.le_refl _) rfl)

end AllEquipped

/-- Whatever was done, every profiler has a matcher whose metrics can be counted. -/
theorem Arises.allEquipped (h : w.Arises) : w.AllEquipped := by
  induction h with
  | start => exact fun p hp => absurd hp (Nat.not_lt_zero _)
  | change forest log clock memory memoryKnown _ ih =>
    exact ih.of_grows (.of_eq rfl (Nat.le_refl _) rfl)
  | act a _ ih => exact ih.of_grows (.act _ a)
  | perform d _ ih => exact ih.perform d

end TreePath.Workspace
