import TreePath.Proofs.Workspace.Measuring

namespace TreePath.Workspace

open Profile

/-- The sessions that profilers keep are there, and so are the phases of all sessions. -/
structure Intact (w : Workspace) : Prop where
  kept : w.profilers.All fun q => ∀ s ∈ q.sessions, s.index < w.sessions.size
  taken : w.sessions.All fun s => ∀ x ∈ s.phases, x.index < w.phases.size

/-- The sessions and phases that a deed is about are there. -/
def Deed.Refers (w : Workspace) : Deed → Prop
  | endSession _ s => s.index < w.sessions.size
  | setOperations x _ => x.index < w.phases.size
  | endPhase _ s x => s.index < w.sessions.size ∧ x.index < w.phases.size
  | _ => True

/-- The workspaces that come about while deeds are about what is there, the elements and the log are
changed at will, and sessions and phases are also made up and changed by hand. -/
inductive Evolves : Workspace → Prop
  | start : Evolves {}
  | change {w : Workspace} (forest : Forest) (log : Log) (clock : Readings Float)
      (memory : Readings Int) (memoryKnown : Bool) :
    Evolves w → Evolves { w with forest, log, clock, memory, memoryKnown }
  | act {w : Workspace} (a : Action) : Evolves w → Evolves (w.act a)
  | perform {w : Workspace} (d : Deed) : Evolves w → d.Refers w → Evolves (w.perform d)
  | addPhase {w : Workspace} (x : Phase) :
    Evolves w → Evolves { w with phases := (w.phases.add x).2 }
  | modifyPhase {w : Workspace} (x : Slot Phase) (g : Phase → Phase) :
    Evolves w → Evolves { w with phases := w.phases.modify x g }
  | modifySession {w : Workspace} (s : Slot LiveSession) (g : LiveSession → LiveSession) :
    Evolves w → (∀ x ∈ (g (w.sessions.get s)).phases, x.index < w.phases.size) →
      Evolves (w.modifySession s g)

variable {w w' : Workspace}

theorem measurements_querySettingsOrNew (w : Workspace) (settings : Option (Slot QuerySettings)) :
    (w.querySettingsOrNew settings).2.measurements = w.measurements := by
  cases settings <;> rfl

theorem measurements_logSettingsOrNew (w : Workspace) (settings : Option (Slot LogSettings)) :
    (w.logSettingsOrNew settings).2.measurements = w.measurements := by
  cases settings <;> rfl

theorem measurements_settingsOrNew (w : Workspace) (settings : Option (Slot SharedSettings)) :
    (w.settingsOrNew settings).2.measurements = w.measurements := by
  cases settings <;> rfl

theorem measurements_composeSettings (w : Workspace) (query : Option (Slot QuerySettings))
    (log : Option (Slot LogSettings)) (name description : Json) :
    (w.composeSettings query log name description).2.measurements = w.measurements := by
  have hsections :=
    (measurements_logSettingsOrNew _ log).trans (measurements_querySettingsOrNew w query)
  dsimp only [composeSettings]
  split <;> exact hsections

theorem measurements_overrideSettings (w : Workspace) (c : Slot SharedSettings)
    (keywords : List (String × Json)) :
    (w.overrideSettings c keywords).2.measurements = w.measurements := by
  rw [overrideSettings]
  split
  · rfl
  · next r _ => cases r.query <;> cases r.log <;> rfl

theorem measurements_addCompiler (w : Workspace) (settings : Option (Slot QuerySettings))
    (correlation : Json) (metrics : Option (Slot Metrics)) :
    (w.addCompiler settings correlation metrics).2.measurements = w.measurements := by
  have hsettings := measurements_querySettingsOrNew w settings
  cases metrics <;> exact hsettings

theorem measurements_compilerOrNew (w : Workspace) (settings : Slot QuerySettings)
    (correlation : Json) (compiler : Option (Slot Compiler)) :
    (w.compilerOrNew settings correlation compiler).2.measurements = w.measurements := by
  cases compiler with
  | none => exact measurements_addCompiler w settings correlation none
  | some k => rfl

theorem measurements_addMatcher (w : Workspace) (settings : Option (Slot SharedSettings))
    (correlation : Json) (compiler : Option (Slot Compiler)) :
    (w.addMatcher settings correlation compiler).2.measurements = w.measurements := by
  let made := w.settingsOrNew settings
  have hcompiler := measurements_compilerOrNew made.2 (made.2.settings.get made.1).query
    (made.2.trackedCorrelation made.1 correlation) compiler
  exact hcompiler.trans (measurements_settingsOrNew w settings)

theorem measurements_ensureDefault (w : Workspace) :
    w.ensureDefault.2.measurements = w.measurements := by
  rw [ensureDefault]
  split
  · rfl
  · exact measurements_addMatcher w none .null none

theorem measurements_setThreshold (w : Workspace) (name : Json) :
    (w.setThreshold name).2.measurements = w.measurements := by
  rw [setThreshold]
  split <;> rfl

theorem measurements_configure (w : Workspace) (settings : Option (Slot SharedSettings)) :
    (w.configure settings).2.measurements = w.measurements := by
  have hthreshold := measurements_setThreshold (w.settingsOrNew settings).2
    ((w.settingsOrNew settings).2.settingsOf (w.settingsOrNew settings).1).log.loggingLevel
  rw [measurements_settingsOrNew] at hthreshold
  dsimp only [configure]
  split
  · next hset =>
    rwa [hset] at hthreshold
  · next after hset =>
    rw [hset] at hthreshold
    exact (measurements_addMatcher after (w.settingsOrNew settings).1 .null none).trans hthreshold

theorem measurements_prepare (w : Workspace) (m : Slot Matcher) (request : Request) :
    (w.prepare m request).2.measurements = w.measurements := by
  cases request <;> rfl

theorem measurements_findAll (w : Workspace) (m : Slot Matcher) (n : ElementId)
    (request : Request) : (w.findAll m n request).2.measurements = w.measurements := by
  have hprepared := measurements_prepare w m request
  rw [findAll]
  split
  · next hanswer =>
    rwa [hanswer] at hprepared
  · next hanswer =>
    rw [hanswer] at hprepared
    exact (measurements_run _ m _ n).trans hprepared

theorem measurements_findAllBy (w : Workspace) (via : Route) (n : ElementId)
    (request : Request) : (w.findAllBy via n request).2.measurements = w.measurements := by
  cases via with
  | element | package =>
    exact (measurements_findAll _ _ n request).trans (measurements_ensureDefault w)
  | matcher m => exact measurements_findAll w m n request

theorem measurements_act (w : Workspace) (a : Action) :
    (w.act a).measurements = w.measurements := by
  cases a with
  | addQuerySettings | addLogSettings | createSettings | assign | addMetrics | resetMetrics
    | compile | clearCache => rfl
  | composeSettings query log name description =>
    exact measurements_composeSettings w query log name description
  | overrideSettings c keywords => exact measurements_overrideSettings w c keywords
  | addCompiler settings correlation metrics =>
    exact measurements_addCompiler w settings correlation metrics
  | addMatcher settings correlation compiler =>
    exact measurements_addMatcher w settings correlation compiler
  | configure settings => exact measurements_configure w settings
  | ensureDefault => exact measurements_ensureDefault w
  | prepare m request => exact measurements_prepare w m request
  | findAll via n request => exact measurements_findAllBy w via n request
  | find via n request =>
    rw [act, findBy_snd]
    exact measurements_findAllBy w via n request
  | findText via n request default =>
    rw [act, findTextBy_snd]
    exact measurements_findAllBy w via n request

namespace Intact

theorem empty : Intact {} where
  kept := .empty fun _ hs => absurd hs List.not_mem_nil
  taken := .empty fun _ hx => absurd hx List.not_mem_nil

variable (h : w.Intact)

include h

theorem of_measurements_eq (hsame : w'.measurements = w.measurements) : w'.Intact := by
  obtain ⟨hprofilers, hrest⟩ := Prod.mk.inj hsame
  obtain ⟨hsessions, hphases⟩ := Prod.mk.inj hrest
  constructor
  · rw [hprofilers, hsessions]
    exact h.kept
  · rw [hsessions, hphases]
    exact h.taken

theorem of_phases_size (hprofilers : w'.profilers = w.profilers)
    (hsessions : w'.sessions = w.sessions) (hphases : w.phases.size ≤ w'.phases.size) :
    w'.Intact := by
  constructor
  · rw [hprofilers, hsessions]
    exact h.kept
  · rw [hsessions]
    exact fun s x hx => Nat.lt_of_lt_of_le (h.taken s x hx) hphases

theorem of_measures (hm : w.Measures w') : w'.Intact := by
  constructor
  · intro q s hs
    rw [hm.size_eq]
    rcases List.mem_cons.1 (hm.kept q hs) with rfl | hs
    · exact Nat.lt_succ_self _
    · exact Nat.lt_succ_of_lt (h.kept q s hs)
  · intro s x hx
    by_cases hnext : s = w.nextSession
    · rw [hnext] at hx
      exact hm.phases_mem x hx
    · rw [hm.session_eq s hnext] at hx
      exact Nat.lt_of_lt_of_le (h.taken s x hx) hm.phases_extend.size_le

theorem modifySession {s : Slot LiveSession} {g : LiveSession → LiveSession}
    (hg : ∀ x ∈ (g (w.sessions.get s)).phases, x.index < w.phases.size) :
    (w.modifySession s g).Intact := by
  constructor
  · show w.profilers.All fun q => ∀ s ∈ q.sessions, s.index < (w.sessions.modify _ g).size
    rw [Registry.size_modify]
    exact h.kept
  · intro t
    show ∀ x ∈ ((w.sessions.modify s g).get t).phases, x.index < w.phases.size
    rw [Registry.get_modify]
    split
    · next hts => exact hts.1 ▸ hg
    · exact h.taken t

theorem addSession (s : Session Phase) : (w.addSession s).2.Intact := by
  constructor
  · intro q t ht
    refine Nat.lt_of_lt_of_eq (Nat.lt_succ_of_lt (h.kept q t ht)) ?_
    exact (Registry.size_add _ _).symm
  · refine Registry.All.add (fun t x hx => ?_) fun x hx => Registry.index_addAll_lt hx
    exact Nat.lt_of_lt_of_le (h.taken t x hx) (Registry.size_le_addAll w.phases s.phases)

theorem addProfiler (settings : Option (Slot SharedSettings)) (tracksMemory : Json) :
    (w.addProfiler settings tracksMemory).2.Intact := by
  have hmatcher := h.of_measurements_eq (measurements_addMatcher w settings .null none)
  exact ⟨hmatcher.kept.add fun _ hs => absurd hs List.not_mem_nil, hmatcher.taken⟩

theorem endSession (p : Slot Profiler) {s : Slot LiveSession} (hs : s.index < w.sessions.size) :
    (w.endSession p s).Intact := by
  have hended : (w.modifySession s fun session => { session with ended := w.now.1 }).Intact :=
    h.modifySession (h.taken s)
  refine ⟨hended.kept.modify (fun q hq t ht => ?_) p, hended.taken⟩
  rcases List.mem_append.1 ht with ht | ht
  · exact hq t ht
  · rw [List.mem_singleton.1 ht]
    exact Nat.lt_of_lt_of_eq hs (Registry.size_modify _ _ _).symm

theorem clearSessions (p : Slot Profiler) : (w.clearSessions p).Intact :=
  ⟨h.kept.modify (fun _ _ _ hs => absurd hs List.not_mem_nil) p, h.taken⟩

theorem startPhase (p : Slot Profiler) (name : Json) : (w.startPhase p name).2.Intact := by
  obtain ⟨phase, -, -, hphases, hsessions⟩ := w.startPhase_eq p name
  refine h.of_phases_size (Undisturbed.startPhase w p name).profilers_eq hsessions ?_
  rw [hphases, Registry.size_add]
  exact Nat.le_succ _

theorem setOperations (x : Slot Phase) (operations : Json) :
    (w.setOperations x operations).Intact :=
  h.of_phases_size rfl rfl (Nat.le_of_eq (Registry.size_modify _ _ _).symm)

theorem endPhase (p : Slot Profiler) (s : Slot LiveSession) {x : Slot Phase}
    (hx : x.index < w.phases.size) : (w.endPhase p s x).Intact := by
  obtain ⟨g, -, hphases, hsessions⟩ := w.endPhase_eq p s x
  have htaken : (w.modifySession s fun session =>
      { session with phases := session.phases ++ [x] }).Intact := by
    refine h.modifySession fun y hy => ?_
    rcases List.mem_append.1 hy with hy | hy
    · exact h.taken s y hy
    · rwa [List.mem_singleton.1 hy]
  refine htaken.of_phases_size (Undisturbed.endPhase w p s x).profilers_eq hsessions ?_
  rw [hphases, Registry.size_modify]
  exact Nat.le_refl _

theorem perform {d : Deed} (hd : d.Refers w) : (w.perform d).Intact := by
  cases d with
  | addPath | assignQueryField | assignLogField | generateReport => exact h.of_measurements_eq rfl
  | addProfiler settings tracksMemory => exact h.addProfiler settings tracksMemory
  | profileQuery p id n request => exact h.of_measures (w.measures_profileQuery p id n request)
  | addSession s => exact h.addSession s
  | startSession p id expression treeSize =>
    exact h.of_measures (.startSession w p id expression treeSize)
  | endSession p s => exact h.endSession p hd
  | clearSessions p => exact h.clearSessions p
  | startPhase p name => exact h.startPhase p name
  | setOperations x operations => exact h.setOperations x operations
  | endPhase p s x => exact h.endPhase p s hd.2

/-- Sessions that profilers keep are told apart from one that is made by a query, and say the same
after it. -/
theorem sessionOf_eq (hm : w.Measures w') {p : Slot Profiler} {s : Slot LiveSession}
    (hs : s ∈ (w.profilers.get p).sessions) :
    s ≠ w.nextSession ∧ w'.sessionOf s = w.sessionOf s := by
  have hne : s ≠ w.nextSession := by
    rintro rfl
    exact Nat.lt_irrefl _ (h.kept p _ hs)
  refine ⟨hne, ?_⟩
  rw [sessionOf, sessionOf, hm.session_eq s hne, Session.mapPhases, Session.mapPhases]
  congr 1
  exact List.map_congr_left fun x hx => hm.phases_extend.get_eq x (h.taken s x hx)

end Intact

namespace Evolves

variable (h : w.Evolves)

include h

theorem intact : w.Intact := by
  induction h with
  | start => exact .empty
  | change forest log clock memory memoryKnown _ ih => exact ih.of_measurements_eq rfl
  | act a _ ih => exact ih.of_measurements_eq (measurements_act _ a)
  | perform d _ hd ih => exact ih.perform hd
  | addPhase x _ ih =>
    refine ih.of_phases_size rfl rfl ?_
    rw [Registry.size_add]
    exact Nat.le_succ _
  | modifyPhase x g _ ih =>
    exact ih.of_phases_size rfl rfl (Nat.le_of_eq (Registry.size_modify _ _ _).symm)
  | modifySession s g _ hg ih => exact ih.modifySession hg

theorem allEquipped : w.AllEquipped := by
  induction h with
  | start => exact fun p hp => absurd hp (Nat.not_lt_zero _)
  | change | addPhase | modifyPhase | modifySession =>
    next ih => exact ih.of_grows (.of_eq rfl (Nat.le_refl _) rfl)
  | act a _ ih => exact ih.of_grows (.act _ a)
  | perform d _ _ ih => exact ih.perform d

end Evolves

end TreePath.Workspace
