import TreePath.Proofs.Compiler
import TreePath.Proofs.Match.Runs
import TreePath.Proofs.Registry
import TreePath.Workspace.Query

namespace TreePath

namespace Workspace

variable {w : Workspace} {m : Slot Matcher}

def compilerState (w : Workspace) (c : Slot Compiler) : Compiler.State where
  cache := (w.compilers.get c).cache
  metrics := w.metrics.get (w.compilers.get c).metrics
  log := w.log
  serial := w.serial

/-- The compiler of a matcher answers texts, and keeps paths for the texts that they were read
from. -/
structure Answers (w : Workspace) (m : Slot Matcher) : Prop where
  caching : ∃ v, (w.querySettings.get
    (w.compilers.get (w.matchers.get m).compiler).settings).caching = .ok v
  faithful : Compiler.Faithful (w.compilers.get (w.matchers.get m).compiler).cache

theorem Answers.compile (h : w.Answers m) (request : Request) :
    (w.compile (w.matchers.get m).compiler request).2.Answers m := by
  obtain ⟨⟨caching, hcaching⟩, hkept⟩ := h
  constructor
  · refine ⟨caching, ?_⟩
    dsimp only [Workspace.compile]
    rw [Registry.get_set]
    split <;> exact hcaching
  · dsimp only [Workspace.compile]
    rw [Registry.get_set]
    split
    · exact hkept.prepare request
    · exact hkept

theorem Answers.prepare (h : w.Answers m) (request : Request) :
    (w.prepare m request).2.Answers m := by
  cases request with
  | text text => exact h.compile (.text text)
  | path p => exact h
  | other isKey => exact h.compile (.other isKey)

theorem Answers.findAll (h : w.Answers m) (x : ElementId) (request : Request) :
    (w.findAll m x request).2.Answers m := by
  have hprepared := h.prepare request
  unfold Workspace.findAll
  cases hanswer : w.prepare m request with
  | mk answer after =>
    rw [hanswer] at hprepared
    cases answer with
    | error e => exact hprepared
    | ok p =>
      dsimp only [run]
      cases after.now.2.forest.select p.path x with
      | error e => exact ⟨hprepared.caching, hprepared.faithful⟩
      | ok found => exact ⟨hprepared.caching, hprepared.faithful⟩

theorem Answers.path_prepare (h : w.Answers m) (text : String) :
    (w.prepare m (.text text)).1.map (·.path) = (Path.ofText text).mapError .malformed := by
  obtain ⟨caching, hcaching⟩ := h.caching
  exact Compiler.path_prepare hcaching h.faithful

theorem forest_prepare (w : Workspace) (m : Slot Matcher) (request : Request) :
    (w.prepare m request).2.forest = w.forest := by
  cases request <;> rfl

theorem forest_run (w : Workspace) (m : Slot Matcher) (p : Path) (x : ElementId) :
    (w.run m p x).2.forest = w.forest := by
  have hnow : w.now.2.forest = w.forest := rfl
  rw [← hnow]
  dsimp only [run]
  cases w.now.2.forest.select p x <;> rfl

theorem forest_findAll (w : Workspace) (m : Slot Matcher) (x : ElementId) (request : Request) :
    (w.findAll m x request).2.forest = w.forest := by
  rw [← w.forest_prepare m request]
  unfold findAll
  cases w.prepare m request with
  | mk answer after =>
    cases answer with
    | error e => rfl
    | ok p => exact after.forest_run m p.path x

theorem run_fst (w : Workspace) (m : Slot Matcher) (p : Path) (x : ElementId) :
    (w.run m p x).1 = ((w.forest.select p x).mapError .unsupported).map (·.members) := by
  have hnow : w.now.2.forest = w.forest := rfl
  rw [← hnow]
  dsimp only [run]
  cases w.now.2.forest.select p x <;> rfl

/-- A matcher finds for a text what the text finds in the forest. -/
theorem Answers.findAll_text (h : w.Answers m) (text : String) (x : ElementId) :
    (w.findAll m x (.text text)).1 = w.forest.findAll text x := by
  have hpath := h.path_prepare text
  have hforest := w.forest_prepare m (.text text)
  unfold Workspace.findAll Forest.findAll
  rw [← hpath, ← hforest]
  cases w.prepare m (.text text) with
  | mk answer after =>
    cases answer with
    | error e => rfl
    | ok p =>
      change (after.run m p.path x).1 =
        ((after.forest.select p.path x).mapError .unsupported >>= fun found => .ok found.members)
      rw [run_fst]
      cases after.forest.select p.path x <;> rfl

theorem answers_addMatcher (w : Workspace) (correlation : Json) :
    (w.addMatcher none correlation none).2.Answers (w.addMatcher none correlation none).1 := by
  constructor <;>
    simp only [addMatcher, settingsOrNew, createSettings, addQuerySettings, addLogSettings,
      addSettings, compilerOrNew, addCompiler, querySettingsOrNew, metricsOrNew, addMetrics,
      Registry.get_add]
  · exact ⟨_, rfl⟩
  · exact nofun

theorem answers_ensureDefault (hw : w.defaultMatcher = none) :
    w.ensureDefault.2.Answers w.ensureDefault.1 := by
  have hanswers := w.answers_addMatcher .null
  unfold ensureDefault
  rw [hw]
  exact ⟨hanswers.caching, hanswers.faithful⟩

theorem forest_ensureDefault (w : Workspace) : w.ensureDefault.2.forest = w.forest := by
  unfold ensureDefault
  split <;> rfl

end Workspace

end TreePath
