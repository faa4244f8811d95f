import Mathlib.Algebra.GroupWithZero.Nat
import TreePath.Proofs.Workspace.Recent
import TreePath.Proofs.Workspace.Transparency

namespace TreePath

namespace Path

def accepted (texts : List String) : Nat :=
  texts.countP fun text => (ofText text).isOk

def rejected (texts : List String) : Nat :=
  texts.countP fun text => !(ofText text).isOk

theorem accepted_concat (texts : List String) (text : String) :
    accepted (texts ++ [text]) = accepted texts + if (ofText text).isOk then 1 else 0 := by
  rw [accepted, List.countP_append, List.countP_singleton, accepted]

theorem rejected_concat (texts : List String) (text : String) :
    rejected (texts ++ [text]) = rejected texts + if !(ofText text).isOk then 1 else 0 := by
  rw [rejected, List.countP_append, List.countP_singleton, rejected]

end Path

namespace Metrics

/-- The texts were asked for, while paths were kept or while they were not. -/
structure CountsTexts (caching : Bool) (texts : List String) (n : Metrics) : Prop where
  kept : caching = true → n.cacheHits + n.cacheMisses = texts.length ∧
    n.cacheMisses = n.compilations + Path.rejected texts
  read : caching = false → n.cacheHits = 0 ∧ n.cacheMisses = 0 ∧
    n.compilations = Path.accepted texts

structure CountsRuns (found : List Selection) (n : Metrics) : Prop where
  runs_eq : n.runs = found.length
  returned_eq : n.returned = (found.map (·.members.length)).sum
  yielded_eq : n.yielded = (found.map (·.yielded)).sum

def countAsked (caching known : Bool) : Option String → Metrics → Metrics
  | some text => countText caching known (Path.ofText text).isOk
  | none => id

def countFound (time : Float) : Option Selection → Metrics → Metrics
  | some sel => countRun sel.yielded sel.members.length time
  | none => id

variable {n : Metrics} {caching known accepted : Bool} {texts : List String}
  {found : List Selection} {text? : Option String} {sel? : Option Selection} {time : Float}

theorem countText_runs (caching known accepted : Bool) (n : Metrics) :
    (countText caching known accepted n).runs = n.runs ∧
    (countText caching known accepted n).returned = n.returned ∧
    (countText caching known accepted n).yielded = n.yielded := by
  cases caching <;> cases known <;> cases accepted <;> exact ⟨rfl, rfl, rfl⟩

theorem countFound_texts (time : Float) (sel? : Option Selection) (n : Metrics) :
    (countFound time sel? n).cacheHits = n.cacheHits ∧
    (countFound time sel? n).cacheMisses = n.cacheMisses ∧
    (countFound time sel? n).compilations = n.compilations := by
  cases sel? <;> exact ⟨rfl, rfl, rfl⟩

theorem others_countAsked (h : n.others = []) : (countAsked caching known text? n).others = [] := by
  cases text? with
  | none => exact h
  | some text =>
    rw [countAsked]
    cases caching <;> cases known <;> cases (Path.ofText text).isOk <;>
      simp [countText, countHit, countMiss, countCompilation, advance, h]

theorem others_countFound (h : n.others = []) : (countFound time sel? n).others = [] := by
  cases sel? with
  | none => exact h
  | some sel => simp [countFound, countRun, advance, h]

theorem CountsRuns.countAsked (h : n.CountsRuns found) :
    (countAsked caching known text? n).CountsRuns found := by
  cases text? with
  | none => exact h
  | some text =>
    obtain ⟨hruns, hreturned, hyielded⟩ :=
      countText_runs caching known (Path.ofText text).isOk n
    exact ⟨hruns.trans h.runs_eq, hreturned.trans h.returned_eq, hyielded.trans h.yielded_eq⟩

theorem CountsRuns.countFound (h : n.CountsRuns found) :
    (countFound time sel? n).CountsRuns (found ++ sel?.toList) := by
  cases sel? with
  | none =>
    rw [Option.toList_none, List.append_nil]
    exact h
  | some sel =>
    obtain ⟨hruns, hreturned, hyielded⟩ := h
    refine ⟨?_, ?_, ?_⟩ <;> simp [Metrics.countFound, countRun, hruns, hreturned, hyielded]

theorem CountsTexts.countFound (h : n.CountsTexts caching texts) :
    (countFound time sel? n).CountsTexts caching texts := by
  obtain ⟨hhits, hmisses, hmade⟩ := countFound_texts time sel? n
  constructor
  · rw [hhits, hmisses, hmade]
    exact h.kept
  · rw [hhits, hmisses, hmade]
    exact h.read

theorem CountsTexts.countText {text : String} (h : n.CountsTexts caching texts)
    (hknown : known = true → (Path.ofText text).isOk = true) :
    (countText caching known (Path.ofText text).isOk n).CountsTexts caching (texts ++ [text]) := by
  obtain ⟨hkept, hread⟩ := h
  constructor
  · rintro rfl
    obtain ⟨hasked, hrefused⟩ := hkept rfl
    rw [Path.rejected_concat, List.length_append, List.length_singleton]
    cases known with
    | true =>
      rw [hknown rfl]
      simp [Metrics.countText, countHit]
      omega
    | false =>
      cases (Path.ofText text).isOk <;>
        simp [Metrics.countText, countCompilation, countMiss] <;> omega
  · rintro rfl
    obtain ⟨hhits, hmisses, hmade⟩ := hread rfl
    rw [Path.accepted_concat]
    cases (Path.ofText text).isOk with
    | true => simp [Metrics.countText, countCompilation, hhits, hmisses, hmade]
    | false => simp [Metrics.countText, hhits, hmisses, hmade]

theorem CountsTexts.countAsked (h : n.CountsTexts caching texts)
    (hknown : known = true → ∀ s ∈ text?, (Path.ofText s).isOk = true) :
    (countAsked caching known text? n).CountsTexts caching (texts ++ text?.toList) := by
  cases text? with
  | none =>
    rw [Option.toList_none, List.append_nil]
    exact h
  | some text => exact h.countText fun hk => hknown hk text rfl

end Metrics

namespace Workspace

inductive Question where
  | text (s : String)
  | path (p : Prepared)

namespace Question

def request : Question → Request
  | text s => .text s
  | path p => .path p

def text? : Question → Option String
  | text s => some s
  | path _ => none

/-- The path that is asked for, unless the text is no path. -/
def path? : Question → Option Path
  | text s => (Path.ofText s).toOption
  | path p => some p.path

/-- What is found from an element, unless the question is refused. -/
def selection? (f : Forest) (x : ElementId) (a : Question) : Option Selection :=
  a.path?.bind fun p => (f.select p x).toOption

end Question

inductive Ask where
  | compile (a : Question)
  | findAll (x : ElementId) (a : Question)
  | find (x : ElementId) (a : Question)
  | findText (x : ElementId) (a : Question) (default : Json)
  | clearCache

namespace Ask

def text? : Ask → Option String
  | compile a | findAll _ a | find _ a | findText _ a _ => a.text?
  | clearCache => none

def selection? (f : Forest) : Ask → Option Selection
  | findAll x a | find x a | findText x a _ => a.selection? f x
  | compile _ | clearCache => none

end Ask

def ask (w : Workspace) (m : Slot Matcher) : Ask → Workspace
  | .compile a => (w.prepare m a.request).2
  | .findAll x a => (w.findAll m x a.request).2
  | .find x a => (w.find m x a.request).2
  | .findText x a default => (w.findText m x a.request default).2
  | .clearCache => w.clearCache (w.matchers.get m).compiler

def asks (w : Workspace) (m : Slot Matcher) (calls : List Ask) : Workspace :=
  calls.foldl (·.ask m) w

def counts (w : Workspace) (m : Slot Matcher) : Metrics :=
  w.metrics.get (w.matchers.get m).metrics

/-- The matcher has a compiler of its own, with which it shares its metrics and its settings. -/
structure Owns (w : Workspace) (m : Slot Matcher) (c : Slot Compiler) (q : QuerySettings)
    (g : Logger) : Prop extends w.Runs c q g where
  compiler_eq : (w.matchers.get m).compiler = c
  metrics_eq : (w.matchers.get m).metrics = (w.compilers.get c).metrics
  query_eq : (w.settingsOf (w.matchers.get m).settings).query = q

variable {w w' : Workspace} {m : Slot Matcher} {c : Slot Compiler} {q : QuerySettings} {g : Logger}
  {f : Forest} {x : ElementId} {request : Request}

namespace Owns

theorem addMatcher (w : Workspace) (s : Slot SharedSettings) (correlation : Json) :
    let made := w.addMatcher (some s) correlation none
    made.2.Owns made.1 (made.2.matchers.get made.1).compiler (w.settingsOf s).query
      (Compiler.logger (w.trackedCorrelation s correlation)) := by
  intro made
  have hindex {α : Type} (r : Registry α) (a : α) : (r.add a).1.index < (r.add a).2.size := by
    rw [Registry.size_add]
    exact Nat.lt_succ_self _
  refine ⟨⟨?_, ?_, ?_, ?_⟩, rfl, ?_, ?_⟩ <;>
    simp only [made, Workspace.addMatcher, settingsOrNew, compilerOrNew, addCompiler,
      querySettingsOrNew, metricsOrNew, addMetrics, Registry.get_add]
  · exact hindex _ _
  · exact hindex _ _
  · rfl
  · rfl

theorem counts_eq (h : w.Owns m c q g) : w.counts m = (w.compilerState c).metrics := by
  rw [counts, h.metrics_eq]
  rfl

theorem faithful (h : w.Owns m c q g) (ha : w.Answers m) :
    Compiler.Faithful (w.compilerState c).cache := by
  have hkept := ha.faithful
  rwa [h.compiler_eq] at hkept

theorem caching (h : w.Owns m c q g) (ha : w.Answers m) : ∃ v, q.caching = .ok v := by
  obtain ⟨v, hv⟩ := ha.caching
  rw [h.compiler_eq, h.settings_eq] at hv
  exact ⟨v, hv⟩

theorem of_runs (h : w.Owns m c q g) (hruns : w'.Runs c q g) (hmatchers : w'.matchers = w.matchers)
    (hmetrics : (w'.compilers.get c).metrics = (w.compilers.get c).metrics)
    (hsettings : w'.settings = w.settings) (hquery : w'.querySettings = w.querySettings) :
    w'.Owns m c q g := by
  refine ⟨hruns, ?_, ?_, ?_⟩
  · rw [hmatchers]
    exact h.compiler_eq
  · rw [hmatchers, hmetrics]
    exact h.metrics_eq
  · have hq := h.query_eq
    rw [settingsOf] at hq ⊢
    rw [hmatchers, hsettings, hquery]
    exact hq

theorem compile (h : w.Owns m c q g) (request : Request) :
    (w.compile c request).2.Owns m c q g := by
  apply h.of_runs (h.toRuns.compile request) rfl _ rfl rfl
  rw [h.toRuns.get_compile]

theorem prepare (h : w.Owns m c q g) (request : Request) :
    (w.prepare m request).2.Owns m c q g := by
  have hcompile (request : Request) :
      (w.compile (w.matchers.get m).compiler request).2.Owns m c q g := by
    rw [h.compiler_eq]
    exact h.compile request
  cases request with
  | text s => exact hcompile (.text s)
  | path p => exact h
  | other isKey => exact hcompile (.other isKey)

theorem clearCache (h : w.Owns m c q g) : (w.clearCache c).Owns m c q g := by
  apply h.of_runs h.toRuns.clearCache rfl _ rfl rfl
  rw [h.toRuns.get_clearCache]

theorem now (h : w.Owns m c q g) : w.now.2.Owns m c q g :=
  h.of_runs ⟨h.compiler_mem, h.metrics_mem, h.settings_eq, h.logger_eq⟩ rfl rfl rfl rfl

theorem noteRun (h : w.Owns m c q g) (p : Path) (sel : Selection) (time : Float) :
    (w.noteRun m p x sel time).Owns m c q g ∧
    (w.noteRun m p x sel time).counts m =
      q.count (.countRun sel.yielded sel.members.length time) (w.counts m) := by
  have hmem : (w.matchers.get m).metrics.index < w.metrics.size := by
    rw [h.metrics_eq]
    exact h.metrics_mem
  constructor
  · refine h.of_runs ⟨h.compiler_mem, ?_, h.settings_eq, h.logger_eq⟩ rfl rfl rfl rfl
    rw [Workspace.noteRun, Registry.size_modify]
    exact h.metrics_mem
  · rw [← h.query_eq]
    exact Registry.get_modify_self _ hmem

theorem run (h : w.Owns m c q g) (p : Path) (x : ElementId) :
    (w.run m p x).2.Owns m c q g ∧
    ∃ time, (w.run m p x).2.counts m =
      q.count (.countFound time (w.forest.select p x).toOption) (w.counts m) := by
  have hforest : w.now.2.forest = w.forest := rfl
  rw [← hforest]
  dsimp only [Workspace.run]
  cases w.now.2.forest.select p x with
  | error e => exact ⟨h.now, 0, (ite_self _).symm⟩
  | ok sel =>
    obtain ⟨howns, hcounts⟩ := h.now.now.noteRun (x := x) p sel _
    exact ⟨howns, _, hcounts⟩

theorem findAll (h : w.Owns m c q g) (x : ElementId) (request : Request) :
    (w.findAll m x request).2.Owns m c q g := by
  have hprepare := h.prepare request
  rw [Workspace.findAll]
  cases hanswer : w.prepare m request with
  | mk answer after =>
    rw [hanswer] at hprepare
    cases answer with
    | error e => exact hprepare
    | ok p => exact (hprepare.run p.path x).1

theorem ask (h : w.Owns m c q g) (call : Ask) : (w.ask m call).Owns m c q g := by
  cases call with
  | compile a => exact h.prepare a.request
  | findAll x a => exact h.findAll x a.request
  | find x a => exact h.findAll x a.request
  | findText x a default => exact h.findAll x a.request
  | clearCache =>
    rw [Workspace.ask, h.compiler_eq]
    exact h.clearCache

theorem counts_prepare (h : w.Owns m c q g) (ha : w.Answers m) {v : Json} (hv : q.caching = .ok v)
    (a : Question) :
    ∃ known, (known = true → ∀ s ∈ a.text?, (Path.ofText s).isOk = true) ∧
      (w.prepare m a.request).2.counts m =
        q.count (.countAsked v.truthy known a.text?) (w.counts m) := by
  cases a with
  | path p => exact ⟨false, nofun, (ite_self _).symm⟩
  | text s =>
    refine ⟨((w.compilerState c).cache.find? s).isSome, ?_, ?_⟩
    · intro hknown s' hs'
      cases hs'
      obtain ⟨p, hp⟩ := Option.isSome_iff_exists.1 hknown
      rw [(h.faithful ha).ofText_of_find? hp]
      rfl
    · have hcompile : w.prepare m (.text s) = w.compile c (.text s) := by
        rw [← h.compiler_eq]
        rfl
      have howns := h.prepare (.text s)
      rw [Question.request, howns.counts_eq, hcompile, h.toRuns.compilerState_compile, h.counts_eq]
      exact Compiler.metrics_prepare hv

end Owns

theorem path_prepare (ha : w.Answers m) (a : Question) :
    (w.prepare m a.request).1.toOption.map (·.path) = a.path? := by
  cases a with
  | path p => rfl
  | text s =>
    have hpath := congrArg Except.toOption (ha.path_prepare s)
    rwa [Except.toOption_map, Except.toOption_mapError] at hpath

theorem findAll_fst (ha : w.Answers m) (x : ElementId) (a : Question) :
    (w.findAll m x a.request).1.toOption = (a.selection? w.forest x).map (·.members) := by
  have hpath := path_prepare ha a
  have hforest := w.forest_prepare m a.request
  rw [Workspace.findAll, Question.selection?, ← hpath, ← hforest]
  cases w.prepare m a.request with
  | mk answer after =>
    cases answer with
    | error e => rfl
    | ok p =>
      show (after.run m p.path x).1.toOption = (after.forest.select p.path x).toOption.map _
      rw [run_fst, Except.toOption_map, Except.toOption_mapError]

namespace Owns

theorem counts_findAll (h : w.Owns m c q g) (ha : w.Answers m) {v : Json} (hv : q.caching = .ok v)
    (x : ElementId) (a : Question) :
    ∃ known time, (known = true → ∀ s ∈ a.text?, (Path.ofText s).isOk = true) ∧
      (w.findAll m x a.request).2.counts m = q.count (.countFound time (a.selection? w.forest x) ∘
        .countAsked v.truthy known a.text?) (w.counts m) := by
  obtain ⟨known, hknown, hcounts⟩ := h.counts_prepare ha hv a
  have howns := h.prepare a.request
  have hpath := path_prepare ha a
  have hforest := w.forest_prepare m a.request
  rw [Workspace.findAll, Question.selection?, ← hpath, ← hforest]
  cases hprepare : w.prepare m a.request with
  | mk answer after =>
    rw [hprepare] at howns hcounts
    cases answer with
    | error e => exact ⟨known, 0, hknown, hcounts⟩
    | ok p =>
      obtain ⟨_, time, htime⟩ := howns.run p.path x
      refine ⟨known, time, hknown, ?_⟩
      rw [← QuerySettings.count_count, ← hcounts]
      exact htime

/-- What a call counts. The answer to a text that is refused is no answer that was kept. -/
theorem counts_ask (h : w.Owns m c q g) (ha : w.Answers m) {v : Json} (hv : q.caching = .ok v)
    (call : Ask) :
    ∃ known time, (known = true → ∀ s ∈ call.text?, (Path.ofText s).isOk = true) ∧
      (w.ask m call).counts m = q.count (.countFound time (call.selection? w.forest) ∘
        .countAsked v.truthy known call.text?) (w.counts m) := by
  cases call with
  | compile a =>
    obtain ⟨known, hknown, hcounts⟩ := h.counts_prepare ha hv a
    exact ⟨known, 0, hknown, hcounts⟩
  | findAll x a => exact h.counts_findAll ha hv x a
  | find x a => exact h.counts_findAll ha hv x a
  | findText x a default => exact h.counts_findAll ha hv x a
  | clearCache => exact ⟨false, 0, nofun, (ite_self _).symm⟩

end Owns

theorem Serves.ask (h : w.Serves f) (m : Slot Matcher) (call : Ask) : (w.ask m call).Serves f := by
  cases call with
  | compile a => exact h.prepare m a.request
  | findAll x a => exact h.findAll m x a.request
  | find x a => exact h.findAll m x a.request
  | findText x a default => exact h.findAll m x a.request
  | clearCache => exact h.clearCache _

theorem asks_concat (w : Workspace) (m : Slot Matcher) (calls : List Ask) (call : Ask) :
    w.asks m (calls ++ [call]) = (w.asks m calls).ask m call :=
  List.foldl_concat ..

theorem Serves.asks (h : w.Serves f) (m : Slot Matcher) (calls : List Ask) :
    (w.asks m calls).Serves f := by
  induction calls using List.reverseRecOn with
  | nil => exact h
  | append_singleton calls call ih =>
    rw [asks_concat]
    exact ih.ask m call

theorem Owns.asks (h : w.Owns m c q g) (calls : List Ask) : (w.asks m calls).Owns m c q g := by
  induction calls using List.reverseRecOn with
  | nil => exact h
  | append_singleton calls call ih =>
    rw [asks_concat]
    exact ih.ask call

theorem Owns.counts_asks_of_off (h : w.Owns m c q g) (hs : w.Serves f)
    (hoff : ¬ q.enableMetrics.truthy = true) (calls : List Ask) :
    (w.asks m calls).counts m = w.counts m := by
  induction calls using List.reverseRecOn with
  | nil => rfl
  | append_singleton calls call ih =>
    have hserves := hs.asks m calls
    obtain ⟨v, hv⟩ := h.caching (hs.answers m)
    obtain ⟨known, time, -, hcounts⟩ := (h.asks calls).counts_ask (hserves.answers m) hv call
    rw [asks_concat, hcounts, QuerySettings.count, if_neg hoff]
    exact ih

theorem Owns.counts_asks (h : w.Owns m c q g) (hs : w.Serves f)
    (hon : q.enableMetrics.truthy = true) (hzero : w.counts m = {}) {v : Json}
    (hv : q.caching = .ok v) (calls : List Ask) :
    ((w.asks m calls).counts m).CountsRuns (calls.filterMap (·.selection? f)) ∧
    ((w.asks m calls).counts m).CountsTexts v.truthy (calls.filterMap (·.text?)) ∧
    ((w.asks m calls).counts m).others = [] := by
  induction calls using List.reverseRecOn with
  | nil =>
    show (w.counts m).CountsRuns [] ∧ (w.counts m).CountsTexts v.truthy [] ∧
      (w.counts m).others = []
    rw [hzero]
    exact ⟨⟨rfl, rfl, rfl⟩, ⟨fun _ => ⟨rfl, rfl⟩, fun _ => ⟨rfl, rfl, rfl⟩⟩, rfl⟩
  | append_singleton calls call ih =>
    have hserves := hs.asks m calls
    obtain ⟨known, time, hknown, hcounts⟩ := (h.asks calls).counts_ask (hserves.answers m) hv call
    obtain ⟨hruns, htexts, hothers⟩ := ih
    have hlast {α : Type} (k : Ask → Option α) :
        (calls ++ [call]).filterMap k = calls.filterMap k ++ (k call).toList := by
      rw [List.filterMap_append]
      cases hk : k call <;> simp [hk]
    rw [asks_concat, hcounts, QuerySettings.count, if_pos hon, hlast, hlast, hserves.forest_eq]
    refine ⟨hruns.countAsked.countFound, (htexts.countAsked hknown).countFound, ?_⟩
    exact Metrics.others_countFound (Metrics.others_countAsked hothers)

theorem Owns.texts_ask_of_path (h : w.Owns m c q g) (hs : w.Serves f) {call : Ask}
    (hcall : call.text? = none) :
    ((w.ask m call).counts m).compilations = (w.counts m).compilations ∧
    ((w.ask m call).counts m).cacheHits = (w.counts m).cacheHits ∧
    ((w.ask m call).counts m).cacheMisses = (w.counts m).cacheMisses := by
  obtain ⟨v, hv⟩ := h.caching (hs.answers m)
  obtain ⟨known, time, -, hcounts⟩ := h.counts_ask (hs.answers m) hv call
  rw [hcounts, hcall, QuerySettings.count]
  split
  · obtain ⟨hhits, hmisses, hmade⟩ :=
      Metrics.countFound_texts time (call.selection? w.forest) (w.counts m)
    exact ⟨hmade, hhits, hmisses⟩
  · exact ⟨rfl, rfl, rfl⟩

theorem Serves.answers_question (h : w.Serves f) (m : Slot Matcher) (x : ElementId) (a : Question) :
    (w.findAll m x a.request).1.toOption = (a.selection? f x).map (·.members) ∧
    (w.find m x a.request).1.toOption = (a.selection? f x).map (·.members.head?) ∧
    ∀ default, (w.findText m x a.request default).1.toOption =
      (a.selection? f x).map fun sel => f.firstText default sel.members := by
  have hall := findAll_fst (h.answers m) x a
  have hforest := (h.findAll m x a.request).forest_eq
  rw [h.forest_eq] at hall
  refine ⟨hall, ?_, ?_⟩
  · have hfind : (w.find m x a.request).1 = (w.findAll m x a.request).1.map List.head? := rfl
    rw [hfind, Except.toOption_map, hall, Option.map_map]
    rfl
  · intro default
    rw [findText, find, textOf_firstOf_fst, hforest, Except.toOption_map, hall, Option.map_map]
    rfl

/-- Whatever a matcher with a compiler of its own was asked, its metrics account for it, if they
were new: the runs are the questions that were answered, with what their steps yielded and what they
found. While paths are kept, a text is a hit or a miss, and a miss is a new path or a refusal. Where
the settings do not ask for it nothing is counted. -/
theorem Owns.accounts (h : w.Owns m c q g) (hs : w.Serves f) (calls : List Ask) :
    let after := w.asks m calls
    let n := after.counts m
    let found := calls.filterMap (·.selection? f)
    let texts := calls.filterMap (·.text?)
    (w.counts m = {} → q.enableMetrics.truthy = true →
      n.runs = found.length ∧
      n.returned = ((found.map (·.members.length)).sum : Nat) ∧
      n.yielded = ((found.map (·.yielded)).sum : Nat) ∧
      (q.KeepsPaths → n.cacheHits + n.cacheMisses = texts.length ∧
        n.cacheMisses = n.compilations + Path.rejected texts) ∧
      (¬ q.KeepsPaths → n.cacheHits = 0 ∧ n.cacheMisses = 0 ∧
        n.compilations = Path.accepted texts) ∧
      ∀ counter, n.value counter = .int (n.count counter)) ∧
    (¬ q.enableMetrics.truthy = true → n = w.counts m) ∧
    (∀ call, call.text? = none → ((after.ask m call).counts m).compilations = n.compilations ∧
      ((after.ask m call).counts m).cacheHits = n.cacheHits ∧
      ((after.ask m call).counts m).cacheMisses = n.cacheMisses) ∧
    (∀ a : Question, (after.prepare m a.request).1.toOption.map (·.path) = a.path?) ∧
    (∀ x (a : Question),
      (after.findAll m x a.request).1.toOption = (a.selection? f x).map (·.members) ∧
      (after.find m x a.request).1.toOption = (a.selection? f x).map (·.members.head?) ∧
      ∀ default, (after.findText m x a.request default).1.toOption =
        (a.selection? f x).map fun sel => f.firstText default sel.members) ∧
    (∀ p x sel, f.select p x = .ok sel →
      sel.yielded = f.fanOut p.steps (f.seedMembers p.seed x).eraseDups) := by
  intro after n found texts
  have hafter := h.asks calls
  have hserves := hs.asks m calls
  obtain ⟨v, hv⟩ := h.caching (hs.answers m)
  have hkeeps := QuerySettings.truthy_caching hv
  refine ⟨?_, ?_, ?_, ?_, ?_, ?_⟩
  · intro hzero hon
    obtain ⟨hruns, htexts, hothers⟩ := h.counts_asks hs hon hzero hv calls
    refine ⟨hruns.runs_eq, hruns.returned_eq, hruns.yielded_eq, ?_, ?_, ?_⟩
    · intro hq
      exact htexts.kept (hkeeps.2 hq)
    · intro hq
      apply htexts.read
      rw [← Bool.not_eq_true, hkeeps]
      exact hq
    · intro counter
      rw [Metrics.value, hothers]
      rfl
  · intro hoff
    exact h.counts_asks_of_off hs hoff calls
  · intro call hcall
    exact hafter.texts_ask_of_path hserves hcall
  · intro a
    exact path_prepare (hserves.answers m) a
  · intro x a
    exact hserves.answers_question m x a
  · intro p x sel hsel
    exact Forest.yielded_select hsel

/-- A text is asked for twice, another one is refused, and a path goes up from the child that it
finds. -/
theorem Owns.accounts_grove :
    let placed := createSettings { forest := .grove } { query := { cacheSizeLimit := .int 1 } }
    let made := placed.2.addMatcher (some placed.1) .null none
    let up : Path := ⟨"//..", .root, [.descendantOrSelf, .parent]⟩
    let calls := [Ask.findAll ⟨0⟩ (.text "b"), .find ⟨0⟩ (.text "b"), .compile (.text "]"),
      .clearCache, .findText ⟨0⟩ (.path ⟨up, 7⟩) .null]
    let n := (made.2.asks made.1 calls).counts made.1
    made.2.Owns made.1 (made.2.matchers.get made.1).compiler
        (placed.2.settingsOf placed.1).query (Compiler.logger .null) ∧
      made.2.Serves Forest.grove ∧ made.2.counts made.1 = {} ∧
      n.runs = 3 ∧ n.returned = 3 ∧ n.yielded = 5 ∧ n.cacheHits + n.cacheMisses = 3 ∧
      n.cacheMisses = n.compilations + 1 := by
  intro placed made up calls n
  have hserves : Serves { forest := .grove } .grove :=
    ⟨rfl, .empty ⟨_, rfl⟩, .empty Compiler.faithful_empty⟩
  have hs : made.2.Serves .grove := (hserves.createSettings ⟨.int 1, rfl⟩).addMatcher _ .null none
  have h : made.2.Owns made.1 _ _ (Compiler.logger .null) := .addMatcher placed.2 placed.1 .null
  have hread : Step.read? "b".toList = some (.tag "b", []) := by decide
  have hsteps : Step.ofText "b" = .ok [.tag "b"] := by
    rw [Step.ofText_eq_ok_iff, Step.scan_of_some hread, Step.scan_of_none rfl]
  have hb : Path.ofText "b" = .ok ⟨"b", .children, [.tag "b"]⟩ := Path.ofText_eq_ok hsteps
  have hbracket : Path.ofText "]" = .error ⟨"]", 0⟩ := by
    rw [Path.ofText_eq_error, Step.ofText, Step.scan_of_none (by decide)]
    rfl
  have hdown : (Question.text "b").selection? .grove ⟨0⟩ = some ⟨[⟨1⟩], 1⟩ := by
    have hknown : ∀ s ∈ [Step.tag "b"], s.IsKnown := fun s hs => Step.isKnown_of_ofText hsteps hs
    rw [Question.selection?, Question.path?, hb]
    show (Forest.grove.select ⟨"b", .children, [.tag "b"]⟩ ⟨0⟩).toOption = _
    rw [Forest.select_eq_of_isKnown hknown]
    rfl
  have hup : (Question.path ⟨up, 7⟩).selection? .grove ⟨0⟩ = some ⟨[⟨0⟩], 3⟩ := by
    have hknown : ∀ s ∈ up.steps, s.IsKnown := by
      intro s hs label hkind
      simp only [up, List.mem_cons, List.not_mem_nil, or_false] at hs
      rcases hs with rfl | rfl <;> cases hkind
    show (Forest.grove.select up ⟨0⟩).toOption = _
    rw [Forest.select_eq_of_isKnown hknown]
    rfl
  have hfound : calls.filterMap (·.selection? .grove) = [⟨[⟨1⟩], 1⟩, ⟨[⟨1⟩], 1⟩, ⟨[⟨0⟩], 3⟩] := by
    simp only [calls, List.filterMap, Ask.selection?, hdown, hup]
  have htexts : calls.filterMap (·.text?) = ["b", "b", "]"] := rfl
  have hrejected : Path.rejected ["b", "b", "]"] = 1 := by
    rw [Path.rejected, List.countP_cons, List.countP_cons, List.countP_cons, hb, hbracket]
    rfl
  obtain ⟨hon, -⟩ := h.accounts hs calls
  rw [hfound, htexts, hrejected] at hon
  obtain ⟨hruns, hreturned, hyielded, hkept, -⟩ := hon rfl rfl
  obtain ⟨hasked, hmisses⟩ := hkept ⟨rfl, .int 1, rfl, by decide⟩
  exact ⟨h, hs, rfl, hruns, hreturned, hyielded, hasked, hmisses⟩

end Workspace

end TreePath
