import TreePath.Proofs.Recent
import TreePath.Proofs.Workspace.Queries

namespace TreePath.Workspace

open Compiler (Call RecentSince heard recent)

def call (w : Workspace) (c : Slot Compiler) : Call → Workspace
  | .compile text => (w.compile c (.text text)).2
  | .clear => w.clearCache c

def calls (w : Workspace) (c : Slot Compiler) (as : List Call) : Workspace :=
  as.foldl (·.call c) w

/-- The compiler is there, with its metrics, and follows these settings. -/
structure Runs (w : Workspace) (c : Slot Compiler) (q : QuerySettings) (g : Logger) : Prop where
  compiler_mem : c.index < w.compilers.size
  metrics_mem : (w.compilers.get c).metrics.index < w.metrics.size
  settings_eq : w.querySettings.get (w.compilers.get c).settings = q
  logger_eq : Compiler.logger (w.compilers.get c).correlation = g

variable {w : Workspace} {c : Slot Compiler} {q : QuerySettings} {g : Logger}

theorem Runs.get_compile (h : w.Runs c q g) (request : Request) :
    (w.compile c request).2.compilers.get c =
      { w.compilers.get c with
        cache := (Compiler.prepare q g request (w.compilerState c)).2.cache } := by
  obtain ⟨hc, _, rfl, rfl⟩ := h
  exact Registry.get_set_self _ hc

theorem Runs.compile_fst (h : w.Runs c q g) (request : Request) :
    (w.compile c request).1 = (Compiler.prepare q g request (w.compilerState c)).1 := by
  obtain ⟨_, _, rfl, rfl⟩ := h
  rfl

theorem Runs.compilerState_compile (h : w.Runs c q g) (request : Request) :
    (w.compile c request).2.compilerState c =
      (Compiler.prepare q g request (w.compilerState c)).2 := by
  have hget := h.get_compile request
  obtain ⟨_, hm, rfl, rfl⟩ := h
  have hmetrics : (w.compile c request).2.metrics.get (w.compilers.get c).metrics = _ :=
    Registry.get_set_self _ hm
  rw [Workspace.compilerState, hget]
  dsimp only
  rw [hmetrics]
  rfl

theorem Runs.compile_text {limit : Nat} (h : w.Runs c q g) (hq : q.Keeps limit) (text : String) :
    (w.compile c (.text text)).1 = (Compiler.lookUp q g text (w.compilerState c)).1 ∧
    (w.compile c (.text text)).2.compilerState c =
      (Compiler.lookUp q g text (w.compilerState c)).2 := by
  rw [h.compile_fst, h.compilerState_compile, Compiler.prepare_of_keeps hq]
  exact ⟨rfl, rfl⟩

theorem Runs.of_get {w' : Workspace} {cache : Recency String Prepared} (h : w.Runs c q g)
    (hget : w'.compilers.get c = { w.compilers.get c with cache })
    (hcompilers : w'.compilers.size = w.compilers.size)
    (hmetrics : w'.metrics.size = w.metrics.size)
    (hsettings : w'.querySettings = w.querySettings) : w'.Runs c q g := by
  constructor
  · rw [hcompilers]
    exact h.compiler_mem
  · rw [hget, hmetrics]
    exact h.metrics_mem
  · rw [hget, hsettings]
    exact h.settings_eq
  · rw [hget]
    exact h.logger_eq

theorem Runs.compile (h : w.Runs c q g) (request : Request) :
    (w.compile c request).2.Runs c q g :=
  h.of_get (h.get_compile request) (Registry.size_set ..) (Registry.size_set ..) rfl

theorem Runs.get_clearCache (h : w.Runs c q g) :
    (w.clearCache c).compilers.get c = { w.compilers.get c with cache := {} } :=
  Registry.get_modify_self _ h.compiler_mem

theorem Runs.compilerState_clearCache (h : w.Runs c q g) :
    (w.clearCache c).compilerState c = Compiler.clear (w.compilerState c) := by
  rw [compilerState, h.get_clearCache]
  rfl

theorem Runs.clearCache (h : w.Runs c q g) : (w.clearCache c).Runs c q g :=
  h.of_get h.get_clearCache (Registry.size_modify ..) rfl rfl

theorem Runs.call (h : w.Runs c q g) (a : Call) :
    (w.call c a).Runs c q g ∧
      (w.call c a).compilerState c = Compiler.respond q g (w.compilerState c) a := by
  cases a with
  | compile text => exact ⟨h.compile _, h.compilerState_compile _⟩
  | clear => exact ⟨h.clearCache, h.compilerState_clearCache⟩

theorem Runs.calls (h : w.Runs c q g) (as : List Call) :
    (w.calls c as).Runs c q g ∧
      (w.calls c as).compilerState c = Compiler.run q g (w.compilerState c) as := by
  induction as generalizing w with
  | nil => exact ⟨h, rfl⟩
  | cons a as ih =>
    obtain ⟨hcall, hstate⟩ := h.call a
    obtain ⟨hcalls, hafter⟩ := ih hcall
    rw [hstate] at hafter
    exact ⟨hcalls, hafter⟩

section Recent

variable {limit : Nat} {calls : List Call} {text : String}

theorem Runs.keys_calls (h : w.Runs c q g) (hq : q.Keeps limit)
    (hempty : (w.compilers.get c).cache = {}) (calls : List Call) :
    ((w.calls c calls).compilerState c).cache.keys = recent limit calls := by
  rw [(h.calls calls).2]
  exact Compiler.keys_run hq hempty calls

theorem Runs.compile_kept (h : w.Runs c q g) (hq : q.Keeps limit)
    (hempty : (w.compilers.get c).cache = {}) (htext : text ∈ recent limit calls) :
    ∃ p, ((w.calls c calls).compile c (.text text)).1 = .ok p ∧
      ((w.calls c calls).compile c (.text text)).2.serial = (w.calls c calls).serial ∧
      ∃ earlier later, calls = earlier ++ .compile text :: later ∧
        RecentSince limit text earlier later ∧
        ((w.calls c earlier).compile c (.text text)).1 = .ok p := by
  obtain ⟨hruns, hstate⟩ := h.calls calls
  obtain ⟨hanswer, hlater⟩ := hruns.compile_text hq text
  have hstart : (w.compilerState c).cache = {} := hempty
  obtain ⟨p, hfind⟩ := Compiler.exists_find?_run (g := g) hq hstart htext
  obtain ⟨earlier, later, hcalls, hsince, hmade⟩ :=
    Compiler.exists_made hq hstart (Recency.mem_of_find? hfind)
  obtain ⟨hearlier, hbefore⟩ := h.calls earlier
  rw [← hbefore, ← (hearlier.compile_text hq text).1] at hmade
  rw [hstate, Compiler.lookUp_of_find hfind] at hanswer hlater
  have hserial := congrArg Compiler.State.serial hlater
  rw [← hstate] at hserial
  exact ⟨p, hanswer, hserial, earlier, later, hcalls, hsince, hmade⟩

theorem Runs.compile_new (h : w.Runs c q g) (hq : q.Keeps limit)
    (hempty : (w.compilers.get c).cache = {}) (htext : text ∉ recent limit calls) {path : Path}
    (hpath : Path.ofText text = .ok path) :
    ((w.calls c calls).compile c (.text text)).1 = .ok ⟨path, (w.calls c calls).serial⟩ ∧
    ((w.calls c calls).compile c (.text text)).2.serial = (w.calls c calls).serial + 1 := by
  obtain ⟨hruns, -⟩ := h.calls calls
  obtain ⟨hanswer, hlater⟩ := hruns.compile_text hq text
  have hfind : ((w.calls c calls).compilerState c).cache.find? text = none := by
    rwa [Recency.find?_eq_none_iff, h.keys_calls hq hempty]
  rw [Compiler.lookUp_of_ok hfind hpath] at hanswer hlater
  exact ⟨hanswer, congrArg Compiler.State.serial hlater⟩

theorem Runs.compile_refused (h : w.Runs c q g) (hq : q.Keeps limit)
    (hempty : (w.compilers.get c).cache = {}) (calls : List Call) {e : Path.Malformed}
    (he : Path.ofText text = .error e) :
    ((w.calls c calls).compile c (.text text)).1 = .error (.malformed e) ∧
    (((w.calls c calls).compile c (.text text)).2.compilers.get c).cache =
      ((w.calls c calls).compilers.get c).cache := by
  obtain ⟨hruns, hstate⟩ := h.calls calls
  obtain ⟨hanswer, hlater⟩ := hruns.compile_text hq text
  have hfind : ((w.calls c calls).compilerState c).cache.find? text = none := by
    rw [hstate]
    exact (Compiler.faithful_run hempty calls).find?_eq_none he
  rw [Compiler.lookUp_of_error hfind he] at hanswer hlater
  exact ⟨hanswer, congrArg Compiler.State.cache hlater⟩

theorem Runs.counts_compile (h : w.Runs c q g) (hq : q.Keeps limit)
    (hempty : (w.compilers.get c).cache = {}) (hmetrics : q.enableMetrics.truthy = true)
    (calls : List Call) (text : String) :
    let before := ((w.calls c calls).compilerState c).metrics
    let later := (((w.calls c calls).compile c (.text text)).2.compilerState c).metrics
    later.cacheHits = before.cacheHits + (if text ∈ recent limit calls then 1 else 0) ∧
    later.cacheMisses = before.cacheMisses + (if text ∈ recent limit calls then 0 else 1) := by
  rw [((h.calls calls).1.compile_text hq text).2, ← h.keys_calls hq hempty]
  exact Compiler.cacheHits_lookUp hmetrics

theorem Runs.serial_calls (h : w.Runs c q g) (hq : q.Keeps limit)
    (hempty : (w.compilers.get c).cache = {}) (hclear : .clear ∉ calls)
    (hroom : (heard calls).dedup.length ≤ limit) :
    (w.calls c calls).serial = w.serial + (heard calls).dedup.length := by
  have hserial := congrArg Compiler.State.serial (h.calls calls).2
  rw [Compiler.serial_run hq hempty hclear hroom] at hserial
  exact hserial

theorem Runs.compilations_calls (h : w.Runs c q g) (hq : q.Keeps limit)
    (hempty : (w.compilers.get c).cache = {}) (hclear : .clear ∉ calls)
    (hroom : (heard calls).dedup.length ≤ limit) (hmetrics : q.enableMetrics.truthy = true) :
    ((w.calls c calls).compilerState c).metrics.compilations =
      (w.compilerState c).metrics.compilations + (heard calls).dedup.length := by
  have hcount := Compiler.compilations_run (g := g) (s := w.compilerState c) hq hmetrics calls
  rw [Compiler.serial_run hq hempty hclear hroom, ← (h.calls calls).2] at hcount
  omega

/-- With a fixed limit the texts heard last are the ones with a path, in this order. Such a text
gets the path that was made for it when it was new, no other is made, and a text that is refused
changes nothing. If there is room for all texts, as many paths are made as there are texts. -/
theorem Runs.keeps_recent (h : w.Runs c q g) (hq : q.Keeps limit)
    (hempty : (w.compilers.get c).cache = {}) (calls : List Call) :
    let after := w.calls c calls
    let kept := recent limit calls
    (after.compilers.get c).cache.keys = kept ∧ kept.length ≤ limit ∧
    (∀ text ∈ kept, ∃ p,
      (after.compile c (.text text)).1 = .ok p ∧
      (after.compile c (.text text)).2.serial = after.serial ∧
      ∃ earlier later, calls = earlier ++ .compile text :: later ∧
        RecentSince limit text earlier later ∧
        ((w.calls c earlier).compile c (.text text)).1 = .ok p) ∧
    (∀ text ∉ kept, ∀ path, Path.ofText text = .ok path →
      (after.compile c (.text text)).1 = .ok ⟨path, after.serial⟩ ∧
      (after.compile c (.text text)).2.serial = after.serial + 1) ∧
    (∀ text e, Path.ofText text = .error e →
      (after.compile c (.text text)).1 = .error (.malformed e) ∧
      ((after.compile c (.text text)).2.compilers.get c).cache = (after.compilers.get c).cache) ∧
    (q.enableMetrics.truthy = true → ∀ text,
      let before := (after.compilerState c).metrics
      let later := ((after.compile c (.text text)).2.compilerState c).metrics
      later.cacheHits = before.cacheHits + (if text ∈ kept then 1 else 0) ∧
      later.cacheMisses = before.cacheMisses + (if text ∈ kept then 0 else 1)) ∧
    (.clear ∉ calls → (heard calls).dedup.length ≤ limit →
      after.serial = w.serial + (heard calls).dedup.length ∧
      (q.enableMetrics.truthy = true → (after.compilerState c).metrics.compilations =
        (w.compilerState c).metrics.compilations + (heard calls).dedup.length)) := by
  intro after kept
  have hkeys : (after.compilers.get c).cache.keys = kept := h.keys_calls hq hempty calls
  refine ⟨hkeys, Compiler.length_recent_le limit calls, ?_, ?_, ?_, ?_, ?_⟩
  · intro text htext
    exact h.compile_kept hq hempty htext
  · intro text htext path hpath
    exact h.compile_new hq hempty htext hpath
  · intro text e he
    exact h.compile_refused hq hempty calls he
  · intro hmetrics text
    exact h.counts_compile hq hempty hmetrics calls text
  · intro hclear hroom
    have hmade := h.serial_calls hq hempty hclear hroom
    exact ⟨hmade, h.compilations_calls hq hempty hclear hroom⟩

end Recent

theorem Runs.keeps_recent_limit_two :
    let q : QuerySettings := { cacheSizeLimit := .int 2 }
    let asked := ({} : Workspace).addQuerySettings q
    let made := asked.2.addCompiler (some asked.1) .null none
    let calls := [Call.compile "a", .compile "b", .compile "a", .compile "]", .compile "c"]
    made.2.Runs made.1 q (Compiler.logger .null) ∧ q.Keeps 2 ∧
      (made.2.compilers.get made.1).cache = {} ∧
      ((made.2.calls made.1 calls).compilers.get made.1).cache.keys = ["a", "c"] ∧
      ((made.2.calls made.1 calls).compile made.1 (.text "a")).2.serial =
        (made.2.calls made.1 calls).serial ∧
      (made.2.calls made.1 calls.dropLast).serial = 2 := by
  intro q asked made calls
  have hruns : made.2.Runs made.1 q (Compiler.logger .null) := ⟨by decide, by decide, rfl, rfl⟩
  have hq : q.Keeps 2 := ⟨rfl, rfl, by decide⟩
  have ha : (Path.ofText "a").isOk = true := Path.isOk_ofText_of_isName ⟨by decide, nofun⟩
  have hb : (Path.ofText "b").isOk = true := Path.isOk_ofText_of_isName ⟨by decide, nofun⟩
  have hc : (Path.ofText "c").isOk = true := Path.isOk_ofText_of_isName ⟨by decide, nofun⟩
  have hbracket : (Path.ofText "]").isOk = false := by
    rw [Path.ofText, Step.ofText, Step.scan_of_none (by decide)]
    rfl
  have hrecent : recent 2 calls = ["a", "c"] := by
    simp only [calls, recent, heard, List.foldl, Compiler.hear, ha, hb, hc, hbracket]
    decide
  have hheard : heard calls.dropLast = ["a", "b", "a"] := by
    simp only [calls, List.dropLast, heard, List.foldl, Compiler.hear, ha, hb, hbracket]
    decide
  have hcount : (["a", "b", "a"] : List String).dedup.length = 2 := by decide
  have hclear : .clear ∉ calls.dropLast := by simp [calls]
  have hnone : made.2.serial = 0 := rfl
  obtain ⟨hkeys, -, hhit, -⟩ := hruns.keeps_recent hq rfl calls
  rw [hrecent] at hkeys hhit
  obtain ⟨p, -, hserial, -⟩ := hhit "a" (by decide)
  obtain ⟨-, -, -, -, -, -, hroom⟩ := hruns.keeps_recent hq rfl calls.dropLast
  rw [hheard, hcount, hnone] at hroom
  exact ⟨hruns, hq, rfl, hkeys, hserial, (hroom hclear (Nat.le_refl 2)).1⟩

end TreePath.Workspace
