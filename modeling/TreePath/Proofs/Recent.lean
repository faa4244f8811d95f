import TreePath.Proofs.Compiler
import TreePath.Proofs.Settings

namespace TreePath.Compiler

/-- What a compiler is asked to do. -/
inductive Call where
  | compile (text : String)
  | clear

def respond (q : QuerySettings) (g : Logger) (s : State) : Call → State
  | .compile text => (prepare q g (.text text) s).2
  | .clear => clear s

def run (q : QuerySettings) (g : Logger) (s : State) (calls : List Call) : State :=
  calls.foldl (respond q g) s

def hear (texts : List String) : Call → List String
  | .compile text => if (Path.ofText text).isOk then texts ++ [text] else texts
  | .clear => []

/-- The texts that were asked for and read as paths since everything was cleared, in this order. -/
def heard (calls : List Call) : List String :=
  calls.foldl hear []

/-- The texts heard last, at most as many as the limit, each where it was heard for the last time:
that is where `List.dedup` keeps it. -/
def recent (limit : Nat) (calls : List Call) : List String :=
  (heard calls).dedup.rtake limit

/-- The text was new when it was asked for after the earlier calls, and it is a recent one ever
since. -/
structure RecentSince (limit : Nat) (text : String) (earlier later : List Call) : Prop where
  new : text ∉ recent limit earlier
  kept : ∀ between, between <+: later → text ∈ recent limit (earlier ++ .compile text :: between)

variable {q : QuerySettings} {g : Logger} {limit : Nat} {s : State} {calls : List Call}
  {text : String} {p : Prepared} {path : Path} {e : Path.Malformed} {call : Call}

theorem heard_concat : heard (calls ++ [call]) = hear (heard calls) call :=
  List.foldl_concat ..

theorem heard_compile_of_ok (h : Path.ofText text = .ok path) :
    heard (calls ++ [.compile text]) = heard calls ++ [text] := by
  rw [heard_concat, hear, h]
  rfl

theorem heard_compile_of_error (h : Path.ofText text = .error e) :
    heard (calls ++ [.compile text]) = heard calls := by
  rw [heard_concat, hear, h]
  rfl

theorem recent_nil : recent limit [] = [] :=
  List.rtake_nil ..

theorem recent_clear : recent limit (calls ++ [.clear]) = [] := by
  rw [recent, heard_concat, hear, List.dedup_nil, List.rtake_nil]

theorem recent_compile_of_ok (hpos : 0 < limit) (h : Path.ofText text = .ok path) :
    recent limit (calls ++ [.compile text]) =
      ((recent limit calls).erase text ++ [text]).rtake limit := by
  obtain ⟨n, rfl⟩ := Nat.exists_eq_add_of_lt hpos
  rw [recent, heard_compile_of_ok h, List.dedup_concat, Nat.zero_add, List.rtake_concat_succ,
    List.rtake_concat_succ, recent, List.rtake_erase_rtake (List.nodup_dedup _)]

theorem recent_compile_of_error (h : Path.ofText text = .error e) :
    recent limit (calls ++ [.compile text]) = recent limit calls := by
  rw [recent, heard_compile_of_error h, recent]

theorem length_recent_le (limit : Nat) (calls : List Call) :
    (recent limit calls).length ≤ limit :=
  List.length_rtake_le _ limit

theorem prepare_of_keeps (hq : q.Keeps limit) :
    prepare q g (.text text) s = lookUp q g text s := by
  rw [prepare_text hq.caching]
  rfl

theorem keys_lookUp_of_ok (hq : q.Keeps limit) (hsize : s.cache.keys.length ≤ limit)
    (h : Path.ofText text = .ok path) :
    (lookUp q g text s).2.cache.keys = (s.cache.keys.erase text ++ [text]).rtake limit := by
  cases hfind : s.cache.find? text with
  | some p =>
    have hmem : text ∈ s.cache.keys := List.mem_map_of_mem (Recency.mem_of_find? hfind)
    have hlength : (s.cache.keys.erase text ++ [text]).length ≤ limit := by
      have hpos := List.length_pos_of_mem hmem
      rw [List.length_append, List.length_erase_of_mem hmem, List.length_singleton]
      omega
    rw [lookUp_of_find hfind, List.rtake_of_length_le hlength]
    exact Recency.keys_use s.cache text p
  | none =>
    rw [cache_lookUp_of_ok hfind h, hq.exceeds, Recency.keys_trim, Recency.keys_use]

theorem Faithful.find?_eq_none (hs : Faithful s.cache) (h : Path.ofText text = .error e) :
    s.cache.find? text = none := by
  cases hfind : s.cache.find? text with
  | none => rfl
  | some p => cases (hs.ofText_of_find? hfind).symm.trans h

theorem cache_lookUp_of_error (hs : Faithful s.cache) (h : Path.ofText text = .error e) :
    (lookUp q g text s).2.cache = s.cache := by
  rw [lookUp_of_error (hs.find?_eq_none h) h]
  rfl

theorem mem_lookUp {k : String} (h : (k, p) ∈ (lookUp q g text s).2.cache.entries) :
    (k, p) ∈ s.cache.entries ∨
      k = text ∧ s.cache.find? text = none ∧ (lookUp q g text s).1 = .ok p := by
  cases hfind : s.cache.find? text with
  | some kept =>
    rw [lookUp_of_find hfind] at h
    rcases Recency.mem_use h with hold | hused
    · exact .inl hold
    · rw [hused]
      exact .inl (Recency.mem_of_find? hfind)
  | none =>
    cases hp : Path.ofText text with
    | ok path =>
      rw [cache_lookUp_of_ok hfind hp] at h
      rcases Recency.mem_use (Recency.mem_trim h) with hold | hnew
      · exact .inl hold
      · cases hnew
        rw [lookUp_of_ok hfind hp]
        exact .inr ⟨rfl, rfl, rfl⟩
    | error e =>
      rw [lookUp_of_error hfind hp] at h
      exact .inl h

theorem compilations_lookUp (hm : q.enableMetrics.truthy = true) :
    (lookUp q g text s).2.metrics.compilations + s.serial =
      s.metrics.compilations + (lookUp q g text s).2.serial := by
  cases hfind : s.cache.find? text with
  | some p =>
    rw [lookUp_of_find hfind, hit, QuerySettings.count, if_pos hm]
    rfl
  | none =>
    cases hp : Path.ofText text with
    | ok path =>
      have hmade : s.metrics.compilations + 1 + s.serial =
          s.metrics.compilations + ((s.serial + 1 : Nat) : Int) := by omega
      rw [lookUp_of_ok hfind hp, miss, accept, QuerySettings.count, QuerySettings.count, if_pos hm,
        if_pos hm]
      exact hmade
    | error e =>
      rw [lookUp_of_error hfind hp, miss, QuerySettings.count, if_pos hm]
      rfl

theorem cacheHits_lookUp (hm : q.enableMetrics.truthy = true) :
    (lookUp q g text s).2.metrics.cacheHits =
      s.metrics.cacheHits + (if text ∈ s.cache.keys then 1 else 0) ∧
    (lookUp q g text s).2.metrics.cacheMisses =
      s.metrics.cacheMisses + (if text ∈ s.cache.keys then 0 else 1) := by
  rw [metrics_lookUp, QuerySettings.count, if_pos hm]
  cases hfind : s.cache.find? text with
  | some p =>
    have hmem : text ∈ s.cache.keys := List.mem_map_of_mem (Recency.mem_of_find? hfind)
    rw [if_pos hmem, if_pos hmem]
    exact ⟨rfl, (Int.add_zero _).symm⟩
  | none =>
    have hmem := Recency.find?_eq_none_iff.1 hfind
    rw [if_neg hmem, if_neg hmem]
    cases (Path.ofText text).isOk <;> exact ⟨(Int.add_zero _).symm, rfl⟩

theorem run_concat : run q g s (calls ++ [call]) = respond q g (run q g s calls) call :=
  List.foldl_concat ..

theorem faithful_run (hs : s.cache = {}) (calls : List Call) :
    Faithful (run q g s calls).cache := by
  induction calls using List.reverseRecOn with
  | nil =>
    rw [run, List.foldl_nil, hs]
    exact faithful_empty
  | append_singleton calls call ih =>
    rw [run_concat]
    cases call with
    | compile text => exact ih.prepare _
    | clear => exact faithful_empty

theorem keys_run (hq : q.Keeps limit) (hs : s.cache = {}) (calls : List Call) :
    (run q g s calls).cache.keys = recent limit calls := by
  induction calls using List.reverseRecOn with
  | nil =>
    rw [run, List.foldl_nil, hs, recent_nil]
    rfl
  | append_singleton calls call ih =>
    rw [run_concat]
    cases call with
    | clear => exact recent_clear.symm
    | compile text =>
      rw [respond, prepare_of_keeps hq]
      cases h : Path.ofText text with
      | ok path =>
        have hsize : (run q g s calls).cache.keys.length ≤ limit := by
          rw [ih]
          exact length_recent_le limit calls
        rw [keys_lookUp_of_ok hq hsize h, ih, recent_compile_of_ok hq.pos h]
      | error e =>
        rw [cache_lookUp_of_error (faithful_run hs calls) h, ih, recent_compile_of_error h]

theorem find?_run_eq_none_iff (hq : q.Keeps limit) (hs : s.cache = {}) :
    (run q g s calls).cache.find? text = none ↔ text ∉ recent limit calls := by
  rw [Recency.find?_eq_none_iff, keys_run hq hs]

/-- A path that is kept was made by the call that its text was new to. -/
theorem exists_made (hq : q.Keeps limit) (hs : s.cache = {})
    (h : (text, p) ∈ (run q g s calls).cache.entries) :
    ∃ earlier later, calls = earlier ++ .compile text :: later ∧
      RecentSince limit text earlier later ∧ (lookUp q g text (run q g s earlier)).1 = .ok p := by
  have hkept {calls : List Call} (h : (text, p) ∈ (run q g s calls).cache.entries) :
      text ∈ recent limit calls := by
    rw [← keys_run hq hs]
    exact List.mem_map_of_mem h
  induction calls using List.reverseRecOn with
  | nil =>
    rw [run, List.foldl_nil, hs] at h
    cases h
  | append_singleton calls call ih =>
    have hnow := hkept h
    rw [run_concat] at h
    cases call with
    | clear => cases h
    | compile asked =>
      rw [respond, prepare_of_keeps hq] at h
      rcases mem_lookUp h with hold | ⟨rfl, hnew, hmade⟩
      · obtain ⟨earlier, later, rfl, hsince, hanswer⟩ := ih hold
        rw [List.append_assoc, List.cons_append] at hnow ⊢
        refine ⟨earlier, _, rfl, ⟨hsince.new, fun between hbetween => ?_⟩, hanswer⟩
        rcases List.prefix_concat_iff.1 hbetween with rfl | hbetween
        · exact hnow
        · exact hsince.kept between hbetween
      · refine ⟨calls, [], rfl, ⟨(find?_run_eq_none_iff hq hs).1 hnew, ?_⟩, hmade⟩
        intro between hbetween
        rwa [List.prefix_nil.1 hbetween]

theorem exists_find?_run (hq : q.Keeps limit) (hs : s.cache = {}) (h : text ∈ recent limit calls) :
    ∃ p, (run q g s calls).cache.find? text = some p := by
  cases hfind : (run q g s calls).cache.find? text with
  | some p => exact ⟨p, rfl⟩
  | none => exact ((find?_run_eq_none_iff hq hs).1 hfind h).elim

theorem compilations_run (hq : q.Keeps limit) (hm : q.enableMetrics.truthy = true)
    (calls : List Call) :
    (run q g s calls).metrics.compilations + s.serial =
      s.metrics.compilations + (run q g s calls).serial := by
  induction calls using List.reverseRecOn with
  | nil => rfl
  | append_singleton calls call ih =>
    rw [run_concat]
    cases call with
    | clear => exact ih
    | compile text =>
      have hcall : (lookUp q g text (run q g s calls)).2.metrics.compilations + _ = _ + _ :=
        compilations_lookUp hm
      rw [respond, prepare_of_keeps hq]
      omega

theorem length_dedup_concat_of_mem {texts : List String} (h : text ∈ texts) :
    (texts ++ [text]).dedup.length = texts.dedup.length := by
  have hmem := List.mem_dedup.2 h
  have hpos := List.length_pos_of_mem hmem
  rw [List.dedup_concat, List.length_append, List.length_erase_of_mem hmem, List.length_singleton]
  omega

theorem length_dedup_concat_of_notMem {texts : List String} (h : text ∉ texts) :
    (texts ++ [text]).dedup.length = texts.dedup.length + 1 := by
  rw [List.dedup_concat, List.erase_of_not_mem (by rwa [List.mem_dedup]), List.length_append,
    List.length_singleton]

theorem serial_run (hq : q.Keeps limit) (hs : s.cache = {}) (hclear : .clear ∉ calls)
    (hroom : (heard calls).dedup.length ≤ limit) :
    (run q g s calls).serial = s.serial + (heard calls).dedup.length := by
  induction calls using List.reverseRecOn with
  | nil => rfl
  | append_singleton calls call ih =>
    rw [List.mem_append, List.mem_singleton, not_or] at hclear
    cases call with
    | clear => exact (hclear.2 rfl).elim
    | compile text =>
      rw [run_concat, respond, prepare_of_keeps hq]
      cases h : Path.ofText text with
      | error e =>
        have hfind := (faithful_run (q := q) (g := g) hs calls).find?_eq_none h
        rw [heard_compile_of_error h] at hroom ⊢
        rw [lookUp_of_error hfind h]
        exact ih hclear.1 hroom
      | ok path =>
        rw [heard_compile_of_ok h] at hroom ⊢
        by_cases hmem : text ∈ heard calls
        · rw [length_dedup_concat_of_mem hmem] at hroom ⊢
          have hrecent : text ∈ recent limit calls := by
            rwa [recent, List.rtake_of_length_le hroom, List.mem_dedup]
          obtain ⟨p, hfind⟩ := exists_find?_run (q := q) (g := g) hq hs hrecent
          rw [lookUp_of_find hfind]
          exact ih hclear.1 hroom
        · have hfind : (run q g s calls).cache.find? text = none := by
            rw [find?_run_eq_none_iff hq hs]
            intro hrecent
            exact hmem (List.mem_dedup.1 ((List.rtake_suffix _ limit).subset hrecent))
          rw [length_dedup_concat_of_notMem hmem] at hroom ⊢
          rw [lookUp_of_ok hfind h, ← Nat.add_assoc, ← ih hclear.1 (by omega)]
          rfl

end TreePath.Compiler
