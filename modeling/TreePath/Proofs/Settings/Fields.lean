import TreePath.Proofs.Json.Entries
import TreePath.Settings.Override

namespace TreePath.Settings

/-- What a caller can tell of a fault: its kind, and for a value that was checked its field. -/
inductive Fault.Kind where
  /-- A keyword or a value that there is no use for. -/
  | misuse
  | noSection
  | unreadable
  | outOfRange
  | unwritable
  | invalid (field : String)
  | invalidWithin (sectionName field : String)
  deriving DecidableEq, Repr

def Fault.kind : Fault → Fault.Kind
  | .unknownField _ | .reservedKeyword | .limitNotNumber | .revisionNotObject
  | .documentNotObject | .layout .notIndent => .misuse
  | .sectionNotObject => .noSection
  | .unreadable _ => .unreadable
  | .layout .outOfRange => .outOfRange
  | .unwritable _ => .unwritable
  | .invalidSection reason => .invalid reason.field
  | .invalidSettings reason => .invalidWithin reason.sectionName reason.field

/-- The fields of a record are told apart by their names. The fields that it has can be set, and
nothing else changes then. -/
structure IsRecord {σ : Type} (toFields : σ → List (String × Json))
    (set? : σ → String → Json → Option σ) : Prop where
  ext {s t : σ} : (∀ n, (toFields s).lookup n = (toFields t).lookup n) → s = t
  isSome_set? (s : σ) (n : String) (v : Json) :
    (set? s n v).isSome = ((toFields s).lookup n).isSome
  lookup_self {s t : σ} {n : String} {v : Json} :
    set? s n v = some t → (toFields t).lookup n = some v
  lookup_of_ne {s t : σ} {n m : String} {v : Json} :
    set? s n v = some t → m ≠ n → (toFields t).lookup m = (toFields s).lookup m

theorem isRecord_query : IsRecord QuerySettings.toFields QuerySettings.set? where
  ext {s t} h := by
    have hcaching : some s.enableCaching = some t.enableCaching := h "enable_caching"
    have hlimit : some s.cacheSizeLimit = some t.cacheSizeLimit := h "cache_size_limit"
    have hmetrics : some s.enableMetrics = some t.enableMetrics := h "enable_metrics"
    cases s
    cases t
    cases hcaching
    cases hlimit
    cases hmetrics
    rfl
  isSome_set? s n v := by
    unfold QuerySettings.set? QuerySettings.toFields
    split <;> simp_all [lookup_cons_eq_ite]
  lookup_self h := by
    unfold QuerySettings.set? at h
    split at h <;> cases h <;> rfl
  lookup_of_ne h hne := by
    unfold QuerySettings.set? at h
    split at h <;> cases h <;> simp [QuerySettings.toFields, lookup_cons_eq_ite, hne]

theorem isRecord_log : IsRecord LogSettings.toFields LogSettings.set? where
  ext {s t} h := by
    have hlevel : some s.loggingLevel = some t.loggingLevel := h "logging_level"
    have htracking : some s.enableCorrelationTracking = some t.enableCorrelationTracking :=
      h "enable_correlation_tracking"
    cases s
    cases t
    cases hlevel
    cases htracking
    rfl
  isSome_set? s n v := by
    unfold LogSettings.set? LogSettings.toFields
    split <;> simp_all [lookup_cons_eq_ite]
  lookup_self h := by
    unfold LogSettings.set? at h
    split at h <;> cases h <;> rfl
  lookup_of_ne h hne := by
    unfold LogSettings.set? at h
    split at h <;> cases h <;> simp [LogSettings.toFields, lookup_cons_eq_ite, hne]

variable {σ : Type} {toFields : σ → List (String × Json)} {set? : σ → String → Json → Option σ}
  {s t : σ} {fields others : List (String × Json)}

/-- Either the record has all fields, and what is found under a name afterwards was set or was there
before, or one of them is unknown. -/
theorem IsRecord.setAll_cases (h : IsRecord toFields set?) (s : σ)
    (hdistinct : (fields.map Prod.fst).Nodup) :
    (∃ t, setAll set? s fields = .ok t ∧
      (∀ e ∈ fields, ((toFields s).lookup e.1).isSome) ∧
      ∀ n, (toFields t).lookup n = (fields.lookup n).or ((toFields s).lookup n)) ∨
    ∃ n, setAll set? s fields = .error (.unknownField n) ∧
      ∃ e ∈ fields, (toFields s).lookup e.1 = none := by
  induction fields generalizing s with
  | nil => exact .inl ⟨s, rfl, nofun, fun n => rfl⟩
  | cons e fields ih =>
    obtain ⟨m, v⟩ := e
    obtain ⟨hnew, hrest⟩ := List.nodup_cons.1 hdistinct
    have hsome := h.isSome_set? s m v
    rw [setAll]
    cases hset : set? s m v with
    | none =>
      rw [hset] at hsome
      exact .inr ⟨m, rfl, _, List.mem_cons_self,
        Option.not_isSome_iff_eq_none.1 (by simp [← hsome])⟩
    | some u =>
      rw [hset] at hsome
      have hne {e : String × Json} (he : e ∈ fields) : e.1 ≠ m := by
        rintro rfl
        exact hnew (List.mem_map.2 ⟨e, he, rfl⟩)
      rcases ih u hrest with ⟨t, ht, hknown, hlookup⟩ | ⟨n, hn, e, he, hunknown⟩
      · refine .inl ⟨t, ht, ?_, fun n => ?_⟩
        · intro e he
          rcases List.mem_cons.1 he with rfl | he
          · exact hsome.symm
          · rw [← h.lookup_of_ne hset (hne he)]
            exact hknown e he
        · by_cases hn : n = m
          · subst hn
            rw [hlookup, lookup_eq_none_iff_notMem.2 hnew, List.lookup_cons_self,
              h.lookup_self hset]
            rfl
          · rw [hlookup, lookup_cons_of_ne hn, h.lookup_of_ne hset hn]
      · rw [h.lookup_of_ne hset (hne he)] at hunknown
        exact .inr ⟨n, hn, e, List.mem_cons_of_mem _ he, hunknown⟩

theorem IsRecord.setAll_congr (h : IsRecord toFields set?) (s : σ)
    (hfields : (fields.map Prod.fst).Nodup) (hothers : (others.map Prod.fst).Nodup)
    (hlookup : ∀ n, fields.lookup n = others.lookup n) :
    (∃ t, setAll set? s fields = .ok t ∧ setAll set? s others = .ok t) ∨
    ∃ n m, setAll set? s fields = .error (.unknownField n) ∧
      setAll set? s others = .error (.unknownField m) := by
  have hmem (e : String × Json) : e ∈ fields ↔ e ∈ others := by
    rw [← lookup_eq_some_iff_mem hfields, hlookup, lookup_eq_some_iff_mem hothers]
  rcases h.setAll_cases s hfields with ⟨t, ht, hknown, hlt⟩ | ⟨n, hn, e, he, hnone⟩
  · rcases h.setAll_cases s hothers with ⟨u, hu, -, hlu⟩ | ⟨m, -, e, he, hnone⟩
    · have heq : t = u := h.ext fun n => by rw [hlt, hlu, hlookup]
      exact .inl ⟨t, ht, heq ▸ hu⟩
    · have hsome := hknown e ((hmem e).2 he)
      rw [hnone] at hsome
      cases hsome
  · rcases h.setAll_cases s hothers with ⟨u, -, hknown, -⟩ | ⟨m, hm, -⟩
    · have hsome := hknown e ((hmem e).1 he)
      rw [hnone] at hsome
      cases hsome
    · exact .inr ⟨n, m, hn, hm⟩

end TreePath.Settings
