import TreePath.Proofs.Settings.Override

namespace TreePath.Settings

open Keyword

/-- Different keywords for single fields, with values of any kind. -/
structure AreFields (ks : List (String × Json)) : Prop where
  distinct : (ks.map Prod.fst).Nodup
  known : ∀ e ∈ ks, ∀ s : Settings, (s.field? e.1).isSome

/-- A keyword for a single field, with a value of the declared kind. Truth values count as whole
numbers. -/
inductive IsDocumented : String × Json → Prop
  | caching (b : Bool) : IsDocumented ("query__enable_caching", b)
  | limit {v : Json} {n : Int} :
    v.number? = some (.int n) → IsDocumented ("query__cache_size_limit", v)
  | metrics (b : Bool) : IsDocumented ("query__enable_metrics", b)
  | level (t : String) : IsDocumented ("global___logging_level", t)
  | tracking (b : Bool) : IsDocumented ("global___enable_correlation_tracking", b)
  | name (t : Option String) : IsDocumented ("name", .ofOption t)
  | description (t : Option String) : IsDocumented ("description", .ofOption t)

structure AreDocumented (ks : List (String × Json)) : Prop where
  distinct : (ks.map Prod.fst).Nodup
  documented : ∀ e ∈ ks, IsDocumented e

/-- Each field has the value that is given for it, or else the one it had. -/
def merged (s : Settings) (ks : List (String × Json)) : Settings where
  query := {
    enableCaching := (ks.lookup "query__enable_caching").getD s.query.enableCaching
    cacheSizeLimit := (ks.lookup "query__cache_size_limit").getD s.query.cacheSizeLimit
    enableMetrics := (ks.lookup "query__enable_metrics").getD s.query.enableMetrics }
  log := {
    loggingLevel := (ks.lookup "global___logging_level").getD s.log.loggingLevel
    enableCorrelationTracking :=
      (ks.lookup "global___enable_correlation_tracking").getD s.log.enableCorrelationTracking }
  name := (ks.lookup "name").getD s.name
  description := (ks.lookup "description").getD s.description

variable {s : Settings} {ks ls : List (String × Json)} {e : String × Json}

theorem field?_queryField (s : Settings) (n : String) :
    s.field? ("query__" ++ n) = s.query.toFields.lookup n := by
  rw [field?, ofText_queryField]

theorem field?_logField (s : Settings) (n : String) :
    s.field? ("global___" ++ n) = s.log.toFields.lookup n := by
  rw [field?, ofText_logField]

namespace IsDocumented

theorem isSome_field? (h : IsDocumented e) (s : Settings) : (s.field? e.1).isSome := by
  cases h with
  | caching => exact congrArg Option.isSome (s.field?_queryField "enable_caching")
  | limit => exact congrArg Option.isSome (s.field?_queryField "cache_size_limit")
  | metrics => exact congrArg Option.isSome (s.field?_queryField "enable_metrics")
  | level => exact congrArg Option.isSome (s.field?_logField "logging_level")
  | tracking => exact congrArg Option.isSome (s.field?_logField "enable_correlation_tracking")
  | name =>
    rw [field?, show Keyword.ofText "name" = .top "name" by decide]
    rfl
  | description =>
    rw [field?, show Keyword.ofText "description" = .top "description" by decide]
    rfl

theorem number?_of_limit (h : IsDocumented e) (he : e.1 = "query__cache_size_limit") :
    ∃ n, e.2.number? = some (.int n) := by
  cases h with
  | limit hn => exact ⟨_, hn⟩
  | _ => exact absurd he (by dsimp only; decide)

end IsDocumented

theorem AreDocumented.areFields (h : AreDocumented ks) : AreFields ks where
  distinct := h.distinct
  known e he := (h.documented e he).isSome_field?

section Section

variable {σ : Type} {toFields : σ → List (String × Json)} {set? : σ → String → Json → Option σ}
  {check : σ → Except Fault Unit} {s t : σ} {fields : List (String × Json)}
  {asks : List (Option String × Json)}

theorem IsRecord.setAll_eq (h : IsRecord toFields set?) (hdistinct : (fields.map Prod.fst).Nodup)
    (hknown : ∀ e ∈ fields, ((toFields s).lookup e.1).isSome)
    (ht : toFields t = (toFields s).map fun e => (e.1, (fields.lookup e.1).getD e.2)) :
    setAll set? s fields = .ok t := by
  rcases h.setAll_cases s hdistinct with ⟨u, hu, -, hlookup⟩ | ⟨n, -, e, he, hunknown⟩
  · have heq : u = t := by
      refine h.ext fun n => ?_
      rw [hlookup, ht, lookup_map_values fun n v => (fields.lookup n).getD v]
      cases hold : (toFields s).lookup n with
      | some v => rw [Option.or_some, Option.map_some]
      | none =>
        rw [Option.or_none, Option.map_none, lookup_eq_none_iff_notMem]
        intro hmem
        obtain ⟨e, he, rfl⟩ := List.mem_map.1 hmem
        have hsome := hknown e he
        rw [hold] at hsome
        cases hsome
    rw [hu, heq]
  · have hsome := hknown e he
    rw [hunknown] at hsome
    cases hsome

theorem IsRecord.updateSection_eq (h : IsRecord toFields set?)
    (hdistinct : (fields.map Prod.fst).Nodup)
    (hknown : ∀ e ∈ fields, ((toFields s).lookup e.1).isSome)
    (ht : toFields t = (toFields s).map fun e => (e.1, (fields.lookup e.1).getD e.2)) :
    updateSection set? check s fields = (check t).map fun _ => t := by
  rw [updateSection, h.setAll_eq hdistinct hknown ht]
  show (do check t; return t) = _
  cases check t <;> rfl

theorem foldlM_ask_of_fields (hdistinct : (asks.map Prod.fst).Nodup)
    (hasks : ∀ p ∈ asks, ∃ n, p.1 = some n) :
    (asks = [] ∧ asks.foldlM ask none = .ok none) ∨
    ∃ fields, asks ≠ [] ∧ asks.foldlM ask none = .ok (some (.obj fields)) ∧
      (fields.map Prod.fst).Nodup ∧ ∀ n, fields.lookup n = asks.lookup (some n) := by
  have hne (p : Option String × Json) (hp : p ∈ asks) : p.1 ≠ none := by
    obtain ⟨n, hn⟩ := hasks p hp
    rw [hn]
    exact nofun
  have hnone : asks.lookup none = none := by
    refine lookup_eq_none_iff_notMem.2 fun hmem => ?_
    obtain ⟨p, hp, hfst⟩ := List.mem_map.1 hmem
    exact hne p hp hfst
  have hasked := asks_foldlM hdistinct (fun whole hp => (hne _ hp rfl).elim)
    (List.pairwise_of_forall_mem_list fun _ _ p hp => hne p hp)
  generalize asks.foldlM ask none = result at hasked
  cases hasked with
  | nothing hnil => exact .inl ⟨hnil, rfl⟩
  | fields fields hnil hfields _ hlookup =>
    refine .inr ⟨fields, hnil, rfl, hfields, fun n => ?_⟩
    rw [hlookup, hnone, Option.bind_none, Option.or_none]
  | notObject v hv =>
    subst hv
    cases hnone
  | fails v hv => cases hnone.symm.trans hv

/-- A section that was valid is revised field by field, and then checked. -/
theorem IsRecord.revise_eq (h : IsRecord toFields set?) (hs : check s = .ok ())
    (hdistinct : (asks.map Prod.fst).Nodup)
    (hasks : ∀ p ∈ asks, ∃ n, p.1 = some n ∧ ((toFields s).lookup n).isSome)
    (ht : toFields t = (toFields s).map fun e => (e.1, (asks.lookup (some e.1)).getD e.2)) :
    ∃ asked, asks.foldlM ask none = .ok asked ∧ revise set? check s asked =
      (check t).map fun _ => if asks.isEmpty then none else some t := by
  have hfields (p : Option String × Json) (hp : p ∈ asks) : ∃ n, p.1 = some n :=
    (hasks p hp).imp fun n hn => hn.1
  rcases foldlM_ask_of_fields hdistinct hfields with
    ⟨rfl, hasked⟩ | ⟨fields, hne, hasked, hfields, hlookup⟩
  · -- Nothing is asked for, so the section stays the one that was valid.
    have heq : t = s := h.ext fun n => by
      rw [ht]
      simp
    refine ⟨none, hasked, ?_⟩
    rw [heq, hs]
    rfl
  · simp only [← hlookup] at ht
    have hknown (e : String × Json) (he : e ∈ fields) : ((toFields s).lookup e.1).isSome := by
      have hmem : (some e.1, e.2) ∈ asks := by
        rw [← lookup_eq_some_iff_mem hdistinct, ← hlookup]
        exact (lookup_eq_some_iff_mem hfields).2 he
      obtain ⟨n, hn, hsome⟩ := hasks _ hmem
      cases hn
      exact hsome
    refine ⟨some (.obj fields), hasked, ?_⟩
    rw [List.isEmpty_eq_false_iff.2 hne, revise, h.updateSection_eq hfields hknown ht]
    cases check t <;> rfl

end Section

/-- A section whose fields are named by keywords that begin with a text. -/
structure NamesFields {σ : Type} (head : String) (part? : Keyword → Option (Option String))
    (toFields : σ → List (String × Json)) (set? : σ → String → Json → Option σ)
    (sect : Settings → σ) : Prop where
  isSection : IsSection part?
  isRecord : IsRecord toFields set?
  part_eq (n : String) : part? (Keyword.ofText (head ++ n)) = some (some n)
  field?_eq (s : Settings) (n : String) : s.field? (head ++ n) = (toFields (sect s)).lookup n
  field?_whole (s : Settings) {t : String} :
    part? (Keyword.ofText t) = some none → s.field? t = none
  merged_eq (s : Settings) (ks : List (String × Json)) :
    toFields (sect (s.merged ks)) =
      (toFields (sect s)).map fun e => (e.1, (ks.lookup (head ++ e.1)).getD e.2)

theorem namesFields_query : NamesFields "query__" queryPart? QuerySettings.toFields
    QuerySettings.set? Settings.query where
  isSection := isSection_query
  isRecord := isRecord_query
  part_eq n := congrArg queryPart? (ofText_queryField n)
  field?_eq := field?_queryField
  field?_whole s t ht := by
    rw [field?]
    generalize Keyword.ofText t = k at ht
    cases k <;> cases ht
    rfl
  merged_eq s ks := rfl

theorem namesFields_log : NamesFields "global___" logPart? LogSettings.toFields LogSettings.set?
    Settings.log where
  isSection := isSection_log
  isRecord := isRecord_log
  part_eq n := congrArg logPart? (ofText_logField n)
  field?_eq := field?_logField
  field?_whole s t ht := by
    rw [field?]
    generalize Keyword.ofText t = k at ht
    cases k <;> cases ht
    rfl
  merged_eq s ks := rfl

/-- A section with merged values. It is not there if no keyword is about it. -/
def mergedSection {σ : Type} (part? : Keyword → Option (Option String)) (sect : Settings → σ)
    (s : Settings) (ks : List (String × Json)) : Option σ :=
  if (parts part? ks).isEmpty then none else some (sect (s.merged ks))

/-- What becomes of settings that are merged with values that are valid together. -/
def mergedRevision (s : Settings) (ks : List (String × Json)) : Revision where
  query := mergedSection queryPart? Settings.query s ks
  log := mergedSection logPart? Settings.log s ks
  name := (s.merged ks).name
  description := (s.merged ks).description

section NamesFields

variable {σ : Type} {head : String} {part? : Keyword → Option (Option String)}
  {toFields : σ → List (String × Json)} {set? : σ → String → Json → Option σ}
  {sect : Settings → σ} (hnames : NamesFields head part? toFields set? sect) (h : AreFields ks)

include hnames h

theorem NamesFields.exists_field (s : Settings) (he : e ∈ ks) {p : Option String}
    (hp : part? (Keyword.ofText e.1) = some p) :
    ∃ n, p = some n ∧ e.1 = head ++ n ∧ ((toFields (sect s)).lookup n).isSome := by
  have hsome := h.known e he s
  cases p with
  | none =>
    rw [hnames.field?_whole s hp] at hsome
    cases hsome
  | some n =>
    have hkey : e.1 = head ++ n :=
      ofText_injective (hnames.isSection.isPart _ _ _ hp (hnames.part_eq n))
    rw [hkey, hnames.field?_eq] at hsome
    exact ⟨n, rfl, hkey, hsome⟩

theorem NamesFields.toFields_merged (s : Settings) :
    toFields (sect (s.merged ks)) = (toFields (sect s)).map fun e =>
      (e.1, ((parts part? ks).lookup (some e.1)).getD e.2) := by
  have hlookup (n : String) : (parts part? ks).lookup (some n) = ks.lookup (head ++ n) :=
    lookup_parts hnames.isSection.isPart h.distinct (hnames.part_eq n)
  simp only [hlookup]
  exact hnames.merged_eq s ks

theorem NamesFields.revise_merged (check : σ → Except Fault Unit) (hs : check (sect s) = .ok ()) :
    ∃ asked, (parts part? ks).foldlM ask none = .ok asked ∧ revise set? check (sect s) asked =
      (check (sect (s.merged ks))).map fun _ => mergedSection part? sect s ks := by
  refine hnames.isRecord.revise_eq hs (nodup_parts hnames.isSection.isPart h.distinct)
    (fun p hp => ?_) (hnames.toFields_merged h s)
  obtain ⟨e, he, hpart, -⟩ := mem_parts.1 hp
  obtain ⟨n, hn, -, hsome⟩ := hnames.exists_field h s he hpart
  exact ⟨n, hn, hsome⟩

theorem NamesFields.getD_mergedSection (s : Settings) :
    (mergedSection part? sect s ks).getD (sect s) = sect (s.merged ks) := by
  rw [mergedSection]
  cases hparts : parts part? ks with
  | nil =>
    refine hnames.isRecord.ext fun n => ?_
    rw [hnames.toFields_merged h, hparts]
    simp
  | cons => rfl

end NamesFields

theorem NamesFields.mergedSection_eq_none {σ : Type} {head : String}
    {part? : Keyword → Option (Option String)} {toFields : σ → List (String × Json)}
    {set? : σ → String → Json → Option σ} {sect : Settings → σ}
    (hnames : NamesFields head part? toFields set? sect) (h : AreDocumented ks)
    (hno : ∀ e ∈ ks, ∀ field, e.1 ≠ head ++ field) (s : Settings) :
    mergedSection part? sect s ks = none := by
  have hnil : parts part? ks = [] := by
    refine List.eq_nil_iff_forall_not_mem.2 fun p hp => ?_
    obtain ⟨e, he, hpart, -⟩ := mem_parts.1 hp
    obtain ⟨n, -, hkey, -⟩ := hnames.exists_field h.areFields s he hpart
    exact hno e he n hkey
  rw [mergedSection, hnil]
  rfl

namespace AreFields

variable (h : AreFields ks)

include h

theorem of_perm (hperm : ks.Perm ls) : AreFields ls where
  distinct := (hperm.map Prod.fst).nodup h.distinct
  known e he := h.known e (hperm.mem_iff.2 he)

theorem setLabels_merged (s : Settings) :
    setAll setLabel? (s.name, s.description) (parts topPart? ks) =
      .ok ((s.merged ks).name, (s.merged ks).description) := by
  have hname : (parts topPart? ks).lookup "name" = ks.lookup "name" :=
    lookup_parts isPart_top h.distinct (by decide)
  have hdescription : (parts topPart? ks).lookup "description" = ks.lookup "description" :=
    lookup_parts isPart_top h.distinct (by decide)
  refine isRecord_labels.setAll_eq (nodup_parts isPart_top h.distinct) (fun p hp => ?_) ?_
  · obtain ⟨e, he, hpart, -⟩ := mem_parts.1 hp
    have hsome := h.known e he s
    rw [field?] at hsome
    generalize Keyword.ofText e.1 = k at hpart hsome
    cases k <;> cases hpart
    exact hsome
  · simp only [labelFields, List.map_cons, List.map_nil, hname, hdescription]
    rfl

theorem apply_mergedRevision (s : Settings) : (s.mergedRevision ks).apply s = s.merged ks := by
  rw [Revision.apply, mergedRevision, namesFields_query.getD_mergedSection h,
    namesFields_log.getD_mergedSection h]

theorem not_reserved : ks.any (·.1 = reservedKeyword) = false := by
  refine List.any_eq_false.2 fun e he hself => ?_
  have hsome := h.known e he {}
  rw [of_decide_eq_true hself, field?,
    show Keyword.ofText reservedKeyword = .top "self" by decide] at hsome
  cases hsome

theorem override_eq_merged (hs : s.check = .ok ()) :
    s.override ks = (s.merged ks).check.map fun _ => s.mergedRevision ks := by
  obtain ⟨⟨⟩, hqueryValid, hlogValid⟩ := Except.exists_of_bind_eq_ok hs
  obtain ⟨query, hasked, hquery⟩ :=
    namesFields_query.revise_merged h (·.check .invalidSettings) hqueryValid
  obtain ⟨log, hasked', hlog⟩ :=
    namesFields_log.revise_merged h (·.check .invalidSettings) hlogValid
  have hfinal := h.apply_mergedRevision s
  rw [override_eq h.distinct, h.not_reserved, hasked, hasked']
  show s.reviseAll query log (parts topPart? ks) = _
  rw [reviseAll, hquery, hlog, h.setLabels_merged, check]
  cases hvalid : (s.merged ks).query.check .invalidSettings with
  | error d => rfl
  | ok =>
    cases hvalid' : (s.merged ks).log.check .invalidSettings with
    | error d => rfl
    | ok =>
      -- The last check sees the two sections that have just been checked.
      show (do ((s.mergedRevision ks).apply s).check; return s.mergedRevision ks) = _
      rw [hfinal, check, hvalid, hvalid']
      rfl

end AreFields

namespace AreDocumented

variable (h : AreDocumented ks)

include h

theorem apply_mergedRevision (s : Settings) : (s.mergedRevision ks).apply s = s.merged ks :=
  h.areFields.apply_mergedRevision s

theorem isLimited_merged (hs : s.check = .ok ()) : (s.merged ks).query.IsLimited := by
  have hlimit : (s.merged ks).query.limit? =
      ((ks.lookup "query__cache_size_limit").getD s.query.cacheSizeLimit).number? := rfl
  rw [QuerySettings.IsLimited, hlimit]
  cases hv : ks.lookup "query__cache_size_limit" with
  | none => exact isLimited_of_check hs
  | some v =>
    have hmem := (lookup_eq_some_iff_mem h.distinct).1 hv
    obtain ⟨n, hn⟩ := (h.documented _ hmem).number?_of_limit rfl
    exact ⟨.int n, hn⟩

theorem mergeEntries (h' : AreDocumented ls) : AreDocumented (mergeEntries (ks ++ ls)) where
  distinct := nodup_keys_mergeEntries _
  documented e he := by
    rcases mem_or_mem_of_mem_mergeEntries h.distinct h'.distinct he with hmem | hmem
    · exact h.documented e hmem
    · exact h'.documented e hmem

theorem merged_merged (h' : AreDocumented ls) (s : Settings) :
    (s.merged ks).merged ls = s.merged (TreePath.mergeEntries (ks ++ ls)) := by
  simp only [merged, lookup_mergeEntries_append h.distinct h'.distinct, Option.getD_or]

end AreDocumented

def Invalid.Occurs (s : Settings) : Invalid → Prop
  | negativeCacheLimit => ∃ n, s.query.limit? = some n ∧ n.lt (.int 0) = true
  | unknownLoggingLevel => ∀ level ∈ LogSettings.levels, s.log.loggingLevel ≠ .str level

theorem Invalid.unknownLoggingLevel_occurs_iff :
    Invalid.unknownLoggingLevel.Occurs s ↔
      s.log.loggingLevel.str?.any LogSettings.levels.contains = false := by
  rw [Invalid.Occurs]
  cases s.log.loggingLevel with
  | str t =>
    rw [Json.str?, Option.any_some, List.contains_eq_mem, decide_eq_false_iff_not]
    exact ⟨fun h hmem => h t hmem rfl, fun h level hlevel ht => h (Json.str.inj ht ▸ hlevel)⟩
  | _ => exact iff_of_true nofun rfl

/-- The limit of the cache is reported before the logging level. -/
theorem check_cases (h : s.query.IsLimited) :
    (Invalid.negativeCacheLimit.Occurs s ∧
      s.check = .error (.invalidSettings .negativeCacheLimit)) ∨
    (¬ Invalid.negativeCacheLimit.Occurs s ∧ Invalid.unknownLoggingLevel.Occurs s ∧
      s.check = .error (.invalidSettings .unknownLoggingLevel)) ∨
    ((∀ reason : Invalid, ¬ reason.Occurs s) ∧ s.check = .ok ()) := by
  obtain ⟨n, hn⟩ := h
  have hlimit : Invalid.negativeCacheLimit.Occurs s ↔ n.lt (.int 0) = true := by
    refine ⟨fun ⟨m, hm, hlt⟩ => ?_, fun hlt => ⟨n, hn, hlt⟩⟩
    cases hn.symm.trans hm
    exact hlt
  rw [check, QuerySettings.check, hn, LogSettings.check]
  by_cases hlt : n.lt (.int 0) = true
  · exact .inl ⟨hlimit.2 hlt, by simp only [if_pos hlt]; rfl⟩
  · have hnot := mt hlimit.1 hlt
    by_cases hunknown : Invalid.unknownLoggingLevel.Occurs s
    · have hany := Invalid.unknownLoggingLevel_occurs_iff.1 hunknown
      refine .inr (.inl ⟨hnot, hunknown, ?_⟩)
      simp only [if_neg hlt, hany]
      rfl
    · have hany := mt Invalid.unknownLoggingLevel_occurs_iff.2 hunknown
      refine .inr (.inr ⟨fun reason => ?_, ?_⟩)
      · cases reason with
        | negativeCacheLimit => exact hnot
        | unknownLoggingLevel => exact hunknown
      · simp only [if_neg hlt, Bool.not_eq_false] at hany ⊢
        rw [if_pos hany]
        rfl

end TreePath.Settings
