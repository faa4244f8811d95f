import TreePath.Proofs.Settings.Merge
import TreePath.Settings.Document

namespace TreePath.Settings

open Keyword

/-- A known field of a document, with a value of any kind for the name or the description and with
known fields, none of them twice, for a section. The fields of a section may have any values. -/
inductive IsLoadable : String × Json → Prop
  | query {fields : List (String × Json)} : (fields.map Prod.fst).Nodup →
    (∀ e ∈ fields, e.1 ∈ (QuerySettings.toFields {}).map Prod.fst) →
      IsLoadable ("query", .obj fields)
  | log {fields : List (String × Json)} : (fields.map Prod.fst).Nodup →
    (∀ e ∈ fields, e.1 ∈ (LogSettings.toFields {}).map Prod.fst) →
      IsLoadable ("global_", .obj fields)
  | name (v : Json) : IsLoadable ("name", v)
  | description (v : Json) : IsLoadable ("description", v)

/-- Different fields that are known. -/
structure AreLoadable (doc : List (String × Json)) : Prop where
  distinct : (doc.map Prod.fst).Nodup
  loadable : ∀ e ∈ doc, IsLoadable e

/-- The keywords for what a field of a document says. A section is asked for field by field. -/
def fieldKeywords : String × Json → List (String × Json)
  | ("query", .obj fields) => fields.map fun e => ("query__" ++ e.1, e.2)
  | ("global_", .obj fields) => fields.map fun e => ("global___" ++ e.1, e.2)
  | e => [e]

def toKeywords (doc : List (String × Json)) : List (String × Json) :=
  doc.flatMap fieldKeywords

/-- The field of a document that says what a keyword asks for. -/
def Keyword.home : Keyword → String
  | queryField _ | query => "query"
  | logField _ | log => "global_"
  | top name => name

variable {doc ks : List (String × Json)} {e k : String × Json}

theorem knownFields_of_known {known fields : List (String × Json)}
    (h : ∀ e ∈ fields, e.1 ∈ known.map Prod.fst) :
    knownFields known (.obj fields) = .ok fields := by
  refine congrArg Except.ok (List.filter_eq_self.2 fun e he => ?_)
  obtain ⟨d, hd, hname⟩ := List.mem_map.1 (h e he)
  exact List.any_eq_true.2 ⟨d, hd, decide_eq_true hname⟩

theorem isSome_lookup {n : String} {fields : List (String × Json)}
    (hn : n ∈ fields.map Prod.fst) : (fields.lookup n).isSome := by
  rw [← Option.ne_none_iff_isSome]
  exact fun hnone => lookup_eq_none_iff_notMem.1 hnone hn

theorem NamesFields.readSection_eq {σ : Type} {head : String}
    {part? : Keyword → Option (Option String)} {toFields : σ → List (String × Json)}
    {set? : σ → String → Json → Option σ} {sect : Settings → σ} {check : σ → Except Fault Unit}
    {given : Option Json} (hnames : NamesFields head part? toFields set? sect)
    (husual : check (sect {}) = .ok ())
    (hgiven : ∀ v ∈ given, ∃ fields, v = .obj fields ∧ (fields.map Prod.fst).Nodup ∧
      ∀ e ∈ fields, e.1 ∈ (toFields (sect {})).map Prod.fst)
    (hlookup : ∀ n, ks.lookup (head ++ n) = given.bind (Json.field? n)) :
    readSection toFields set? check (sect {}) given =
      (check (sect (merged {} ks))).map fun _ => sect (merged {} ks) := by
  have hmerged := hnames.merged_eq {} ks
  simp only [hlookup] at hmerged
  cases given with
  | none =>
    have heq : sect (merged {} ks) = sect {} := hnames.isRecord.ext fun n => by
      rw [hmerged]
      simp
    rw [heq, husual]
    rfl
  | some v =>
    obtain ⟨fields, rfl, hdistinct, hknown⟩ := hgiven v rfl
    rw [readSection, knownFields_of_known hknown]
    exact hnames.isRecord.updateSection_eq hdistinct (fun e he => isSome_lookup (hknown e he))
      hmerged

theorem append_injective {head : String} {part : String → Keyword}
    (h : ∀ n, Keyword.ofText (head ++ n) = part n) (hpart : Function.Injective part) :
    Function.Injective (head ++ ·) := by
  intro m n hmn
  have hof := congrArg Keyword.ofText hmn
  rw [h, h] at hof
  exact hpart hof

theorem queryField_injective : Function.Injective ("query__" ++ · : String → String) :=
  append_injective ofText_queryField fun _ _ h => Keyword.queryField.inj h

theorem logField_injective : Function.Injective ("global___" ++ · : String → String) :=
  append_injective ofText_logField fun _ _ h => Keyword.logField.inj h

namespace IsLoadable

theorem home_eq (h : IsLoadable e) (hk : k ∈ fieldKeywords e) :
    (Keyword.ofText k.1).home = e.1 := by
  cases h with
  | query _ _ =>
    obtain ⟨d, -, rfl⟩ := List.mem_map.1 hk
    dsimp only
    rw [ofText_queryField, home]
  | log _ _ =>
    obtain ⟨d, -, rfl⟩ := List.mem_map.1 hk
    dsimp only
    rw [ofText_logField, home]
  | name v =>
    rw [List.mem_singleton.1 hk]
    show (Keyword.ofText "name").home = "name"
    decide
  | description v =>
    rw [List.mem_singleton.1 hk]
    show (Keyword.ofText "description").home = "description"
    decide

theorem exists_query (h : IsLoadable e) (hquery : e.1 = "query") :
    ∃ fields, e.2 = .obj fields ∧ (fields.map Prod.fst).Nodup ∧
      ∀ d ∈ fields, d.1 ∈ (QuerySettings.toFields {}).map Prod.fst := by
  cases h with
  | query hdistinct hknown => exact ⟨_, rfl, hdistinct, hknown⟩
  | log _ _ => exact absurd (show "global_" = "query" from hquery) (by decide)
  | name v => exact absurd (show "name" = "query" from hquery) (by decide)
  | description v => exact absurd (show "description" = "query" from hquery) (by decide)

theorem exists_log (h : IsLoadable e) (hlog : e.1 = "global_") :
    ∃ fields, e.2 = .obj fields ∧ (fields.map Prod.fst).Nodup ∧
      ∀ d ∈ fields, d.1 ∈ (LogSettings.toFields {}).map Prod.fst := by
  cases h with
  | query _ _ => exact absurd (show "query" = "global_" from hlog) (by decide)
  | log hdistinct hknown => exact ⟨_, rfl, hdistinct, hknown⟩
  | name v => exact absurd (show "name" = "global_" from hlog) (by decide)
  | description v => exact absurd (show "description" = "global_" from hlog) (by decide)

theorem nodup_keys (h : IsLoadable e) : ((fieldKeywords e).map Prod.fst).Nodup := by
  cases h with
  | @query fields hdistinct _ =>
    have hkeys : (fieldKeywords ("query", .obj fields)).map Prod.fst =
        (fields.map Prod.fst).map ("query__" ++ ·) := by
      rw [fieldKeywords, List.map_map, List.map_map]
      rfl
    rw [hkeys]
    exact hdistinct.map queryField_injective
  | @log fields hdistinct _ =>
    have hkeys : (fieldKeywords ("global_", .obj fields)).map Prod.fst =
        (fields.map Prod.fst).map ("global___" ++ ·) := by
      rw [fieldKeywords, List.map_map, List.map_map]
      rfl
    rw [hkeys]
    exact hdistinct.map logField_injective
  | name v => exact List.nodup_singleton _
  | description v => exact List.nodup_singleton _

theorem isSome_field? (h : IsLoadable e) (hk : k ∈ fieldKeywords e) (s : Settings) :
    (s.field? k.1).isSome := by
  cases h with
  | query _ hknown =>
    obtain ⟨d, hd, rfl⟩ := List.mem_map.1 hk
    rw [field?_queryField]
    exact isSome_lookup (hknown d hd)
  | log _ hknown =>
    obtain ⟨d, hd, rfl⟩ := List.mem_map.1 hk
    rw [field?_logField]
    exact isSome_lookup (hknown d hd)
  | name v =>
    rw [List.mem_singleton.1 hk]
    exact (IsDocumented.name none).isSome_field? s
  | description v =>
    rw [List.mem_singleton.1 hk]
    exact (IsDocumented.description none).isSome_field? s

end IsLoadable

/-- What is asked for by a keyword is said in one place. -/
theorem lookup_toKeywords (hdistinct : (doc.map Prod.fst).Nodup) (h : ∀ e ∈ doc, IsLoadable e)
    (t : String) :
    (toKeywords doc).lookup t = (doc.lookup (Keyword.ofText t).home).bind fun v =>
      (fieldKeywords ((Keyword.ofText t).home, v)).lookup t := by
  induction doc with
  | nil => rfl
  | cons e doc ih =>
    obtain ⟨hnew, hrest⟩ := List.nodup_cons.1 hdistinct
    have ih := ih hrest fun d hd => h d (List.mem_cons_of_mem e hd)
    have he := h e List.mem_cons_self
    rw [toKeywords, List.flatMap_cons, List.lookup_append]
    rw [toKeywords] at ih
    by_cases heq : (Keyword.ofText t).home = e.1
    · have hnone : doc.lookup e.1 = none := lookup_eq_none_iff_notMem.2 hnew
      rw [ih, heq, hnone, List.lookup_cons_self, Option.bind_none, Option.or_none]
      rfl
    · have hnone : (fieldKeywords e).lookup t = none := by
        refine lookup_eq_none_iff_notMem.2 fun hmem => ?_
        obtain ⟨k, hk, rfl⟩ := List.mem_map.1 hmem
        exact heq (he.home_eq hk)
      rw [ih, hnone, Option.none_or, lookup_cons_of_ne heq]

namespace AreLoadable

variable (h : AreLoadable doc)

include h

theorem nodup_keys : ((toKeywords doc).map Prod.fst).Nodup := by
  rw [toKeywords, List.map_flatMap, List.nodup_flatMap]
  refine ⟨fun e he => (h.loadable e he).nodup_keys, ?_⟩
  refine (List.pairwise_map.1 h.distinct).imp_of_mem fun {e d} he hd hne => ?_
  intro t ht ht'
  obtain ⟨k, hk, rfl⟩ := List.mem_map.1 ht
  obtain ⟨l, hl, hlk⟩ := List.mem_map.1 ht'
  refine hne ?_
  rw [← (h.loadable e he).home_eq hk, ← (h.loadable d hd).home_eq hl, hlk]

theorem areFields : AreFields (toKeywords doc) where
  distinct := h.nodup_keys
  known k hk s := by
    obtain ⟨e, he, hk⟩ := List.mem_flatMap.1 hk
    exact (h.loadable e he).isSome_field? hk s

theorem loadable_of_lookup {n : String} {v : Json} (hv : doc.lookup n = some v) :
    IsLoadable (n, v) :=
  h.loadable _ ((lookup_eq_some_iff_mem h.distinct).1 hv)

theorem lookup_queryField (n : String) :
    (toKeywords doc).lookup ("query__" ++ n) = (doc.lookup "query").bind (Json.field? n) := by
  rw [lookup_toKeywords h.distinct h.loadable, ofText_queryField, home]
  cases hv : doc.lookup "query" with
  | none => rfl
  | some v =>
    obtain ⟨fields, rfl, -, -⟩ := (h.loadable_of_lookup hv).exists_query rfl
    exact lookup_map_keys queryField_injective _ n

theorem lookup_logField (n : String) :
    (toKeywords doc).lookup ("global___" ++ n) = (doc.lookup "global_").bind (Json.field? n) := by
  rw [lookup_toKeywords h.distinct h.loadable, ofText_logField, home]
  cases hv : doc.lookup "global_" with
  | none => rfl
  | some v =>
    obtain ⟨fields, rfl, -, -⟩ := (h.loadable_of_lookup hv).exists_log rfl
    exact lookup_map_keys logField_injective _ n

theorem lookup_label {n : String} (hn : n = "name" ∨ n = "description") :
    (toKeywords doc).lookup n = doc.lookup n := by
  have htop : Keyword.ofText n = .top n := by rcases hn with rfl | rfl <;> decide
  rw [lookup_toKeywords h.distinct h.loadable, htop, home]
  cases doc.lookup n with
  | none => rfl
  | some v =>
    have hsame : fieldKeywords (n, v) = [(n, v)] := by rcases hn with rfl | rfl <;> rfl
    rw [Option.bind_some, hsame, List.lookup_cons_self]

theorem ofJson_eq_merged (hperm : (toKeywords doc).Perm ks) :
    ofJson (.obj doc) = (merged {} ks).check.map fun _ => merged {} ks := by
  have hlookup (t : String) : ks.lookup t = (toKeywords doc).lookup t :=
    (lookup_eq_of_perm hperm h.nodup_keys t).symm
  have hquery : readQuery (doc.lookup "query") =
      ((merged {} ks).query.check .invalidSettings).map fun _ => (merged {} ks).query := by
    refine namesFields_query.readSection_eq rfl (fun v hv => ?_) fun n => ?_
    · exact (h.loadable_of_lookup hv).exists_query rfl
    · rw [hlookup, h.lookup_queryField]
  have hlog : readLog (doc.lookup "global_") =
      ((merged {} ks).log.check .invalidSettings).map fun _ => (merged {} ks).log := by
    refine namesFields_log.readSection_eq rfl (fun v hv => ?_) fun n => ?_
    · exact (h.loadable_of_lookup hv).exists_log rfl
    · rw [hlookup, h.lookup_logField]
  have hname : (doc.lookup "name").getD .null = (merged {} ks).name := by
    rw [← h.lookup_label (.inl rfl), ← hlookup]
    rfl
  have hdescription : (doc.lookup "description").getD .null = (merged {} ks).description := by
    rw [← h.lookup_label (.inr rfl), ← hlookup]
    rfl
  rw [ofJson, hquery, hlog, hname, hdescription, check]
  cases hvalid : (merged {} ks).query.check .invalidSettings with
  | error d => rfl
  | ok =>
    cases hvalid' : (merged {} ks).log.check .invalidSettings with
    | error d => rfl
    | ok =>
      -- The last check sees the two sections that have just been checked.
      show (do (merged {} ks).check; return merged {} ks) = _
      rw [check, hvalid, hvalid']
      rfl

end AreLoadable

/-- To read a document whose fields are all known is to override the usual settings by keywords for
these fields, in whatever order they come. There are the same settings, or the same fault. -/
theorem ofJson_eq_override (h : AreLoadable doc) (hperm : (toKeywords doc).Perm ks) :
    ofJson (.obj doc) = (({} : Settings).override ks).map (·.apply {}) := by
  have hfields := h.areFields.of_perm hperm
  rw [h.ofJson_eq_merged hperm, hfields.override_eq_merged rfl]
  cases (merged {} ks).check with
  | error d => rfl
  | ok => exact congrArg Except.ok (hfields.apply_mergedRevision {}).symm

/-- Both fields of one section and the field of the other are invalid, and the limit is reported. -/
theorem ofJson_eq_override_invalid :
    let doc := [("global_", Json.obj [("logging_level", .str "LOUD")]),
      ("query", .obj [("cache_size_limit", .int (-1)), ("enable_caching", .arr [])])]
    let ks := [("query__enable_caching", Json.arr []), ("global___logging_level", .str "LOUD"),
      ("query__cache_size_limit", .int (-1))]
    AreLoadable doc ∧ (toKeywords doc).Perm ks ∧
      ofJson (.obj doc) = .error (.invalidSettings .negativeCacheLimit) ∧
      (({} : Settings).override ks).map (·.apply {}) =
        .error (.invalidSettings .negativeCacheLimit) := by
  intro doc ks
  have hdoc : AreLoadable doc := by
    refine ⟨by decide, fun e he => ?_⟩
    rcases List.mem_pair.1 he with rfl | rfl
    · exact .log (by decide) (by decide)
    · exact .query (by decide) (by decide)
  have hkeywords : toKeywords doc = [("global___logging_level", .str "LOUD"),
      ("query__cache_size_limit", .int (-1)), ("query__enable_caching", .arr [])] := rfl
  have hperm : (toKeywords doc).Perm ks := by
    rw [hkeywords]
    show ([_, _] ++ [_]).Perm ([_] ++ [_, _])
    exact List.perm_append_comm
  have hread : ofJson (.obj doc) = .error (.invalidSettings .negativeCacheLimit) := by
    rfl
  exact ⟨hdoc, hperm, hread, (ofJson_eq_override hdoc hperm).symm.trans hread⟩

end TreePath.Settings
