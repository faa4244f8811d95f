import TreePath.Proofs.Json.RoundTrip
import TreePath.Proofs.Settings
import TreePath.Settings.Document

namespace TreePath

/-- The entries are these and others with other keys. -/
def Extends {α : Type} (extended entries : List (String × α)) : Prop :=
  extended.filter (fun e => (entries.map Prod.fst).contains e.1) = entries

section

variable {α : Type} {k : String} {extended entries : List (String × α)}

theorem extends_refl (entries : List (String × α)) : Extends entries entries := by
  rw [Extends, List.filter_eq_self]
  intro e he
  rw [List.contains_iff_mem]
  exact List.mem_map_of_mem he

theorem lookup_filter {p : String → Bool} (hk : p k = true) :
    (entries.filter fun e => p e.1).lookup k = entries.lookup k := by
  induction entries with
  | nil => rfl
  | cons e entries ih =>
    rw [List.filter_cons, List.lookup_cons]
    by_cases heq : k = e.1
    · rw [← heq, if_pos hk, List.lookup_cons, ← heq, beq_self_eq_true]
    · have hbeq : (k == e.1) = false := beq_false_of_ne heq
      rw [hbeq]
      split
      · rw [List.lookup_cons, hbeq]
        exact ih
      · exact ih

theorem Extends.lookup (h : Extends extended entries) (hk : k ∈ entries.map Prod.fst) :
    extended.lookup k = entries.lookup k := by
  rw [← List.contains_iff_mem] at hk
  calc extended.lookup k
    _ = (extended.filter fun e => (entries.map Prod.fst).contains e.1).lookup k :=
        (lookup_filter hk).symm
    _ = entries.lookup k := congrArg (List.lookup k) h

end

namespace Settings

variable {s : Settings} {doc : List (String × Json)} {n : Int} {layout : Json.Layout}
  {depth : Nat} {indent : Json}

/-- The fields have values of their declared kinds, where a truth value counts as an integer. -/
structure IsDeclared (s : Settings) : Prop where
  caching : ∃ t, s.query.enableCaching = .bool t
  limit : ∃ n, s.query.limit? = some (.int n)
  metrics : ∃ t, s.query.enableMetrics = .bool t
  level : ∃ level, s.log.loggingLevel = .str level
  tracking : ∃ t, s.log.enableCorrelationTracking = .bool t
  name : ∃ name, s.name = .ofOption name
  description : ∃ description, s.description = .ofOption description

/-- The object that settings are written as, with unknown fields added to it and to its sections. -/
def IsDocument (s : Settings) (doc : List (String × Json)) : Prop :=
  ∃ query log, Extends query s.query.toFields ∧ Extends log s.log.toFields ∧
    Extends doc [("query", .obj query), ("global_", .obj log), ("name", s.name),
      ("description", s.description)]

theorem knownFields_of_extends {known fields extended : List (String × Json)}
    (hknown : known.map Prod.fst = fields.map Prod.fst) (h : Extends extended fields) :
    knownFields known (.obj extended) = .ok fields := by
  have hsame (e : String × Json) :
      known.any (·.1 = e.1) = (fields.map Prod.fst).contains e.1 := by
    rw [← hknown, Bool.eq_iff_iff]
    simp
  simp only [knownFields, hsame]
  exact congrArg Except.ok h

theorem readSection_of_extends {σ : Type} {toFields : σ → List (String × Json)}
    {set? : σ → String → Json → Option σ} {check : σ → Except Fault Unit} {usual t : σ}
    {fields extended : List (String × Json)}
    (h : Extends extended fields) (hvalid : check t = .ok ())
    (hknown : (toFields usual).map Prod.fst = fields.map Prod.fst)
    (hset : setAll set? usual fields = .ok t) :
    readSection toFields set? check usual (some (.obj extended)) = .ok t := by
  rw [readSection, knownFields_of_extends hknown h]
  show updateSection set? check usual fields = _
  rw [updateSection, hset]
  show (do check t; return t) = _
  rw [hvalid]
  rfl

theorem IsDocument.ofJson (h : s.IsDocument doc) (hvalid : s.check = .ok ()) :
    ofJson (.obj doc) = .ok s := by
  obtain ⟨query, log, hquery, hlog, hdoc⟩ := h
  obtain ⟨_, hqueryValid, hlogValid⟩ := Except.exists_of_bind_eq_ok hvalid
  have hqueryRead : readQuery (some (.obj query)) = .ok s.query :=
    readSection_of_extends hquery hqueryValid rfl rfl
  have hlogRead : readLog (some (.obj log)) = .ok s.log :=
    readSection_of_extends hlog hlogValid rfl rfl
  have hlookupQuery : doc.lookup "query" = some (.obj query) := hdoc.lookup (by simp)
  have hlookupLog : doc.lookup "global_" = some (.obj log) := hdoc.lookup (by simp)
  have hlookupName : doc.lookup "name" = some s.name := hdoc.lookup (by simp)
  have hlookupDescription : doc.lookup "description" = some s.description := hdoc.lookup (by simp)
  simp only [Settings.ofJson, hlookupQuery, hlookupLog, hlookupName, hlookupDescription,
    hqueryRead, hlogRead, bind, Except.bind, pure, Except.pure, Option.getD_some]
  rw [hvalid]

theorem ofJson_toJson (hvalid : s.check = .ok ()) : ofJson s.toJson = .ok s := by
  have hdocument : s.IsDocument [("query", .obj s.query.toFields), ("global_", .obj s.log.toFields),
      ("name", s.name), ("description", s.description)] :=
    ⟨_, _, extends_refl _, extends_refl _, extends_refl _⟩
  exact hdocument.ofJson hvalid

theorem number?_eq_int {v : Json} (h : v.number? = some (.int n)) :
    v = .int n ∨ ∃ t, v = .bool t := by
  cases v with
  | bool t => exact .inr ⟨t, rfl⟩
  | num k =>
    cases h
    exact .inl rfl
  | null | str | arr | obj => cases h

theorem IsDeclared.exists_eq (h : s.IsDeclared) (hn : s.query.limit? = some (.int n)) :
    ∃ caching limit metrics level tracking name description,
      s = ⟨⟨.bool caching, limit, .bool metrics⟩, ⟨.str level, .bool tracking⟩, .ofOption name,
        .ofOption description⟩ ∧ (limit = .int n ∨ ∃ t, limit = .bool t) := by
  obtain ⟨⟨caching, hcaching⟩, _, ⟨metrics, hmetrics⟩, ⟨level, hlevel⟩, ⟨tracking, htracking⟩,
    ⟨name, hname⟩, ⟨description, hdescription⟩⟩ := h
  refine ⟨caching, s.query.cacheSizeLimit, metrics, level, tracking, name, description, ?_,
    number?_eq_int hn⟩
  rw [← hcaching, ← hmetrics, ← hlevel, ← htracking, ← hname, ← hdescription]

theorem IsDeclared.isPlain (h : s.IsDeclared) : s.toJson.IsPlain := by
  obtain ⟨n, hn⟩ := h.limit
  obtain ⟨caching, limit, metrics, level, tracking, name, description, rfl, hlimit⟩ :=
    h.exists_eq hn
  have hplain : limit.IsPlain := by
    rcases hlimit with rfl | ⟨t, rfl⟩
    · exact .int n
    · exact .bool t
  have htext (t : Option String) : (Json.ofOption t).IsPlain := by
    cases t with
    | none => exact .null
    | some t => exact .str t
  have hkeys : ["enable_caching", "cache_size_limit", "enable_metrics"].Nodup ∧
      ["logging_level", "enable_correlation_tracking"].Nodup ∧ topFields.Nodup := by decide
  have hquery : (Json.obj [("enable_caching", .bool caching), ("cache_size_limit", limit),
      ("enable_metrics", .bool metrics)]).IsPlain := by
    refine .obj hkeys.1 ?_
    simp only [List.forall_mem_cons]
    exact ⟨.bool caching, hplain, .bool metrics, nofun⟩
  have hlog : (Json.obj [("logging_level", .str level),
      ("enable_correlation_tracking", .bool tracking)]).IsPlain := by
    refine .obj hkeys.2.1 ?_
    simp only [List.forall_mem_cons]
    exact ⟨.str level, .bool tracking, nofun⟩
  refine .obj hkeys.2.2 ?_
  simp only [List.forall_mem_cons]
  exact ⟨hquery, hlog, htext name, htext description, nofun⟩

theorem IsDeclared.verdict_eq (h : s.IsDeclared) (hn : s.query.limit? = some (.int n))
    (hdepth : 2 ≤ depth) :
    Json.verdict ⟨Json.maxDigits, depth⟩ s.toJson = Json.fits Json.maxDigits n := by
  obtain ⟨caching, limit, metrics, level, tracking, name, description, rfl, hlimit⟩ :=
    h.exists_eq hn
  obtain ⟨depth, rfl⟩ := Nat.exists_eq_add_of_le' hdepth
  have htext (b : Json.Bounds) (t : Option String) : Json.verdict b (.ofOption t) = .ok () := by
    cases t <;> rfl
  have hlimit : Json.verdict ⟨Json.maxDigits, depth⟩ limit = Json.fits Json.maxDigits n := by
    rcases hlimit with rfl | ⟨t, rfl⟩
    · rfl
    · cases t <;> cases hn <;> rfl
  have hinner (digits depth : Nat) :
      Json.Bounds.inner ⟨digits, depth + 1⟩ = .ok ⟨digits, depth⟩ := rfl
  simp only [toJson, QuerySettings.toFields, LogSettings.toFields, Json.verdict,
    Json.verdictOfFields, hinner, hlimit, htext, bind, Except.bind]
  cases Json.fits Json.maxDigits n <;> rfl

theorem IsDeclared.dump_eq (h : s.IsDeclared) (hn : s.query.limit? = some (.int n))
    (layout : Json.Layout) : s.toJson.dump layout =
      if Json.isWritableInt n then .ok (s.toJson.render layout) else .error .tooLong := by
  obtain ⟨caching, limit, metrics, level, tracking, name, description, rfl, hlimit⟩ :=
    h.exists_eq hn
  have htext (t : Option String) : (Json.ofOption t).integers = [] := by
    cases t <;> rfl
  have hlimit : limit.integers.all Json.isWritableInt = Json.isWritableInt n := by
    rcases hlimit with rfl | ⟨t, rfl⟩
    · exact Bool.and_true _
    · cases t <;> cases hn <;> rfl
  rw [Json.dump]
  simp only [toJson, QuerySettings.toFields, LogSettings.toFields, Json.integers,
    Json.integersOfFields, htext, List.nil_append, List.append_nil, hlimit]

theorem limit_nonneg (hvalid : s.check = .ok ()) (hn : s.query.limit? = some (.int n)) :
    0 ≤ n := by
  obtain ⟨_, hquery, _⟩ := Except.exists_of_bind_eq_ok hvalid
  exact (QuerySettings.check_eq_ok_iff hn).1 hquery

theorem ofIndent_natCast (k : Nat) : Json.Layout.ofIndent (.int k) =
    if 2 ^ 63 ≤ k then .error .outOfRange else .ok (.spaces k) := by
  show (if (k : Int) < -Int.pow 2 63 ∨ Int.pow 2 63 ≤ (k : Int) then _ else _) = _
  have hrange : (k : Int) < -Int.pow 2 63 ∨ Int.pow 2 63 ≤ (k : Int) ↔ 2 ^ 63 ≤ k := by
    have hpow : Int.pow 2 63 = 9223372036854775808 := rfl
    rw [hpow]
    omega
  simp only [hrange]
  rfl

theorem IsDeclared.toText_eq (h : s.IsDeclared) (hn : s.query.limit? = some (.int n))
    (hlayout : Json.Layout.ofIndent indent = .ok layout) :
    s.toText indent =
      if Json.isWritableInt n then .ok (s.toJson.render layout)
      else .error (.unwritable .tooLong) := by
  have htext : s.toText indent = (s.toJson.dump layout).mapError .unwritable := by
    rw [toText, hlayout]
    rfl
  rw [htext, h.dump_eq hn layout]
  cases Json.isWritableInt n <;> rfl

theorem two_le_length_render (s : Settings) (layout : Json.Layout) :
    2 ≤ (s.toJson.render layout).length := by
  rw [Json.render, String.length_ofList]
  exact Nat.le_trans (Nat.le_add_left 2 _) (Json.length_write_obj layout 0 _ _)

theorem IsDeclared.exists_toText (h : s.IsDeclared) (hvalid : s.check = .ok ())
    (hn : s.query.limit? = some (.int n)) (hlt : n < 10 ^ Json.maxDigits)
    (hlayout : Json.Layout.ofIndent indent = .ok layout) (hblank : layout.IsBlank) :
    ∃ text, s.toText indent = .ok text ∧ ofText text = .ok s := by
  have hwritable := (Json.isWritableInt_iff (limit_nonneg hvalid hn)).2 hlt
  have hfits : Json.fits Json.maxDigits n = .ok () := if_pos (of_decide_eq_true hwritable)
  refine ⟨s.toJson.render layout, ?_, ?_⟩
  · rw [h.toText_eq hn hlayout, if_pos hwritable]
  · rw [ofText, h.isPlain.read_render hblank,
      h.verdict_eq hn (s.two_le_length_render layout), hfits]
    exact ofJson_toJson hvalid

/-- Valid settings come back from the object they are written as, from that object with unknown
fields added, and from its text, under every indent of less than 2 ^ 63 spaces. For a text, the
limit may have as many digits as are written. -/
theorem document_round_trip (hdeclared : s.IsDeclared) (hvalid : s.check = .ok ()) :
    ofJson s.toJson = .ok s ∧ (∀ doc, s.IsDocument doc → ofJson (.obj doc) = .ok s) ∧
      ∀ n, s.query.limit? = some (.int n) → n < 10 ^ Json.maxDigits →
        ∀ indent, (indent = .null ∨ ∃ k : Nat, k < 2 ^ 63 ∧ indent = .int k) →
          ∃ text, s.toText indent = .ok text ∧ ofText text = .ok s := by
  refine ⟨ofJson_toJson hvalid, fun doc h => h.ofJson hvalid, ?_⟩
  intro n hn hlt indent hindent
  rcases hindent with rfl | ⟨k, hk, rfl⟩
  · exact hdeclared.exists_toText hvalid hn hlt rfl trivial
  · have hlayout : Json.Layout.ofIndent (.int k) = .ok (.spaces k) := by
      rw [ofIndent_natCast, if_neg (Nat.not_le.2 hk)]
    exact hdeclared.exists_toText hvalid hn hlt hlayout (Json.Layout.isBlank_spaces k)

theorem document_round_trip_named :
    let s : Settings := {
      query := { cacheSizeLimit := .int 16 }
      log := { loggingLevel := "ERROR" }
      name := "\"\\\x01\u00E9😀" }
    let query := s.query.toFields ++ [("shards", .arr [.null, .float 0.5])]
    let log := ("colour", .bool false) :: s.log.toFields
    let doc := [("version", .int 2), ("query", .obj query), ("global_", .obj log),
      ("name", s.name), ("more", .obj []), ("description", s.description)]
    ofJson s.toJson = .ok s ∧ ofJson (.obj doc) = .ok s ∧
      ∃ text, s.toText (.int 2) = .ok text ∧ ofText text = .ok s := by
  intro s query log doc
  have hdeclared : s.IsDeclared :=
    ⟨⟨_, rfl⟩, ⟨16, rfl⟩, ⟨_, rfl⟩, ⟨_, rfl⟩, ⟨_, rfl⟩, ⟨some _, rfl⟩, ⟨none, rfl⟩⟩
  have hvalid : s.check = .ok () := rfl
  have hdoc : s.IsDocument doc := ⟨query, log, rfl, rfl, rfl⟩
  have hlimit {digits : Nat} (hdigits : 2 ≤ digits) : (16 : Int) < 10 ^ digits := by
    have hlt : 16 < 10 ^ digits :=
      Nat.lt_of_lt_of_le (show 16 < 10 ^ 2 by decide) (Nat.pow_le_pow_right (by decide) hdigits)
    exact_mod_cast hlt
  obtain ⟨hobject, hdocument, htext⟩ := document_round_trip hdeclared hvalid
  exact ⟨hobject, hdocument doc hdoc,
    htext 16 rfl (hlimit (by decide)) (.int 2) (.inr ⟨2, by decide, rfl⟩)⟩

/-- An indent may be too wide, and a limit too long. -/
theorem round_trip_fails_beyond_bounds :
    let long : Settings := { query := { cacheSizeLimit := .int (10 ^ Json.maxDigits) } }
    (({} : Settings).IsDeclared ∧ ({} : Settings).check = .ok () ∧
      ({} : Settings).toText (.int (2 ^ 63 : Nat)) = .error (.layout .outOfRange)) ∧
    long.IsDeclared ∧ long.check = .ok () ∧
      long.toText .null = .error (.unwritable .tooLong) := by
  intro long
  have hdeclared {n : Int} : ({ query := { cacheSizeLimit := .int n } } : Settings).IsDeclared :=
    ⟨⟨_, rfl⟩, ⟨n, rfl⟩, ⟨_, rfl⟩, ⟨_, rfl⟩, ⟨_, rfl⟩, ⟨none, rfl⟩, ⟨none, rfl⟩⟩
  have hnonneg : (0 : Int) ≤ 10 ^ Json.maxDigits := Int.pow_nonneg (by decide)
  have hlong : long.check = .ok () := by
    rw [check, (QuerySettings.check_eq_ok_iff rfl).2 hnonneg]
    rfl
  refine ⟨⟨hdeclared, rfl, ?_⟩, hdeclared, hlong, ?_⟩
  · have hlayout : Json.Layout.ofIndent (.int (2 ^ 63 : Nat)) = .error .outOfRange := by
      rw [ofIndent_natCast, if_pos (Nat.le_refl _)]
    rw [toText, hlayout]
    rfl
  · have hlong : ¬Json.isWritableInt (10 ^ Json.maxDigits) := by
      rw [Json.isWritableInt_iff hnonneg]
      exact Int.lt_irrefl _
    exact (hdeclared.toText_eq rfl rfl).trans (if_neg hlong)

end Settings

end TreePath
