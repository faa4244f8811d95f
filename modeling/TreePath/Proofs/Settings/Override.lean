import TreePath.Proofs.Except
import TreePath.Proofs.Settings
import TreePath.Proofs.Settings.Fields
import TreePath.Proofs.Settings.Keywords

namespace TreePath.Settings

open Keyword

section Revising

variable {σ : Type} {toFields : σ → List (String × Json)} {set? : σ → String → Json → Option σ}
  {check : σ → Except Fault Unit} {s : σ} {t : Option σ} {asks : List (Option String × Json)}
  {asked a b : Option Json}

theorem IsRecord.revise_congr (h : IsRecord toFields set?) (hab : Alike a b) :
    (revise set? check s a).mapError Fault.kind = (revise set? check s b).mapError Fault.kind := by
  cases hab with
  | refl => rfl
  | fields hfields hothers hlookup =>
    rcases h.setAll_congr s hfields hothers hlookup with ⟨t, ht, hu⟩ | ⟨n, m, hn, hm⟩
    · rw [revise, revise, updateSection, updateSection, ht, hu]
    · rw [revise, revise, updateSection, updateSection, hn, hm]
      rfl

theorem IsRecord.lookup_of_revise (h : IsRecord toFields set?) (hasks : Asks asks (.ok asked))
    (ht : revise set? check s asked = .ok t) (n : String) :
    (toFields (t.getD s)).lookup n =
      ((asks.lookup (some n)).or ((asks.lookup none).bind (Json.field? n))).or
        ((toFields s).lookup n) := by
  cases hasks with
  | nothing hnil =>
    subst hnil
    cases ht
    rfl
  | fields fields _ hfields _ hlookup =>
    obtain ⟨t, hupdate, ht⟩ := Except.exists_of_bind_eq_ok ht
    cases ht
    obtain ⟨u, hu, hchecked⟩ := Except.exists_of_bind_eq_ok hupdate
    obtain ⟨_, _, ht⟩ := Except.exists_of_bind_eq_ok hchecked
    cases ht
    rcases h.setAll_cases s hfields with ⟨w, hw, -, hset⟩ | ⟨m, hm, -⟩
    · cases hu.symm.trans hw
      rw [Option.getD_some, hset, hlookup]
    · cases hu.symm.trans hm
  | notObject v _ hno =>
    cases v with
    | obj whole => exact (hno whole rfl).elim
    | _ => cases ht

end Revising

variable {s : Settings} {r : Revision} {ks ls : List (String × Json)}

def labelFields (labels : Json × Json) : List (String × Json) :=
  [("name", labels.1), ("description", labels.2)]

def setLabel? (labels : Json × Json) (name : String) (v : Json) : Option (Json × Json) :=
  match name with
  | "name" => some (v, labels.2)
  | "description" => some (labels.1, v)
  | _ => none

theorem isRecord_labels : IsRecord labelFields setLabel? where
  ext {s t} h := by
    have hname : some s.1 = some t.1 := h "name"
    have hdescription : some s.2 = some t.2 := h "description"
    exact Prod.ext (Option.some.inj hname) (Option.some.inj hdescription)
  isSome_set? s n v := by
    unfold setLabel? labelFields
    split <;> simp_all [lookup_cons_eq_ite]
  lookup_self h := by
    unfold setLabel? at h
    split at h <;> cases h <;> rfl
  lookup_of_ne h hne := by
    unfold setLabel? at h
    split at h <;> cases h <;> simp [labelFields, lookup_cons_eq_ite, hne]

theorem reviseTop_eq (r : Revision) (top : List (String × Json)) :
    reviseTop r top = (do
      let labels ← setAll setLabel? (r.name, r.description) top
      return { r with name := labels.1, description := labels.2 }) := by
  fun_induction reviseTop r top with
  | case1 => rfl
  | case2 r v top ih => exact ih
  | case3 r v top ih => exact ih
  | case4 r name v top hname hdescription =>
    have hunknown : setLabel? (r.name, r.description) name v = none := by
      unfold setLabel?
      split
      · exact (hname rfl).elim
      · exact (hdescription rfl).elim
      · rfl
    rw [setAll, hunknown]
    rfl

/-- What becomes of settings, given what is asked of each section and of the other fields. -/
def reviseAll (s : Settings) (query log : Option Json) (top : List (String × Json)) :
    Except Fault Revision := do
  let query ← revise QuerySettings.set? (·.check .invalidSettings) s.query query
  let log ← revise LogSettings.set? (·.check .invalidSettings) s.log log
  let labels ← setAll setLabel? (s.name, s.description) top
  let r : Revision := { query, log, name := labels.1, description := labels.2 }
  (r.apply s).check
  return r

theorem override_eq (hdistinct : (ks.map Prod.fst).Nodup) :
    s.override ks = (do
      if ks.any (·.1 = reservedKeyword) then throw .reservedKeyword
      let query ← (parts queryPart? ks).foldlM ask none
      let log ← (parts logPart? ks).foldlM ask none
      s.reviseAll query log (parts topPart? ks)) := by
  simp only [override, ofKeywords_eq hdistinct, reviseTop_eq, reviseAll, bind_assoc, pure_bind]

theorem reviseAll_congr {query log query' log' : Option Json} {top top' : List (String × Json)}
    (hquery : Alike query query') (hlog : Alike log log') (htop : top.Perm top')
    (hdistinct : (top.map Prod.fst).Nodup) :
    (s.reviseAll query log top).mapError Fault.kind =
      (s.reviseAll query' log' top').mapError Fault.kind := by
  refine Except.mapError_bind_congr (isRecord_query.revise_congr hquery) fun query => ?_
  refine Except.mapError_bind_congr (isRecord_log.revise_congr hlog) fun log => ?_
  refine Except.mapError_bind_congr ?_ fun labels => rfl
  have hdistinct' : (top'.map Prod.fst).Nodup := (htop.map Prod.fst).nodup hdistinct
  rcases isRecord_labels.setAll_congr (s.name, s.description) hdistinct hdistinct'
    (lookup_eq_of_perm htop hdistinct) with ⟨labels, hlabels, hlabels'⟩ | ⟨n, m, hn, hm⟩
  · rw [hlabels, hlabels']
  · rw [hn, hm]
    rfl

/-- The value of the field that a keyword is about. A section as a whole is no field. -/
def field? (s : Settings) (keyword : String) : Option Json :=
  match Keyword.ofText keyword with
  | .queryField name => s.query.toFields.lookup name
  | .logField name => s.log.toFields.lookup name
  | .top name => (labelFields (s.name, s.description)).lookup name
  | .query | .log => none

/-- The value that keywords ask for in the field that a keyword is about: that of the keyword
itself, or else the one in the value for the whole section. -/
def asked? (ks : List (String × Json)) (keyword : String) : Option Json :=
  match Keyword.ofText keyword with
  | .queryField name => (ks.lookup keyword).or ((ks.lookup "query").bind (Json.field? name))
  | .logField name => (ks.lookup keyword).or ((ks.lookup "global_").bind (Json.field? name))
  | .top _ => ks.lookup keyword
  | .query | .log => none

theorem override_bind_congr {α : Type} {asks others : List (Option String × Json)}
    {F G : Option Json → Except Fault α} (h : Asks asks (asks.foldlM ask none))
    (h' : Asks others (others.foldlM ask none)) (hperm : asks.Perm others)
    (hdistinct : (asks.map Prod.fst).Nodup)
    (hFG : ∀ a b, Alike a b → (F a).mapError Fault.kind = (G b).mapError Fault.kind) :
    (asks.foldlM ask none >>= F).mapError Fault.kind =
      (others.foldlM ask none >>= G).mapError Fault.kind := by
  rcases (h.of_perm hperm hdistinct).alike h' with ⟨a, b, ha, hb, hab⟩ | ⟨e, ha, hb⟩
  · rw [ha, hb]
    exact hFG a b hab
  · rw [ha, hb]
    rfl

theorem override_congr (h : IsPassed ks) (hperm : ks.Perm ls) (hfirst : WholeFirst ks)
    (hfirst' : WholeFirst ls) :
    (s.override ks).mapError Fault.kind = (s.override ls).mapError Fault.kind := by
  have h' := h.of_perm hperm
  have hany := hperm.any_eq (f := fun e => decide (e.1 = reservedKeyword))
  rw [override_eq h.distinct, override_eq h'.distinct, hany]
  split
  · rfl
  refine override_bind_congr (asks_parts isSection_query h hfirst)
    (asks_parts isSection_query h' hfirst') (parts_perm hperm)
    (nodup_parts isSection_query.isPart h.distinct) fun query query' hquery => ?_
  refine override_bind_congr (asks_parts isSection_log h hfirst)
    (asks_parts isSection_log h' hfirst') (parts_perm hperm)
    (nodup_parts isSection_log.isPart h.distinct) fun log log' hlog => ?_
  exact reviseAll_congr hquery hlog (parts_perm hperm) (nodup_parts isPart_top h.distinct)

theorem field?_of_override (h : IsPassed ks) (hfirst : WholeFirst ks)
    (hr : s.override ks = .ok r) (keyword : String) :
    (r.apply s).field? keyword = (asked? ks keyword).or (s.field? keyword) := by
  rw [override_eq h.distinct] at hr
  split at hr
  · cases hr
  obtain ⟨query, hquery, hr⟩ := Except.exists_of_bind_eq_ok hr
  obtain ⟨log, hlog, hr⟩ := Except.exists_of_bind_eq_ok hr
  obtain ⟨newQuery, hnewQuery, hr⟩ := Except.exists_of_bind_eq_ok hr
  obtain ⟨newLog, hnewLog, hr⟩ := Except.exists_of_bind_eq_ok hr
  obtain ⟨labels, hlabels, hr⟩ := Except.exists_of_bind_eq_ok hr
  obtain ⟨_, _, hr⟩ := Except.exists_of_bind_eq_ok hr
  cases hr
  have hasksQuery := asks_parts isSection_query h hfirst
  have hasksLog := asks_parts isSection_log h hfirst
  rw [hquery] at hasksQuery
  rw [hlog] at hasksLog
  unfold field? asked?
  cases hk : Keyword.ofText keyword with
  | query => rfl
  | log => rfl
  | queryField name =>
    have hown := lookup_parts isSection_query.isPart h.distinct (congrArg queryPart? hk)
    have hwhole := lookup_parts isSection_query.isPart h.distinct
      (show queryPart? (Keyword.ofText "query") = some none by decide)
    exact (isRecord_query.lookup_of_revise hasksQuery hnewQuery name).trans (by rw [hown, hwhole])
  | logField name =>
    have hown := lookup_parts isSection_log.isPart h.distinct (congrArg logPart? hk)
    have hwhole := lookup_parts isSection_log.isPart h.distinct
      (show logPart? (Keyword.ofText "global_") = some none by decide)
    exact (isRecord_log.lookup_of_revise hasksLog hnewLog name).trans (by rw [hown, hwhole])
  | top name =>
    have hown := lookup_parts isPart_top h.distinct (congrArg topPart? hk)
    rcases isRecord_labels.setAll_cases (s.name, s.description)
      (nodup_parts isPart_top h.distinct) with ⟨t, ht, -, hset⟩ | ⟨n, hn, -⟩
    · cases hlabels.symm.trans ht
      exact (hset name).trans (by rw [hown])
    · cases hlabels.symm.trans hn

theorem parts_top_effective (ks : List (String × Json)) :
    parts topPart? (effective ks) = parts topPart? ks := by
  induction ks with
  | nil => rfl
  | cons e ks ih =>
    rw [effective]
    split
    · next hany =>
      obtain ⟨d, -, hde⟩ := List.any_eq_true.1 hany
      cases he : Keyword.ofText e.1 with
      | top name =>
        rw [he, covers_top] at hde
        cases hde
      | _ => rw [ih, parts_cons_of_none (congrArg topPart? he)]
    · cases hp : topPart? (Keyword.ofText e.1) with
      | none => rw [parts_cons_of_none hp, parts_cons_of_none hp, ih]
      | some name => rw [parts_cons_of_some hp, parts_cons_of_some hp, ih]

theorem any_reserved_effective (ks : List (String × Json)) :
    (effective ks).any (·.1 = reservedKeyword) = ks.any (·.1 = reservedKeyword) := by
  induction ks with
  | nil => rfl
  | cons e ks ih =>
    rw [effective]
    split
    · next hany =>
      obtain ⟨d, -, hde⟩ := List.any_eq_true.1 hany
      have hne : e.1 ≠ reservedKeyword := by
        intro he
        have htop : Keyword.ofText reservedKeyword = .top "self" := by decide
        rw [he, htop, covers_top] at hde
        cases hde
      rw [ih, List.any_cons, decide_eq_false hne, Bool.false_or]
    · rw [List.any_cons, List.any_cons, ih]

theorem override_effective (hdistinct : (ks.map Prod.fst).Nodup) :
    s.override (effective ks) = s.override ks := by
  have hkept := hdistinct.sublist ((effective_sublist ks).map Prod.fst)
  have hopen : ∀ v ∈ (none : Option Json), ∃ fields, v = .obj fields := nofun
  rw [override_eq hkept, override_eq hdistinct, any_reserved_effective, parts_top_effective,
    foldlM_parts_effective isSection_query hdistinct (.inl hopen),
    foldlM_parts_effective isSection_log hdistinct (.inl hopen)]

/-- In every order of keywords in which no field comes before its section as a whole, the outcome is
the same: a fault of the same kind, or settings in which every field has the value that was asked
for, or else the one it had. Otherwise the fields in question might as well not be named. -/
theorem override_any_order (h : IsPassed ks) (hperm : ks.Perm ls) :
    (WholeFirst ks → WholeFirst ls →
      (s.override ks).mapError Fault.kind = (s.override ls).mapError Fault.kind ∧
      ∀ r, s.override ks = .ok r →
        ∀ keyword, (r.apply s).field? keyword = (asked? ks keyword).or (s.field? keyword)) ∧
    s.override ks = s.override (effective ks) := by
  refine ⟨fun hfirst hfirst' => ⟨?_, fun r hr => ?_⟩, (override_effective h.distinct).symm⟩
  · exact override_congr h hperm hfirst hfirst'
  · exact field?_of_override h hfirst hr

theorem override_any_order_name :
    let query : String × Json := ("query", .obj [("enable_caching", false)])
    let limit : String × Json := ("query__cache_size_limit", .int 5)
    let name : String × Json := ("name", "n")
    let ks := [query, limit, name]
    let ls := [name, query, limit]
    let r : Revision := {
      query := some { enableCaching := false, cacheSizeLimit := .int 5 }
      name := "n"
      description := .null }
    IsPassed ks ∧ ks.Perm ls ∧ WholeFirst ks ∧ WholeFirst ls ∧
    ({} : Settings).override ks = .ok r ∧
      (({} : Settings).override ls).mapError Fault.kind = .ok r ∧
      (r.apply {}).field? "query__enable_caching" = some (.bool false) ∧
      (r.apply {}).field? "query__cache_size_limit" = some (.int 5) ∧
      (r.apply {}).field? "query__enable_metrics" = some (.bool true) := by
  intro query limit name ks ls r
  have hpassed : IsPassed ks := by
    refine ⟨by decide, ?_⟩
    simp only [ks, List.forall_mem_cons]
    refine ⟨fun fields hfields => ?_, nofun, nofun, nofun⟩
    cases hfields
    decide
  have hperm : ks.Perm ls := List.perm_append_singleton name [query, limit]
  have hfirst : WholeFirst ks := by decide
  have hfirst' : WholeFirst ls := by decide
  have hr : ({} : Settings).override ks = .ok r := by
    subst ks r query limit name
    rfl
  obtain ⟨hsame, hfield⟩ := (override_any_order (s := {}) hpassed hperm).1 hfirst hfirst'
  rw [hr] at hsame
  have hfield := hfield r hr
  exact ⟨hpassed, hperm, hfirst, hfirst', hr, hsame.symm, hfield _, hfield _, hfield _⟩

/-- The limit of the cache is forgotten, even an invalid one, if its section is named after it. -/
theorem override_order_matters :
    let query : String × Json := ("query", .obj [("enable_caching", false)])
    let limit (n : Int) : String × Json := ("query__cache_size_limit", .int n)
    let revised (n : Int) : Revision := {
      query := some { enableCaching := false, cacheSizeLimit := .int n }
      name := .null
      description := .null }
    ({} : Settings).override [query, limit 5] = .ok (revised 5) ∧
    ({} : Settings).override [limit 5, query] = .ok (revised 256) ∧
    ({} : Settings).override [query, limit (-1)] = .error (.invalidSettings .negativeCacheLimit) ∧
    ({} : Settings).override [limit (-1), query] = .ok (revised 256) :=
  ⟨rfl, rfl, rfl, rfl⟩

end TreePath.Settings
