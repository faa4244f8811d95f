import TreePath.Proofs.Registry
import TreePath.Proofs.Settings.Merge
import TreePath.Workspace.Settings

namespace TreePath.Workspace

open Settings

/-- The settings are there, and so are their sections. -/
structure Holds (w : Workspace) (c : Slot SharedSettings) : Prop where
  settings_mem : c.index < w.settings.size
  query_mem : (w.settings.get c).query.index < w.querySettings.size
  log_mem : (w.settings.get c).log.index < w.logSettings.size

/-- Settings and sections may be added, and those that are there stay what they are. -/
structure AddsSettings (w w' : Workspace) : Prop where
  settings : w.settings.Extends w'.settings
  querySettings : w.querySettings.Extends w'.querySettings
  logSettings : w.logSettings.Extends w'.logSettings

variable {w w' : Workspace} {c d : Slot SharedSettings} {ks ls : List (String × Json)}
  {r : Revision}

namespace AddsSettings

theorem refl (w : Workspace) : w.AddsSettings w :=
  ⟨.refl _, .refl _, .refl _⟩

variable (h : w.AddsSettings w') (hc : w.Holds c)

include h hc

theorem get_eq : w'.settings.get c = w.settings.get c :=
  h.settings.get_eq c hc.settings_mem

theorem settingsOf_eq : w'.settingsOf c = w.settingsOf c := by
  rw [settingsOf, h.get_eq hc, h.querySettings.get_eq _ hc.query_mem,
    h.logSettings.get_eq _ hc.log_mem]
  rfl

end AddsSettings

theorem holds_createSettings (w : Workspace) (s : Settings) :
    (w.createSettings s).2.Holds (w.createSettings s).1 := by
  have hget : (w.createSettings s).2.settings.get (w.createSettings s).1 =
      ⟨(w.querySettings.add s.query).1, (w.logSettings.add s.log).1, s.name, s.description⟩ :=
    Registry.get_add _ _
  refine ⟨Registry.index_add_lt _ _, ?_, ?_⟩
  · rw [hget]
    exact Registry.index_add_lt _ _
  · rw [hget]
    exact Registry.index_add_lt _ _

theorem overrideSettings_of_ok (hr : (w.settingsOf c).override ks = .ok r) :
    let old := w.settings.get c
    let query := w.querySettings.addOr old.query r.query
    let log := w.logSettings.addOr old.log r.log
    let revised := w.settings.add ⟨query.1, log.1, r.name, r.description⟩
    w.overrideSettings c ks = (.ok revised.1,
      { w with querySettings := query.2, logSettings := log.2, settings := revised.2 }) := by
  rw [overrideSettings, hr]

/-- New settings, with the sections of older ones where there are no others. -/
structure Revises (w w' : Workspace) (c d : Slot SharedSettings) (r : Revision) : Prop where
  adds : w.AddsSettings w'
  fresh : w.settings.size ≤ d.index
  holds : w'.Holds d
  settingsOf_eq : w'.settingsOf d = r.apply (w.settingsOf c)
  query_eq : r.query = none → (w'.settings.get d).query = (w.settings.get c).query
  log_eq : r.log = none → (w'.settings.get d).log = (w.settings.get c).log

namespace Holds

variable (hc : w.Holds c)

include hc

theorem revises (hr : (w.settingsOf c).override ks = .ok r) :
    ∃ d, (w.overrideSettings c ks).1 = .ok d ∧ w.Revises (w.overrideSettings c ks).2 c d r := by
  rw [overrideSettings_of_ok hr]
  refine ⟨_, rfl, ?_, Nat.le_refl _, ?_, ?_, ?_, ?_⟩
  · exact ⟨.add _ _, Registry.extends_addOr _ _ _, Registry.extends_addOr _ _ _⟩
  · refine ⟨Registry.index_add_lt _ _, ?_, ?_⟩
    · rw [Registry.get_add]
      exact Registry.index_addOr_lt hc.query_mem _
    · rw [Registry.get_add]
      exact Registry.index_addOr_lt hc.log_mem _
  · rw [settingsOf, Registry.get_add, Registry.get_addOr, Registry.get_addOr]
    rfl
  · intro hnone
    rw [Registry.get_add, hnone]
    rfl
  · intro hnone
    rw [Registry.get_add, hnone]
    rfl

theorem addsSettings (ks : List (String × Json)) :
    w.AddsSettings (w.overrideSettings c ks).2 := by
  cases hr : (w.settingsOf c).override ks with
  | error e =>
    rw [overrideSettings, hr]
    exact .refl w
  | ok r =>
    obtain ⟨_, -, hrevises⟩ := hc.revises hr
    exact hrevises.adds

end Holds

theorem overrideSettings_of_invalid {e : Fault} (hvalid : (w.settingsOf c).check = .ok ())
    (hks : AreDocumented ks) (hmerged : ((w.settingsOf c).merged ks).check = .error e) :
    w.overrideSettings c ks = (.error e, w) := by
  rw [overrideSettings, hks.areFields.override_eq_merged hvalid, hmerged]
  rfl

namespace Holds

variable (hc : w.Holds c) (hvalid : (w.settingsOf c).check = .ok ()) (hks : AreDocumented ks)

include hc hvalid hks

theorem revises_merged (hmerged : ((w.settingsOf c).merged ks).check = .ok ()) :
    ∃ d, (w.overrideSettings c ks).1 = .ok d ∧
      w.Revises (w.overrideSettings c ks).2 c d ((w.settingsOf c).mergedRevision ks) := by
  refine hc.revises ?_
  rw [hks.areFields.override_eq_merged hvalid, hmerged]
  rfl

theorem map_settingsOf_overrideSettings :
    (w.overrideSettings c ks).1.map (w.overrideSettings c ks).2.settingsOf =
      ((w.settingsOf c).merged ks).check.map fun _ => (w.settingsOf c).merged ks := by
  cases hmerged : ((w.settingsOf c).merged ks).check with
  | error e =>
    rw [overrideSettings_of_invalid hvalid hks hmerged]
    rfl
  | ok =>
    obtain ⟨d, hd, hrevises⟩ := hc.revises_merged hvalid hks hmerged
    rw [hd]
    refine congrArg Except.ok ?_
    rw [hrevises.settingsOf_eq, hks.apply_mergedRevision]

theorem overrideSettings_again (hls : AreDocumented ls)
    (hd : (w.overrideSettings c ks).1 = .ok d) :
    let out := w.overrideSettings c ks
    let again := out.2.overrideSettings d ls
    let once := w.overrideSettings c (mergeEntries (ks ++ ls))
    again.1.map again.2.settingsOf = once.1.map once.2.settingsOf := by
  intro out again once
  cases hmerged : ((w.settingsOf c).merged ks).check with
  | error e =>
    rw [overrideSettings_of_invalid hvalid hks hmerged] at hd
    cases hd
  | ok =>
    obtain ⟨_, hd', hrevises⟩ := hc.revises_merged hvalid hks hmerged
    cases hd.symm.trans hd'
    have hsettings : out.2.settingsOf d = (w.settingsOf c).merged ks :=
      hrevises.settingsOf_eq.trans (hks.apply_mergedRevision _)
    have hvalid' : (out.2.settingsOf d).check = .ok () := hsettings ▸ hmerged
    rw [hrevises.holds.map_settingsOf_overrideSettings hvalid' hls,
      hc.map_settingsOf_overrideSettings hvalid (hks.mergeEntries hls), hsettings,
      hks.merged_merged hls]

end Holds

/-- Keywords for single fields are merged into valid settings if what results is valid, and sections
that no keyword is about are shared. Otherwise the first field is reported that has a value that it
may not have. Whatever was there before is the same afterwards. Merged settings can be merged with
more, with the same outcome as if all had come at once. -/
theorem Holds.overrideSettings_merges (hc : w.Holds c) (hvalid : (w.settingsOf c).check = .ok ())
    (hks : AreDocumented ks) :
    let t := (w.settingsOf c).merged ks
    let out := w.overrideSettings c ks
    ((∀ reason : Invalid, ¬ reason.Occurs t) → ∃ d, out.1 = .ok d ∧ out.2.settingsOf d = t ∧
      w.settings.size ≤ d.index ∧
      ((∀ e ∈ ks, ∀ field, e.1 ≠ "query__" ++ field) →
        (out.2.settings.get d).query = (w.settings.get c).query) ∧
      ((∀ e ∈ ks, ∀ field, e.1 ≠ "global___" ++ field) →
        (out.2.settings.get d).log = (w.settings.get c).log)) ∧
    (Invalid.negativeCacheLimit.Occurs t → ∃ reason,
      out = (.error (.invalidSettings reason), w) ∧
      reason.sectionName ++ "." ++ reason.field = "query.cache_size_limit" ∧
      reason.suggestions = ["Use 0 to disable the compiled path cache"]) ∧
    (¬ Invalid.negativeCacheLimit.Occurs t → Invalid.unknownLoggingLevel.Occurs t → ∃ reason,
      out = (.error (.invalidSettings reason), w) ∧
      reason.sectionName ++ "." ++ reason.field = "global_.logging_level" ∧
      reason.suggestions = ["DEBUG", "INFO", "WARNING", "ERROR", "CRITICAL"]) ∧
    (∀ x, w.Holds x → out.2.settings.get x = w.settings.get x ∧
      out.2.settingsOf x = w.settingsOf x) ∧
    ∀ ls, AreDocumented ls → ∀ d, out.1 = .ok d →
      let again := out.2.overrideSettings d ls
      let once := w.overrideSettings c (mergeEntries (ks ++ ls))
      again.1.map again.2.settingsOf = once.1.map once.2.settingsOf := by
  intro t out
  have hadds := hc.addsSettings ks
  have hinvalid {e : Fault} (h : t.check = .error e) : out = (.error e, w) :=
    overrideSettings_of_invalid hvalid hks h
  have hcases := check_cases (hks.isLimited_merged hvalid)
  refine ⟨fun hno => ?_, fun hlimit => ?_, fun hlimit hlevel => ?_,
    fun x hx => ⟨hadds.get_eq hx, hadds.settingsOf_eq hx⟩,
    fun ls hls d hd => hc.overrideSettings_again hvalid hks hls hd⟩
  · rcases hcases with ⟨hlimit, -⟩ | ⟨-, hlevel, -⟩ | ⟨-, hmerged⟩
    · exact (hno _ hlimit).elim
    · exact (hno _ hlevel).elim
    · obtain ⟨d, hd, hrevises⟩ := hc.revises_merged hvalid hks hmerged
      exact ⟨d, hd, hrevises.settingsOf_eq.trans (hks.apply_mergedRevision _), hrevises.fresh,
        fun h => hrevises.query_eq (namesFields_query.mergedSection_eq_none hks h _),
        fun h => hrevises.log_eq (namesFields_log.mergedSection_eq_none hks h _)⟩
  · rcases hcases with ⟨-, hmerged⟩ | ⟨hnot, -⟩ | ⟨hno, -⟩
    · exact ⟨_, hinvalid hmerged, by decide, rfl⟩
    · exact (hnot hlimit).elim
    · exact (hno _ hlimit).elim
  · rcases hcases with ⟨h, -⟩ | ⟨-, -, hmerged⟩ | ⟨hno, -⟩
    · exact (hlimit h).elim
    · exact ⟨_, hinvalid hmerged, by decide, rfl⟩
    · exact (hno _ hlevel).elim

theorem Holds.overrideSettings_merges_limit :
    let made := ({} : Workspace).createSettings {}
    let ks := [("query__cache_size_limit", Json.int 5)]
    let ls := [("name", Json.str "n")]
    let out := made.2.overrideSettings made.1 ks
    made.2.Holds made.1 ∧ (made.2.settingsOf made.1).check = .ok () ∧ AreDocumented ks ∧
      ∃ d, out.1 = .ok d ∧ (out.2.settingsOf d).query.cacheSizeLimit = .int 5 ∧
        (out.2.settings.get d).log = (made.2.settings.get made.1).log ∧
        out.2.settingsOf made.1 = made.2.settingsOf made.1 ∧
        (out.2.overrideSettings d ls).1.map (out.2.overrideSettings d ls).2.settingsOf =
          .ok { query := { cacheSizeLimit := .int 5 }, name := "n" } := by
  intro made ks ls out
  have hmade : made.2.Holds made.1 := holds_createSettings _ _
  have hvalid : (made.2.settingsOf made.1).check = .ok () := rfl
  have hks : AreDocumented ks := ⟨by decide, fun e he => by
    cases List.mem_singleton.1 he
    exact .limit rfl⟩
  have hls : AreDocumented ls := ⟨by decide, fun e he => by
    cases List.mem_singleton.1 he
    exact .name (some "n")⟩
  obtain ⟨hmerges, -, -, hsame, hagain⟩ := hmade.overrideSettings_merges hvalid hks
  have hno (reason : Invalid) : ¬ reason.Occurs ((made.2.settingsOf made.1).merged ks) := by
    rcases check_cases (hks.isLimited_merged hvalid) with ⟨-, h⟩ | ⟨-, -, h⟩ | ⟨hno, -⟩
    · cases h
    · cases h
    · exact hno reason
  obtain ⟨d, hd, hsettings, -, -, hlog⟩ := hmerges hno
  refine ⟨hmade, hvalid, hks, d, hd, ?_, hlog ?_, (hsame _ hmade).2, (hagain ls hls d hd).trans rfl⟩
  · rw [hsettings]
    rfl
  · intro e he field hfield
    cases List.mem_singleton.1 he
    have hhead := congrArg (fun t => t.toList.head?) hfield
    rw [String.toList_append] at hhead
    cases hhead

end TreePath.Workspace
