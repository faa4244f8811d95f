import TreePath.Proofs.Workspace.Profilers

namespace TreePath

theorem QuerySettings.yielded_count_countRun (q : QuerySettings) (yielded returned : Nat)
    (time : Float) (m : Metrics) :
    (q.count (.countRun yielded returned time) m).yielded - m.yielded =
      if q.enableMetrics.truthy then (yielded : Int) else 0 := by
  rw [count]
  split
  · show m.yielded + (yielded : Int) - m.yielded = yielded
    omega
  · exact Int.sub_self _

theorem Json.same_str_self (text : String) : (Json.str text).same (.str text) = true := by
  rw [Json.same]
  exact beq_self_eq_true _

namespace Workspace

open Profile

/-- A session for this expression and a tree of this size, whose phases so far had these names and
took so many operations. -/
structure Records (w : Workspace) (s : Slot LiveSession) (expression treeSize : Json)
    (phases : List (Json × Json)) : Prop where
  session_mem : s.index < w.sessions.size
  expression_eq : (w.sessions.get s).expression = expression
  treeSize_eq : (w.sessions.get s).treeSize = treeSize
  phases_mem : ∀ x ∈ (w.sessions.get s).phases, x.index < w.phases.size
  phases_eq : (w.sessions.get s).phases.map
    (fun x => ((w.phases.get x).name, (w.phases.get x).operations)) = phases

/-- A phase under way, which the session has not taken up yet. -/
structure Times (w : Workspace) (s : Slot LiveSession) (x : Slot Phase) (name operations : Json) :
    Prop where
  phase_mem : x.index < w.phases.size
  fresh : x ∉ (w.sessions.get s).phases
  name_eq : (w.phases.get x).name = name
  operations_eq : (w.phases.get x).operations = operations

variable {w w' : Workspace} {p : Slot Profiler} {s : Slot LiveSession} {x : Slot Phase}
  {expression treeSize name operations : Json} {phases : List (Json × Json)}

theorem Times.of_eq (h : w.Times s x name operations) (hsessions : w'.sessions = w.sessions)
    (hphases : w'.phases = w.phases) : w'.Times s x name operations := by
  refine ⟨?_, ?_, ?_, ?_⟩
  · rw [hphases]
    exact h.phase_mem
  · rw [hsessions]
    exact h.fresh
  · rw [hphases, h.name_eq]
  · rw [hphases, h.operations_eq]

theorem currentMemory_keeps (w : Workspace) (p : Slot Profiler) :
    (w.currentMemory p).2.sessions = w.sessions ∧ (w.currentMemory p).2.phases = w.phases := by
  rw [currentMemory]
  split <;> exact ⟨rfl, rfl⟩

theorem startPhase_eq (w : Workspace) (p : Slot Profiler) (name : Json) :
    ∃ phase : Phase, (phase.name = name ∧ phase.operations = .int 0) ∧
      (w.startPhase p name).1 = (w.phases.add phase).1 ∧
      (w.startPhase p name).2.phases = (w.phases.add phase).2 ∧
      (w.startPhase p name).2.sessions = w.sessions := by
  obtain ⟨hsessions, hphases⟩ := currentMemory_keeps w.now.2 p
  refine ⟨{ name, started := w.now.1, memoryBefore := .int (w.now.2.currentMemory p).1 },
    ⟨rfl, rfl⟩, ?_, ?_, hsessions⟩
  · exact congrArg (fun r : Registry Phase => (r.add _).1) hphases
  · exact congrArg (fun r : Registry Phase => (r.add _).2) hphases

theorem stopPhase_eq (w : Workspace) (p : Slot Profiler) (x : Slot Phase) :
    ∃ g : Phase → Phase, (∀ phase, (g phase).name = phase.name ∧
        (g phase).operations = phase.operations) ∧
      (w.stopPhase p x).phases = w.phases.modify x g ∧
      (w.stopPhase p x).sessions = w.sessions := by
  obtain ⟨hsessions, hphases⟩ := currentMemory_keeps w.now.2 p
  refine ⟨fun phase => { phase with
    ended := w.now.1, memoryAfter := .int (w.now.2.currentMemory p).1 },
    fun _ => ⟨rfl, rfl⟩, ?_, hsessions⟩
  exact congrArg (fun r : Registry Phase => r.modify x _) hphases

theorem endPhase_eq (w : Workspace) (p : Slot Profiler) (s : Slot LiveSession) (x : Slot Phase) :
    ∃ g : Phase → Phase, (∀ phase, (g phase).name = phase.name ∧
        (g phase).operations = phase.operations) ∧
      (w.endPhase p s x).phases = w.phases.modify x g ∧
      (w.endPhase p s x).sessions = w.sessions.modify s fun session =>
        { session with phases := session.phases ++ [x] } := by
  obtain ⟨g, hg, hphases, hsessions⟩ := w.stopPhase_eq p x
  refine ⟨g, hg, hphases, ?_⟩
  exact congrArg (fun r : Registry LiveSession => r.modify s _) hsessions

namespace Records

theorem startSession (w : Workspace) (p : Slot Profiler) (id expression treeSize : Json) :
    ∃ s w', w.startSession p id expression treeSize = (s, w') ∧ w.Undisturbed w' ∧
      w'.Records s expression treeSize [] := by
  have hget : (w.startSession p id expression treeSize).2.sessions.get
      (w.startSession p id expression treeSize).1 =
      { id, started := w.now.1, expression, treeSize, phases := [] } :=
    Registry.get_add _ _
  refine ⟨(w.startSession p id expression treeSize).1, (w.startSession p id expression treeSize).2,
    rfl, .startSession w p id expression treeSize, ?_, ?_, ?_, ?_, ?_⟩
  · exact Nat.lt_of_lt_of_eq (Nat.lt_succ_self _) (Registry.size_add _ _).symm
  · rw [hget]
  · rw [hget]
  · rw [hget]
    exact nofun
  · rw [hget]
    rfl

theorem of_get (h : w.Records s expression treeSize phases)
    (hsessions : w'.sessions.size = w.sessions.size) (hphases : w.phases.size ≤ w'.phases.size)
    (hsession : (w'.sessions.get s).expression = (w.sessions.get s).expression ∧
      (w'.sessions.get s).treeSize = (w.sessions.get s).treeSize ∧
      (w'.sessions.get s).phases = (w.sessions.get s).phases)
    (hphase : ∀ x ∈ (w.sessions.get s).phases, (w'.phases.get x).name = (w.phases.get x).name ∧
      (w'.phases.get x).operations = (w.phases.get x).operations) :
    w'.Records s expression treeSize phases := by
  obtain ⟨hexpression, htreeSize, hslots⟩ := hsession
  refine ⟨?_, ?_, ?_, ?_, ?_⟩
  · rw [hsessions]
    exact h.session_mem
  · rw [hexpression, h.expression_eq]
  · rw [htreeSize, h.treeSize_eq]
  · rw [hslots]
    exact fun x hx => Nat.lt_of_lt_of_le (h.phases_mem x hx) hphases
  · rw [hslots, ← h.phases_eq]
    refine List.map_congr_left fun x hx => ?_
    rw [(hphase x hx).1, (hphase x hx).2]

theorem of_eq (h : w.Records s expression treeSize phases) (hsessions : w'.sessions = w.sessions)
    (hphases : w'.phases = w.phases) : w'.Records s expression treeSize phases := by
  refine h.of_get ?_ ?_ ?_ fun x _ => ?_
  · rw [hsessions]
  · rw [hphases]
  · rw [hsessions]
    exact ⟨rfl, rfl, rfl⟩
  · rw [hphases]
    exact ⟨rfl, rfl⟩

theorem startPhase (h : w.Records s expression treeSize phases) (p : Slot Profiler) (name : Json) :
    (w.startPhase p name).2.Records s expression treeSize phases ∧
    (w.startPhase p name).2.Times s (w.startPhase p name).1 name (.int 0) := by
  obtain ⟨phase, ⟨hname, hoperations⟩, hslot, hphases, hsessions⟩ := w.startPhase_eq p name
  constructor
  · refine h.of_get ?_ ?_ ?_ fun x hx => ?_
    · rw [hsessions]
    · rw [hphases, Registry.size_add]
      exact Nat.le_succ _
    · rw [hsessions]
      exact ⟨rfl, rfl, rfl⟩
    · rw [hphases, Registry.get_add_of_lt phase (h.phases_mem x hx)]
      exact ⟨rfl, rfl⟩
  · refine ⟨?_, ?_, ?_, ?_⟩
    · rw [hslot, hphases, Registry.size_add]
      exact Nat.lt_succ_self _
    · rw [hslot, hsessions]
      exact fun hmem => Nat.lt_irrefl _ (h.phases_mem _ hmem)
    · rw [hslot, hphases, Registry.get_add, hname]
    · rw [hslot, hphases, Registry.get_add, hoperations]

theorem setOperations (h : w.Records s expression treeSize phases)
    {before : Json} (hx : w.Times s x name before) (operations : Json) :
    (w.setOperations x operations).Records s expression treeSize phases ∧
    (w.setOperations x operations).Times s x name operations := by
  constructor
  · refine h.of_get rfl ?_ ⟨rfl, rfl, rfl⟩ fun y hy => ?_
    · exact Nat.le_of_eq (Registry.size_modify _ _ _).symm
    · have hne : y ≠ x := fun hyx => hx.fresh (hyx ▸ hy)
      rw [Workspace.setOperations, Registry.get_modify_ne _ hne]
      exact ⟨rfl, rfl⟩
  · refine ⟨?_, hx.fresh, ?_, ?_⟩
    · exact Nat.lt_of_lt_of_eq hx.phase_mem (Registry.size_modify _ _ _).symm
    · rw [Workspace.setOperations, Registry.get_modify_self _ hx.phase_mem]
      exact hx.name_eq
    · rw [Workspace.setOperations, Registry.get_modify_self _ hx.phase_mem]

theorem endPhase (h : w.Records s expression treeSize phases)
    (hx : w.Times s x name operations) (p : Slot Profiler) :
    (w.endPhase p s x).Records s expression treeSize (phases ++ [(name, operations)]) := by
  obtain ⟨g, hg, hphases, hsessions⟩ := w.endPhase_eq p s x
  have hsession : (w.endPhase p s x).sessions.get s =
      { w.sessions.get s with phases := (w.sessions.get s).phases ++ [x] } := by
    rw [hsessions, Registry.get_modify_self _ h.session_mem]
  have hname (y : Slot Phase) :
      ((w.endPhase p s x).phases.get y).name = (w.phases.get y).name := by
    rw [hphases]
    exact Registry.apply_get_modify (fun phase => (hg phase).1) x y
  have hoperations (y : Slot Phase) :
      ((w.endPhase p s x).phases.get y).operations = (w.phases.get y).operations := by
    rw [hphases]
    exact Registry.apply_get_modify (fun phase => (hg phase).2) x y
  refine ⟨?_, ?_, ?_, ?_, ?_⟩
  · rw [hsessions, Registry.size_modify]
    exact h.session_mem
  · rw [hsession, ← h.expression_eq]
  · rw [hsession, ← h.treeSize_eq]
  · rw [hsession, hphases, Registry.size_modify]
    intro y hy
    rcases List.mem_append.1 hy with hy | hy
    · exact h.phases_mem y hy
    · rw [List.mem_singleton.1 hy]
      exact hx.phase_mem
  · simp only [hname, hoperations]
    rw [hsession, List.map_append, h.phases_eq, List.map_singleton, hx.name_eq, hx.operations_eq]

theorem operations_phase? (h : w.Records s expression treeSize phases) (name : Json) :
    ((w.sessionOf s).phase? name).map (·.operations) =
      (phases.find? fun entry => entry.1.same name).map (·.2) := by
  rw [← h.phases_eq, List.find?_map, Option.map_map]
  show ((((w.sessions.get s).phases.map w.phases.get).find? _).map _) = _
  rw [List.find?_map, Option.map_map]
  rfl

theorem operations_compile {compiled matched : Json}
    (h : w.Records s expression treeSize [("compile", compiled), ("match", matched)]) :
    ((w.sessionOf s).phase? "compile").map (·.operations) = some compiled := by
  rw [h.operations_phase?]
  simp only [List.find?_cons, Json.same_str_self]
  rfl

theorem operations_match {compiled matched : Json}
    (h : w.Records s expression treeSize [("compile", compiled), ("match", matched)]) :
    ((w.sessionOf s).phase? "match").map (·.operations) = some matched := by
  have hne : (Json.str "compile").same (.str "match") = false := by
    rw [Json.same]
    decide
  rw [h.operations_phase?]
  simp only [List.find?_cons, hne, Json.same_str_self]
  rfl

theorem profileCompilation (h : w.Records s expression treeSize phases) (p : Slot Profiler)
    {request : Json} {path : Path} (hpath : Path.ofJson request = .ok path) :
    ∃ w', w.profileCompilation p s request = (.ok path, w') ∧ w.Undisturbed w' ∧
      w'.Records s expression treeSize
        (phases ++ [(("compile" : Json), Json.int path.steps.length)]) := by
  obtain ⟨hstarted, hphase⟩ := h.startPhase p "compile"
  obtain ⟨hcounted, hphase⟩ := hstarted.setOperations hphase (.int path.steps.length)
  have hsame := Undisturbed.profileCompilation w p s request
  rw [Workspace.profileCompilation, hpath] at hsame ⊢
  exact ⟨_, rfl, hsame, hcounted.endPhase hphase p⟩

end Records

/-- A run is counted by the metrics of the matcher if they are counted at all, and it leaves alone
what is measured. -/
theorem Equipped.run (h : w.Equipped (w.profilers.get p).matcher) {path : Path} {n : ElementId}
    {sel : Selection} (hsel : w.forest.select path n = .ok sel) :
    let counter := (w.matchers.get (w.profilers.get p).matcher).metrics
    ∃ w', w.run (w.profilers.get p).matcher path n = (.ok sel.members, w') ∧
      (w'.sessions = w.sessions ∧ w'.phases = w.phases) ∧
      (w'.forest = w.forest ∧ w'.profilers = w.profilers) ∧
      (w'.metrics.get counter).yielded - (w.metrics.get counter).yielded =
        if (w.querySettingsOf p).enableMetrics.truthy then (sel.yielded : Int) else 0 := by
  intro counter
  have hnow : w.now.2.forest.select path n = .ok sel := hsel
  refine ⟨w.now.2.now.2.noteRun (w.profilers.get p).matcher path n sel
    ((w.now.2.now.1 - w.now.1) * 1000), ?_, ⟨rfl, rfl⟩, ⟨rfl, rfl⟩, ?_⟩
  · dsimp only [Workspace.run]
    rw [hnow]
  · have hcounted : ((w.now.2.now.2.noteRun (w.profilers.get p).matcher path n sel
        ((w.now.2.now.1 - w.now.1) * 1000)).metrics.get counter) = _ :=
      Registry.get_modify_self _ h.metrics_mem
    rw [hcounted]
    exact QuerySettings.yielded_count_countRun _ _ _ _ _

namespace Records

theorem profileMatch (h : w.Records s expression treeSize phases)
    (hp : w.Equipped (w.profilers.get p).matcher) {path : Path} {n : ElementId} {sel : Selection}
    (hsel : w.forest.select path n = .ok sel) :
    let counted : Int := if (w.querySettingsOf p).enableMetrics.truthy then sel.yielded else 0
    ∃ w', w.profileMatch p s n path = (.ok sel.members, w') ∧
      (w'.forest = w.forest ∧ w'.profilers = w.profilers) ∧
      w'.Records s expression treeSize (phases ++ [(("match" : Json), Json.int counted)]) := by
  intro counted
  obtain ⟨hstarted, hphase⟩ := h.startPhase p "match"
  have hsame := Undisturbed.startPhase w p "match"
  have hready := hp.of_grows (.of_undisturbed hsame)
  rw [← hsame.profilers_eq] at hready
  rw [← hsame.forest_eq] at hsel
  obtain ⟨ran, hrun, ⟨hsessions, hphases⟩, ⟨hforest, hprofilers⟩, hcounted⟩ := hready.run hsel
  rw [hsame.querySettingsOf_eq] at hcounted
  -- The run touches neither the session nor the phase, and the phase is none of the session's yet.
  have hran := hstarted.of_eq hsessions hphases
  obtain ⟨hset, hphase⟩ := hran.setOperations (hphase.of_eq hsessions hphases) (.int counted)
  have hended := Undisturbed.endPhase (ran.setOperations (w.startPhase p "match").1 (.int counted))
    p s (w.startPhase p "match").1
  refine ⟨_, ?_, ⟨?_, ?_⟩, hset.endPhase hphase p⟩
  · dsimp only [Workspace.profileMatch]
    rw [hrun]
    dsimp only
    rw [hcounted]
  · rw [hended.forest_eq]
    exact hforest.trans hsame.forest_eq
  · rw [hended.profilers_eq]
    exact hprofilers.trans hsame.profilers_eq

theorem of_modify (h : w.Records s expression treeSize phases) {g : LiveSession → LiveSession}
    (hsessions : w'.sessions = w.sessions.modify s g)
    (hg : ∀ session, (g session).expression = session.expression ∧
      (g session).treeSize = session.treeSize ∧ (g session).phases = session.phases)
    (hphases : w'.phases = w.phases) : w'.Records s expression treeSize phases := by
  refine h.of_get ?_ ?_ ?_ fun x _ => ?_
  · rw [hsessions, Registry.size_modify]
  · rw [hphases]
  · rw [hsessions, Registry.get_modify_self g h.session_mem]
    exact hg _
  · rw [hphases]
    exact ⟨rfl, rfl⟩

end Records

theorem profileQuery_eq {started compiled matched : Workspace} {id request : Json} {n : ElementId}
    {path : Path} {found : List ElementId}
    (hstarted : w.startSession p id request
      (.int (w.forest.preorder (w.forest.root n)).length) = (s, started))
    (hcompiled : started.profileCompilation p s request = (.ok path, compiled))
    (hmatched : compiled.profileMatch p s n path = (.ok found, matched)) :
    w.profileQuery p id n request = (.ok s, (matched.modifySession s fun session =>
      { session with resultCount := .int found.length }).endSession p s) := by
  dsimp only [profileQuery]
  rw [hstarted]
  dsimp only
  rw [hcompiled]
  dsimp only
  rw [hmatched]

/-- A query for a text that is a path ends with a new session, for which all has been measured
before the number of results and the end are noted. -/
theorem exists_measured_of_ofText (hready : w.Equipped (w.profilers.get p).matcher) {e : String}
    {path : Path} (he : Path.ofText e = .ok path) (id : Json) (n : ElementId) :
    let size := Json.int (w.forest.preorder (w.forest.root n)).length
    ∃ s sel, ∃ measured : Workspace, s.index = w.sessions.size ∧
      w.forest.select path n = .ok sel ∧
      w.profileQuery p id n (.str e) = (.ok s, (measured.modifySession s fun session =>
        { session with resultCount := .int sel.members.length }).endSession p s) ∧
      (measured.forest = w.forest ∧ measured.profilers = w.profilers) ∧
      let counted : Int := if (w.querySettingsOf p).enableMetrics.truthy then sel.yielded else 0
      measured.Records s (.str e) size
        [("compile", .int path.steps.length), ("match", .int counted)] := by
  intro size
  obtain ⟨sel, hsel⟩ := w.forest.exists_select_of_ofText he n
  have hread : Path.ofJson (.str e) = .ok path := by
    rw [Path.ofJson, he]
    rfl
  obtain ⟨s, started, hstarted, hsame, hrecords⟩ := Records.startSession w p id (.str e) size
  have hnew : s.index = w.sessions.size := congrArg (·.1.index) hstarted.symm
  obtain ⟨compiled, hcompiled, hsame', hrecords⟩ := hrecords.profileCompilation p hread
  have hsame := hsame.trans hsame'
  have hready := hready.of_grows (.of_undisturbed hsame)
  rw [← hsame.profilers_eq] at hready
  have hsel' := hsel
  rw [← hsame.forest_eq] at hsel'
  obtain ⟨matched, hmatched, ⟨hforest, hprofilers⟩, hrecords⟩ :=
    hrecords.profileMatch hready hsel'
  rw [hsame.querySettingsOf_eq] at hrecords
  exact ⟨s, sel, matched, hnew, hsel, profileQuery_eq hstarted hcompiled hmatched,
    ⟨hforest.trans hsame.forest_eq, hprofilers.trans hsame.profilers_eq⟩, hrecords⟩

theorem profileQuery_of_ofText (hp : p.index < w.profilers.size)
    (hready : w.Equipped (w.profilers.get p).matcher) {e : String} {path : Path}
    (he : Path.ofText e = .ok path) (id : Json) (n : ElementId) :
    let size := Json.int (w.forest.preorder (w.forest.root n)).length
    let k := w.forest.fanOut path.steps (w.forest.seedMembers path.seed n).eraseDups
    let counted : Int := if (w.querySettingsOf p).enableMetrics.truthy then k else 0
    ∃ s w', w.profileQuery p id n (.str e) = (.ok s, w') ∧
      w'.Records s (.str e) size [("compile", .int path.steps.length), ("match", .int counted)] ∧
      w'.forest = w.forest ∧
      (w'.profilers.get p).sessions = (w.profilers.get p).sessions ++ [s] := by
  intro size k counted
  obtain ⟨s, sel, measured, -, hsel, hquery, ⟨hforest, hprofilers⟩, hrecords⟩ :=
    exists_measured_of_ofText hready he id n
  have hk : sel.yielded = k := Forest.yielded_select hsel
  rw [hk] at hrecords
  -- What is left is to note the number of results and the end of the session.
  refine ⟨s, _, hquery, ?_, hforest, ?_⟩
  · have hnoted : (measured.modifySession s fun session =>
        { session with resultCount := .int sel.members.length }).Records s (.str e) size _ :=
      hrecords.of_modify rfl (fun _ => ⟨rfl, rfl, rfl⟩) rfl
    exact hnoted.of_modify rfl (fun _ => ⟨rfl, rfl, rfl⟩) rfl
  · rw [← hprofilers] at hp ⊢
    exact congrArg (·.sessions) (Registry.get_modify_self _ hp)

/-- The operations of the match are all that the steps yield, exactly if metrics are counted or
nothing is yielded. Without metrics no operations are seen. -/
theorem Arises.profileQuery_measures (h : w.Arises) (hp : p.index < w.profilers.size) {e : String}
    {path : Path} (he : Path.ofText e = .ok path) (id : Json) (n : ElementId) :
    let k := w.forest.fanOut path.steps (w.forest.seedMembers path.seed n).eraseDups
    let counts := (w.querySettingsOf p).enableMetrics.truthy = true
    ∃ s w', w.profileQuery p id n (.str e) = (.ok s, w') ∧
      let measured := ((w'.sessionOf s).phase? "match").map (·.operations)
      (measured = some (.int k) ↔ counts ∨ k = 0) ∧ (¬ counts → measured = some (.int 0)) := by
  intro k counts
  obtain ⟨s, w', hquery, hrecords, -, -⟩ :=
    profileQuery_of_ofText hp (h.allEquipped p hp) he id n
  refine ⟨s, w', hquery, ?_⟩
  dsimp only
  rw [hrecords.operations_match]
  by_cases hcounts : counts
  · rw [if_pos hcounts]
    exact ⟨⟨fun _ => .inl hcounts, fun _ => rfl⟩, fun hoff => absurd hcounts hoff⟩
  · rw [if_neg hcounts]
    refine ⟨?_, fun _ => rfl⟩
    constructor
    · intro hmeasured
      have hzero : (0 : Int) = k := by simpa only [Json.int, Option.some.injEq, Json.num.injEq,
        Number.int.injEq] using hmeasured
      exact .inr (Int.ofNat_eq_zero.1 hzero.symm)
    · rintro (hon | hzero)
      · exact absurd hon hcounts
      · rw [hzero]
        rfl

/-- A forest and a profiler that goes by these settings. -/
def profiled (f : Forest) (q : QuerySettings) : Workspace :=
  (Workspace.act { forest := f } (.createSettings { query := q })).perform
    (.addProfiler (some ⟨0⟩) false)

theorem arises_profiled (f : Forest) (q : QuerySettings) : (profiled f q).Arises :=
  ((Arises.start.change f {} { last := 0 } { last := 0 } true).act
    (.createSettings { query := q })).perform (.addProfiler (some ⟨0⟩) false)

theorem profilers_profiled (f : Forest) (q : QuerySettings) : 0 < (profiled f q).profilers.size :=
  Nat.zero_lt_one

theorem steps_slashes : Step.ofText "//b" = .ok [.descendantOrSelf, .tag "b"] := by
  have hdown : Step.read? "//b".toList = some (.descendantOrSelf, ['b']) := by decide
  have htag : Step.read? ['b'] = some (.tag "b", []) := by decide
  rw [Step.ofText_eq_ok_iff, Step.scan_of_some hdown, Step.scan_of_some htag,
    Step.scan_of_none rfl]

theorem ofText_slashes :
    Path.ofText "//b" = .ok ⟨"//b", .root, [.descendantOrSelf, .tag "b"]⟩ :=
  Path.ofText_eq_ok steps_slashes

theorem fanOut_slashes :
    Forest.grove.fanOut [.descendantOrSelf, .tag "b"]
      (Forest.grove.seedMembers .root ⟨0⟩).eraseDups = 3 := by
  decide

theorem Arises.profileQuery_measures_grove :
    let w := profiled .grove {}
    w.Arises ∧ 0 < w.profilers.size ∧
      Path.ofText "//b" = .ok ⟨"//b", .root, [.descendantOrSelf, .tag "b"]⟩ ∧
      ∃ s w', w.profileQuery ⟨0⟩ "s" ⟨0⟩ "//b" = (.ok s, w') ∧
        ((w'.sessionOf s).phase? "match").map (·.operations) = some (.int 3) := by
  intro w
  have h : w.Arises := arises_profiled .grove {}
  have hp : 0 < w.profilers.size := profilers_profiled .grove {}
  obtain ⟨s, w', hquery, hmeasured, -⟩ :=
    h.profileQuery_measures (p := ⟨0⟩) hp ofText_slashes "s" ⟨0⟩
  have hk : w.forest.fanOut _ (w.forest.seedMembers .root ⟨0⟩).eraseDups = 3 := fanOut_slashes
  rw [hk] at hmeasured
  exact ⟨h, hp, ofText_slashes, s, w', hquery, hmeasured.2 (.inl rfl)⟩

/-- The same query without metrics, by which the match takes no operations. -/
theorem profileQuery_unmeasured :
    let w := profiled .grove { enableMetrics := false }
    let steps := [Step.descendantOrSelf, .tag "b"]
    w.Arises ∧ w.forest.WellFormed ∧ 0 < w.profilers.size ∧
      Path.ofText "//b" = .ok ⟨"//b", .root, steps⟩ ∧
      w.forest.fanOut steps (w.forest.seedMembers .root ⟨0⟩).eraseDups = 3 ∧
      ∃ s w', w.profileQuery ⟨0⟩ "s" ⟨0⟩ "//b" = (.ok s, w') ∧
        ((w'.sessionOf s).phase? "match").map (·.operations) = some (.int 0) := by
  intro w steps
  have h : w.Arises := arises_profiled .grove { enableMetrics := false }
  have hp : 0 < w.profilers.size := profilers_profiled .grove { enableMetrics := false }
  obtain ⟨s, w', hquery, hrecords, -, -⟩ :=
    profileQuery_of_ofText (p := ⟨0⟩) hp (h.allEquipped ⟨0⟩ hp) ofText_slashes "s" ⟨0⟩
  exact ⟨h, Forest.reachable_grove.wellFormed, hp, ofText_slashes, fanOut_slashes, s, w', hquery,
    hrecords.operations_match⟩

end Workspace

end TreePath
