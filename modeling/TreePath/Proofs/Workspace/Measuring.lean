import TreePath.Proofs.Json.Entries
import TreePath.Proofs.Workspace.Sessions

namespace TreePath

def Counter.ofCompiler : List Counter :=
  [.compilations, .cacheHits, .cacheMisses]

namespace Metrics

theorem advanceValue_of_ne {c d : Counter} (h : d ≠ c) (n : Nat) (v : Json) :
    advanceValue c n d v = v := by
  rw [advanceValue]
  split
  · exact if_neg h
  · rfl

theorem lookup_advance {c d : Counter} (h : d ≠ c) (n : Nat) (others : List (Counter × Json)) :
    (advance c n others).lookup d = others.lookup d := by
  rw [advance, lookup_map_values (advanceValue c n)]
  cases others.lookup d with
  | none => rfl
  | some v => exact congrArg some (advanceValue_of_ne h n v)

theorem value_countRun {c : Counter} (hc : c ∈ Counter.ofCompiler) (yielded returned : Nat)
    (time : Float) (m : Metrics) : (m.countRun yielded returned time).value c = m.value c := by
  obtain ⟨hcount, hruns, hyielded, hreturned⟩ :
      (m.countRun yielded returned time).count c = m.count c ∧
        c ≠ .runs ∧ c ≠ .yielded ∧ c ≠ .returned := by
    cases c with
    | compilations | cacheHits | cacheMisses => exact ⟨rfl, by decide, by decide, by decide⟩
    | runs | yielded | returned => exact absurd hc (by decide)
  rw [value, value, hcount]
  simp only [countRun, lookup_advance hruns, lookup_advance hyielded, lookup_advance hreturned]

end Metrics

theorem QuerySettings.value_count_countRun (q : QuerySettings) {c : Counter}
    (hc : c ∈ Counter.ofCompiler) (yielded returned : Nat) (time : Float) (m : Metrics) :
    (q.count (.countRun yielded returned time) m).value c = m.value c := by
  rw [count]
  split
  · exact Metrics.value_countRun hc yielded returned time m
  · rfl

namespace Workspace

open Profile

def measurements (w : Workspace) : Registry Profiler × Registry LiveSession × Registry Phase :=
  (w.profilers, w.sessions, w.phases)

def nextSession (w : Workspace) : Slot LiveSession :=
  ⟨w.sessions.size⟩

/-- A session with its phases has been added, and maybe kept. The elements, the compilers with their
caches and counters, the other sessions and their phases are as they were. -/
structure Measures (w w' : Workspace) : Prop where
  forest_eq : w'.forest = w.forest
  compilers_eq : w'.compilers = w.compilers
  value_eq : ∀ m, ∀ c ∈ Counter.ofCompiler, (w'.metrics.get m).value c = (w.metrics.get m).value c
  kept : ∀ p, (w'.profilers.get p).sessions ⊆ w.nextSession :: (w.profilers.get p).sessions
  size_eq : w'.sessions.size = w.sessions.size + 1
  session_eq : ∀ s, s ≠ w.nextSession → w'.sessions.get s = w.sessions.get s
  phases_mem : ∀ x ∈ (w'.sessions.get w.nextSession).phases, x.index < w'.phases.size
  phases_extend : w.phases.Extends w'.phases

variable {w w' w'' : Workspace} {p : Slot Profiler} {x : Slot Phase}

theorem compilers_currentMemory (w : Workspace) (p : Slot Profiler) :
    (w.currentMemory p).2.compilers = w.compilers := by
  rw [currentMemory]
  split <;> rfl

theorem measurements_run (w : Workspace) (m : Slot Matcher) (path : Path) (n : ElementId) :
    (w.run m path n).2.measurements = w.measurements := by
  dsimp only [Workspace.run]
  split <;> rfl

namespace Measures

theorem startSession (w : Workspace) (p : Slot Profiler) (id expression treeSize : Json) :
    w.Measures (w.startSession p id expression treeSize).2 where
  forest_eq := rfl
  compilers_eq := rfl
  value_eq _ _ _ := rfl
  kept _ := List.subset_cons_self _ _
  size_eq := Registry.size_add _ _
  session_eq _ hs := Registry.get_add_of_ne hs
  phases_mem := by
    have hget : (w.startSession p id expression treeSize).2.sessions.get w.nextSession =
        { id, started := w.now.1, expression, treeSize, phases := [] } :=
      Registry.get_add _ _
    rw [hget]
    exact nofun
  phases_extend := .refl _

variable (h : w.Measures w')

include h

theorem of_sessions_eq (hsame : w'.Undisturbed w'') (hcompilers : w''.compilers = w'.compilers)
    (hsessions : w''.sessions = w'.sessions) (hsize : w'.phases.size ≤ w''.phases.size)
    (hphases : w.phases.Extends w''.phases) : w.Measures w'' where
  forest_eq := hsame.forest_eq.trans h.forest_eq
  compilers_eq := hcompilers.trans h.compilers_eq
  value_eq m c hc := by rw [hsame.metrics_eq, h.value_eq m c hc]
  kept p := by
    rw [hsame.profilers_eq]
    exact h.kept p
  size_eq := by rw [hsessions, h.size_eq]
  session_eq s hs := by rw [hsessions, h.session_eq s hs]
  phases_mem x hx := by
    rw [hsessions] at hx
    exact Nat.lt_of_lt_of_le (h.phases_mem x hx) hsize
  phases_extend := hphases

theorem modifySession {g : LiveSession → LiveSession}
    (hg : ∀ x ∈ (g (w'.sessions.get w.nextSession)).phases, x.index < w'.phases.size) :
    w.Measures (w'.modifySession w.nextSession g) where
  forest_eq := h.forest_eq
  compilers_eq := h.compilers_eq
  value_eq := h.value_eq
  kept := h.kept
  size_eq := (Registry.size_modify _ _ _).trans h.size_eq
  session_eq s hs := (Registry.get_modify_ne g hs).trans (h.session_eq s hs)
  phases_mem := by
    have hnext : w.nextSession.index < w'.sessions.size :=
      Nat.lt_of_lt_of_eq (Nat.lt_succ_self _) h.size_eq.symm
    rw [Workspace.modifySession, Registry.get_modify_self g hnext]
    exact hg
  phases_extend := h.phases_extend

theorem startPhase (p : Slot Profiler) (name : Json) :
    w.Measures (w'.startPhase p name).2 ∧
      w.phases.size ≤ (w'.startPhase p name).1.index ∧
      (w'.startPhase p name).1.index < (w'.startPhase p name).2.phases.size := by
  obtain ⟨phase, -, hslot, hphases, hsessions⟩ := w'.startPhase_eq p name
  have hcompilers : (w'.startPhase p name).2.compilers = w'.compilers :=
    compilers_currentMemory w'.now.2 p
  have hextends : w'.phases.Extends (w'.startPhase p name).2.phases := by
    rw [hphases]
    exact .add _ _
  refine ⟨h.of_sessions_eq (.startPhase w' p name) hcompilers hsessions hextends.size_le
    (h.phases_extend.trans hextends), ?_, ?_⟩
  · rw [hslot]
    exact h.phases_extend.size_le
  · rw [hslot, hphases]
    exact Registry.index_add_lt _ _

theorem setOperations (hnew : w.phases.size ≤ x.index) (operations : Json) :
    w.Measures (w'.setOperations x operations) :=
  h.of_sessions_eq (.setOperations w' x operations) rfl rfl
    (Nat.le_of_eq (Registry.size_modify _ _ _).symm) (h.phases_extend.modify hnew _)

theorem addPhase (hx : x.index < w'.phases.size) : w.Measures (w'.addPhase w.nextSession x) := by
  refine h.modifySession fun y hy => ?_
  rcases List.mem_append.1 hy with hy | hy
  · exact h.phases_mem y hy
  · rw [List.mem_singleton.1 hy]
    exact hx

theorem stopPhase (hnew : w.phases.size ≤ x.index) (p : Slot Profiler) :
    w.Measures (w'.stopPhase p x) := by
  obtain ⟨g, -, hphases, hsessions⟩ := w'.stopPhase_eq p x
  refine h.of_sessions_eq (.stopPhase w' p x) (compilers_currentMemory w'.now.2 p) hsessions ?_ ?_
  · rw [hphases, Registry.size_modify]
  · rw [hphases]
    exact h.phases_extend.modify hnew g

theorem endPhase (hnew : w.phases.size ≤ x.index) (hx : x.index < w'.phases.size)
    (p : Slot Profiler) : w.Measures (w'.endPhase p w.nextSession x) := by
  obtain ⟨g, -, hphases, -⟩ := w'.stopPhase_eq p x
  refine (h.stopPhase hnew p).addPhase ?_
  rw [hphases, Registry.size_modify]
  exact hx

theorem profileCompilation (p : Slot Profiler) (request : Json) :
    w.Measures (w'.profileCompilation p w.nextSession request).2 := by
  obtain ⟨hstarted, hnew, hx⟩ := h.startPhase p "compile"
  dsimp only [Workspace.profileCompilation]
  split
  · refine (hstarted.setOperations hnew _).endPhase hnew ?_ p
    exact Nat.lt_of_lt_of_eq hx (Registry.size_modify _ _ _).symm
  · exact hstarted.endPhase hnew hx p

theorem run (m : Slot Matcher) (path : Path) (n : ElementId) :
    w.Measures (w'.run m path n).2 := by
  dsimp only [Workspace.run]
  split
  · exact h.of_sessions_eq ⟨rfl, rfl, rfl, rfl, rfl, rfl⟩ rfl rfl (Nat.le_refl _) h.phases_extend
  · refine ⟨h.forest_eq, h.compilers_eq, fun m c hc => ?_, h.kept, h.size_eq, h.session_eq,
      h.phases_mem, h.phases_extend⟩
    rw [← h.value_eq m c hc]
    exact Registry.apply_get_modify (k := fun n => n.value c)
      (fun n => QuerySettings.value_count_countRun _ hc _ _ _ n) _ m

theorem profileMatch (p : Slot Profiler) (n : ElementId) (path : Path) :
    w.Measures (w'.profileMatch p w.nextSession n path).2 := by
  obtain ⟨hstarted, hnew, hx⟩ := h.startPhase p "match"
  have hran := hstarted.run ((w'.startPhase p "match").2.profilers.get p).matcher path n
  have hphases : ((w'.startPhase p "match").2.run
      ((w'.startPhase p "match").2.profilers.get p).matcher path n).2.phases =
      (w'.startPhase p "match").2.phases := congrArg (·.2.2) (measurements_run _ _ path n)
  rw [← hphases] at hx
  dsimp only [Workspace.profileMatch]
  split
  · next hanswer =>
    rw [hanswer] at hran hx
    exact hran.endPhase hnew hx p
  · next hanswer =>
    rw [hanswer] at hran hx
    refine (hran.setOperations hnew _).endPhase hnew ?_ p
    exact Nat.lt_of_lt_of_eq hx (Registry.size_modify _ _ _).symm

theorem endSession (p : Slot Profiler) : w.Measures (w'.endSession p w.nextSession) := by
  have hended : w.Measures (w'.modifySession w.nextSession fun session =>
      { session with ended := w'.now.1 }) := h.modifySession h.phases_mem
  refine ⟨hended.forest_eq, hended.compilers_eq, hended.value_eq, fun q => ?_, hended.size_eq,
    hended.session_eq, hended.phases_mem, hended.phases_extend⟩
  show ((w'.profilers.modify p fun q =>
    { q with sessions := q.sessions ++ [w.nextSession] }).get q).sessions ⊆ _
  rw [Registry.get_modify]
  split
  · exact List.append_subset.2 ⟨h.kept q, List.cons_subset_cons _ (List.nil_subset _)⟩
  · exact h.kept q

end Measures

/-- Whether it fails or not, a query makes just one session. -/
theorem measures_profileQuery (w : Workspace) (p : Slot Profiler) (id : Json) (n : ElementId)
    (request : Json) : w.Measures (w.profileQuery p id n request).2 := by
  let started := w.startSession p id request (.int (w.forest.preorder (w.forest.root n)).length)
  have hcompiled : w.Measures (started.2.profileCompilation p started.1 request).2 :=
    (Measures.startSession w p id request _).profileCompilation p request
  dsimp only [Workspace.profileQuery]
  split
  · next hread =>
    rwa [hread] at hcompiled
  · next path compiled hread =>
    rw [hread] at hcompiled
    have hmatched : w.Measures (compiled.profileMatch p started.1 n path).2 :=
      hcompiled.profileMatch p n path
    split
    · next hfound =>
      rwa [hfound] at hmatched
    · next hfound =>
      rw [hfound] at hmatched
      exact (hmatched.modifySession hmatched.phases_mem).endSession p

end Workspace

end TreePath
