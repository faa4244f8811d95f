import Mathlib.Data.Set.Card
import TreePath.Proofs.Forest.Attained
import TreePath.Proofs.Forest.Blocks
import TreePath.Proofs.Workspace.Bookkeeping

namespace TreePath

namespace Forest

/-- The elements that the lists of children lead to from the root of an element. -/
def tree (f : Forest) (n : ElementId) : Set ElementId :=
  {x | Relation.ReflTransGen (fun p c => c ∈ f.children p) (f.root n) x}

theorem Linked.ncard_tree {f : Forest} (h : f.Linked) {n : ElementId} (hn : n ∈ f) :
    (f.tree n).ncard = (f.preorder (f.root n)).length := by
  have hroot := h.root_mem hn
  have hdown : (fun p c => c ∈ f.children p) = Function.swap f.settle.Up := by
    funext p c
    show (c ∈ f.children p) = f.settle.Up c p
    rw [up_settle_iff]
    exact propext ⟨fun hc => ⟨h.up_of_mem hc, hc⟩, And.right⟩
  have htree : f.tree n = (f.preorder (f.root n)).toFinset := by
    ext x
    rw [Finset.mem_coe, List.mem_toFinset, h.mem_preorder hroot, tree, hdown, Set.mem_ofPred_eq,
      Relation.reflTransGen_swap]
  rw [htree, Set.ncard_coe_finset, List.toFinset_card_of_nodup (h.nodup_preorder hroot)]

end Forest

namespace Workspace

open Profile

/-- What a session tells of a query from an element, by a text of these steps, that found these
elements. -/
structure Tells (f : Forest) (n : ElementId) (tokens : List Step) (found : List ElementId)
    (s : Session Phase) : Prop where
  names_eq : s.phases.map (·.name) = [.str "compile", .str "match"]
  compiled_eq : (s.phase? "compile").map (·.operations) =
    some (.int (tokens.countP (!·.isNoOp)))
  treeSize_eq : s.treeSize = .int (f.tree n).ncard
  resultCount_eq : s.resultCount = .int found.length

variable {w w' : Workspace} {p : Slot Profiler} {s : Slot LiveSession} {n : ElementId}
  {expression treeSize : Json} {phases : List (Json × Json)}

namespace Records

theorem names_eq (h : w.Records s expression treeSize phases) :
    (w.sessionOf s).phases.map (·.name) = phases.map Prod.fst := by
  rw [← h.phases_eq, List.map_map]
  show ((w.sessions.get s).phases.map w.phases.get).map _ = _
  rw [List.map_map]
  rfl

end Records

theorem resultCount_endSession (w : Workspace) (p : Slot Profiler) (s : Slot LiveSession) :
    ((w.endSession p s).sessionOf s).resultCount = (w.sessions.get s).resultCount :=
  Registry.apply_get_modify (k := fun session : LiveSession => session.resultCount)
    (g := fun session => { session with ended := w.now.1 }) (fun _ => rfl) s s

theorem profileQuery_of_malformed (w : Workspace) (p : Slot Profiler) (id : Json) (n : ElementId)
    {e : String} {m : Path.Malformed} (he : Path.ofText e = .error m) :
    (w.profileQuery p id n (.str e)).1 = .error (.malformed m) ∧
      w.Undisturbed (w.profileQuery p id n (.str e)).2 := by
  have hread : Path.ofJson (.str e) = .error (.malformed m) := by
    rw [Path.ofJson, he]
    rfl
  let started := w.startSession p id (.str e) (.int (w.forest.preorder (w.forest.root n)).length)
  have hsame : w.Undisturbed (started.2.profileCompilation p started.1 (.str e)).2 :=
    (Undisturbed.startSession w p id (.str e) _).trans
      (.profileCompilation started.2 p started.1 (.str e))
  have hfails : (started.2.profileCompilation p started.1 (.str e)).1 = .error (.malformed m) := by
    rw [Workspace.profileCompilation, hread]
  dsimp only [Workspace.profileQuery]
  split
  · next d failed hcompiled =>
    rw [hcompiled] at hsame hfails
    exact ⟨congrArg Except.error (Except.error.inj hfails), hsame⟩
  · next hcompiled =>
    rw [hcompiled] at hfails
    cases hfails

/-- A query that is read makes the session that is next, keeps it, and tells in it what was done. -/
theorem profileQuery_of_tokens (hready : w.Equipped (w.profilers.get p).matcher)
    (hf : w.forest.Attained) (hn : n ∈ w.forest) {e : String} {tokens : List Step}
    (he : Step.ofText e = .ok tokens) (id : Json) :
    ∃ path sel w', Path.ofText e = .ok path ∧ w.forest.select path n = .ok sel ∧
      w.profileQuery p id n (.str e) = (.ok w.nextSession, w') ∧
      w'.profilers = w.profilers.modify p (fun q =>
        { q with sessions := q.sessions ++ [w.nextSession] }) ∧
      Tells w.forest n tokens sel.members (w'.sessionOf w.nextSession) := by
  have hpath := Path.ofText_eq_ok he
  obtain ⟨s, sel, measured, hnew, hsel, hquery, ⟨-, hprofilers⟩, hrecords⟩ :=
    exists_measured_of_ofText hready hpath id n
  obtain rfl : s = w.nextSession := by
    cases s
    exact congrArg Slot.mk hnew
  let noted := measured.modifySession w.nextSession fun session =>
    { session with resultCount := .int sel.members.length }
  have hnoted : noted.Records w.nextSession (.str e) _ _ :=
    hrecords.of_modify rfl (fun _ => ⟨rfl, rfl, rfl⟩) rfl
  have hended : (noted.endSession p w.nextSession).Records w.nextSession (.str e) _ _ :=
    hnoted.of_modify rfl (fun _ => ⟨rfl, rfl, rfl⟩) rfl
  have hcount : (noted.sessions.get w.nextSession).resultCount = .int sel.members.length :=
    congrArg (·.resultCount) (Registry.get_modify_self _ hrecords.session_mem)
  refine ⟨_, sel, _, hpath, hsel, hquery, congrArg (Registry.modify · p _) hprofilers,
    hended.names_eq, ?_, ?_, ?_⟩
  · rw [hended.operations_compile, List.countP_eq_length_filter]
  · rw [hf.linked.ncard_tree hn]
    exact hended.treeSize_eq
  · exact (resultCount_endSession noted p _).trans hcount

/-- A measured query is done as a whole or not at all, and touches nothing else. -/
theorem Evolves.profileQuery_isolated (h : w.Evolves) (hf : w.forest.Attained)
    (hp : p.index < w.profilers.size) (hn : n ∈ w.forest) (id : Json) (e : String) :
    let answer := (w.profileQuery p id n (.str e)).1
    let w' := (w.profileQuery p id n (.str e)).2
    (∀ m, Path.ofText e = .error m →
      answer = .error (.malformed m) ∧ w'.profilers = w.profilers ∧ w'.metrics = w.metrics) ∧
    (∀ tokens, Step.ofText e = .ok tokens → ∃ path sel s, Path.ofText e = .ok path ∧
      w.forest.select path n = .ok sel ∧ answer = .ok s ∧
      (∀ q, s ∉ (w.profilers.get q).sessions) ∧
      w'.profilers = w.profilers.modify p (fun q => { q with sessions := q.sessions ++ [s] }) ∧
      Tells w.forest n tokens sel.members (w'.sessionOf s)) ∧
    (∀ q, ∀ t ∈ (w.profilers.get q).sessions, w'.sessionOf t = w.sessionOf t) ∧
    w'.compilers = w.compilers ∧ w'.forest = w.forest ∧
    ∀ m, ∀ c ∈ Counter.ofCompiler, (w'.metrics.get m).value c = (w.metrics.get m).value c := by
  intro answer w'
  have hm : w.Measures w' := w.measures_profileQuery p id n (.str e)
  refine ⟨fun m he => ?_, fun tokens he => ?_, fun q t ht => (h.intact.sessionOf_eq hm ht).2,
    hm.compilers_eq, hm.forest_eq, hm.value_eq⟩
  · obtain ⟨hanswer, hsame⟩ := w.profileQuery_of_malformed p id n he
    exact ⟨hanswer, hsame.profilers_eq, hsame.metrics_eq⟩
  · obtain ⟨path, sel, after, hpath, hsel, hquery, hprofilers, htells⟩ :=
      profileQuery_of_tokens (h.allEquipped p hp) hf hn he id
    have hafter : w' = after := congrArg Prod.snd hquery
    refine ⟨path, sel, w.nextSession, hpath, hsel, congrArg Prod.fst hquery,
      fun q hq => (h.intact.sessionOf_eq hm hq).1 rfl, ?_, ?_⟩
    · rw [hafter, hprofilers]
    · rwa [hafter]

theorem evolves_profiled (f : Forest) (q : QuerySettings) : (profiled f q).Evolves :=
  ((Evolves.start.change f {} { last := 0 } { last := 0 } true).act
    (.createSettings { query := q })).perform (.addProfiler (some ⟨0⟩) false) trivial

theorem Evolves.profileQuery_isolated_grove :
    let w := (profiled .grove {}).perform (.profileQuery ⟨0⟩ "first" ⟨1⟩ "//b")
    let w' := (w.profileQuery ⟨0⟩ "second" ⟨0⟩ (.str "//b")).2
    w.Evolves ∧ w.forest.Attained ∧ 0 < w.profilers.size ∧ ⟨0⟩ ∈ w.forest ∧
      (∃ (sel : Selection) (s t : Slot LiveSession),
        (w.profileQuery ⟨0⟩ "second" ⟨0⟩ (.str "//b")).1 = .ok s ∧
        (w'.profilers.get ⟨0⟩).sessions = [t, s] ∧ w'.sessionOf t = w.sessionOf t ∧
        sel.members = [⟨1⟩] ∧
        Tells .grove ⟨0⟩ [.descendantOrSelf, .tag "b"] sel.members (w'.sessionOf s)) ∧
      (w.profileQuery ⟨0⟩ "second" ⟨0⟩ (.str "b]")).1 = .error (.malformed ⟨"b]", 1⟩) := by
  intro w w'
  have hfirst : (profiled .grove {}).Evolves := evolves_profiled .grove {}
  have hgrove : (profiled .grove {}).forest.Attained := Forest.reachable_grove.attained
  have hprofiled := profilers_profiled .grove {}
  obtain ⟨-, hdone, -, -, hforest, -⟩ := hfirst.profileQuery_isolated (p := ⟨0⟩) hgrove hprofiled
    (show ⟨1⟩ ∈ Forest.grove by decide) "first" "//b"
  obtain ⟨-, -, t, -, -, -, -, hkept, -⟩ := hdone _ steps_slashes
  have h : w.Evolves := hfirst.perform (.profileQuery ⟨0⟩ "first" ⟨1⟩ "//b") trivial
  have hforest : w.forest = .grove := hforest
  have hsessions : (w.profilers.get ⟨0⟩).sessions = [t] :=
    congrArg (·.sessions)
      ((congrArg (·.get ⟨0⟩) hkept).trans (Registry.get_modify_self _ hprofiled))
  have hf : w.forest.Attained := hforest ▸ hgrove
  have hp : 0 < w.profilers.size := by
    have hsize := (congrArg Registry.size hkept).trans (Registry.size_modify _ _ _)
    exact Nat.lt_of_lt_of_eq hprofiled hsize.symm
  have hn : ⟨0⟩ ∈ w.forest := by
    rw [hforest]
    decide
  have hmalformed : Path.ofText "b]" = .error ⟨"b]", 1⟩ := by
    have htag : Step.read? "b]".toList = some (.tag "b", [']']) := by decide
    have hstop : Step.read? [']'] = none := by decide
    rw [Path.ofText_eq_error, Step.ofText, Step.scan_of_some htag, Step.scan_of_none hstop]
    rfl
  obtain ⟨-, hok, hold, -⟩ := h.profileQuery_isolated (p := ⟨0⟩) hf hp hn "second" "//b"
  obtain ⟨hfails, -⟩ := h.profileQuery_isolated (p := ⟨0⟩) hf hp hn "second" "b]"
  obtain ⟨path, sel, s, hpath, hsel, hanswer, -, hprofilers, htells⟩ := hok _ steps_slashes
  rw [hforest] at hsel htells
  refine ⟨h, hf, hp, hn, ⟨sel, s, t, hanswer, ?_, hold ⟨0⟩ t ?_, ?_, htells⟩,
    (hfails _ hmalformed).1⟩
  · rw [hprofilers, Registry.get_modify_self _ hp, hsessions]
    rfl
  · rw [hsessions]
    exact List.mem_singleton_self t
  · cases hpath.symm.trans ofText_slashes
    have hknown : ∀ s ∈ [Step.descendantOrSelf, .tag "b"], s.IsKnown :=
      fun _ hs => Step.isKnown_of_ofText steps_slashes hs
    cases hsel.symm.trans (Forest.select_eq_of_isKnown hknown ⟨0⟩)
    decide

end Workspace

end TreePath
