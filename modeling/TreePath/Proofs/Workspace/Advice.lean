import TreePath.Proofs.Except
import TreePath.Proofs.Match.Levels
import TreePath.Proofs.Workspace.Sessions

namespace TreePath

namespace Number

theorem log2_lt {n : Nat} (h : n < 2 ^ 53) : n.log2 < 53 := by
  rcases Nat.eq_zero_or_pos n with rfl | hpos
  · exact Nat.zero_lt_succ _
  · exact (Nat.log2_lt (Nat.pos_iff_ne_zero.1 hpos)).2 h

theorem nearest_of_lt {n : Nat} (h : n < 2 ^ 53) : nearest n = n := by
  have hunit : n.log2 - 52 = 0 := Nat.sub_eq_zero_of_le (Nat.le_of_lt_succ (log2_lt h))
  simp [nearest, hunit, Nat.mod_one]

theorem inRange_of_lt {n : Nat} (h : n < 2 ^ 53) : inRange n = true :=
  decide_eq_true (Nat.lt_trans (log2_lt h) (by decide))

end Number

namespace Profile

theorem fanOutLimit_of_lt {n : Nat} (h : 3 * n < 2 ^ 53) :
    fanOutLimit (.int n) = .ok (.int (3 * n : Nat)) := by
  have hn : n < 2 ^ 53 := by omega
  simp only [fanOutLimit, Int.toNat_natCast, Number.nearest_of_lt hn, Number.nearest_of_lt h,
    Number.inRange_of_lt hn, Number.inRange_of_lt h]
  rfl

theorem Session.fansOut_eq {s : Session Phase} {size k : Nat}
    (hmatch : (s.phase? "match").map (·.operations) = some (.int k))
    (hsize : s.treeSize = .int size) (hpos : 0 < size) (hlt : 3 * size < 2 ^ 53) :
    s.fansOut = .ok (decide (3 * size < k)) := by
  cases hphase : s.phase? "match" with
  | none =>
    rw [hphase] at hmatch
    cases hmatch
  | some phase =>
    rw [hphase] at hmatch
    have hoperations : phase.operations = .int k := Option.some.inj hmatch
    have hlarge : Number.lt (.int 0) (.int size) = true := by
      rw [Number.lt_int]
      exact decide_eq_true (Int.natCast_pos.2 hpos)
    rw [Session.fansOut, hphase, hsize]
    show (if Number.lt (.int 0) (.int size) then do
        return (← fanOutLimit (.int size)).lt (← phase.operations.toNumber)
      else return false) = _
    rw [if_pos hlarge, fanOutLimit_of_lt hlt, hoperations]
    show Except.ok (Number.lt (.int (3 * size : Nat)) (.int k)) = _
    rw [Number.lt_int]
    exact congrArg Except.ok (decide_eq_decide.2 Int.ofNat_lt)

def Advice.isFanOut : Advice → Bool
  | .fanOut _ => true
  | _ => false

namespace Report

theorem filter_advice {r : Report} (h : r.sessions ≠ []) :
    r.advice.map (·.filter Advice.isFanOut) =
      (r.sessions.filterM Session.fansOut).map (·.map (.fanOut ·.expression)) := by
  have hsome : r.sessions.isEmpty = false := List.isEmpty_eq_false_iff.2 h
  rw [advice, hsome, findings]
  cases r.sessions.filterM Session.fansOut with
  | error e => rfl
  | ok fannedOut =>
    let against := fannedOut.map (Advice.fanOut ·.expression)
    let all :=
      (if slowCompilationTime < r.averagePhase "compile" then [.slowCompilation] else []) ++
      (if slowMatchTime < r.averagePhase "match" then [.slowMatching] else []) ++ against ++
      ((r.sessions.find? Session.compilationDominates).map
        (Advice.compilationDominates ·.expression)).toList
    have hother (c : Prop) [Decidable c] {a : Advice} (ha : a.isFanOut = false) :
        (if c then [a] else []).filter Advice.isFanOut = [] := by
      split
      · exact List.filter_cons_of_neg (by simp [ha])
      · rfl
    have hall : all.filter Advice.isFanOut = against := by
      have hagainst : against.filter Advice.isFanOut = against := by
        refine List.filter_eq_self.2 fun a ha => ?_
        obtain ⟨s, -, rfl⟩ := List.mem_map.1 ha
        rfl
      rw [List.filter_append, List.filter_append, List.filter_append, hagainst, hother _ rfl,
        hother _ rfl]
      cases r.sessions.find? Session.compilationDominates with
      | none => exact List.append_nil _
      | some s => exact List.append_nil _
    show Except.ok ((if all.isEmpty then [.fine] else all).filter Advice.isFanOut) = .ok against
    -- Without any finding there is the advice that all is fine, which is against nothing.
    split
    · next hnone =>
      rw [← hall, List.isEmpty_iff.1 hnone]
      rfl
    · rw [hall]

theorem filter_advice_concat {r : Report} {others : List (Session Phase)} {s : Session Phase}
    {fansOut : Bool} (hr : r.sessions = others ++ [s]) (hs : s.fansOut = .ok fansOut) :
    r.advice.map (·.filter Advice.isFanOut) = do
      let found ← others.filterM Session.fansOut
      return found.map (.fanOut ·.expression) ++
        if fansOut then [.fanOut s.expression] else [] := by
  rw [filter_advice (by simp [hr]), hr, List.filterM_concat, hs]
  cases others.filterM Session.fansOut with
  | error e => rfl
  | ok found =>
    cases fansOut with
    | false => exact congrArg Except.ok (List.map_append)
    | true => exact congrArg Except.ok (List.map_append)

end Report

end Profile

namespace Workspace

open Profile

def reported (w : Workspace) (p : Slot Profiler) : Report :=
  let (r, w) := w.generateReport p
  w.reportOf r

variable {w : Workspace} {p : Slot Profiler}

/-- The report on a query that is counted advises against it exactly if its steps yield more than
three times what the tree holds. -/
theorem profileQuery_reported (hp : p.index < w.profilers.size)
    (hready : w.Equipped (w.profilers.get p).matcher)
    (hcounts : (w.querySettingsOf p).enableMetrics.truthy = true) {e : String} {path : Path}
    (he : Path.ofText e = .ok path) {n : ElementId} (hf : w.forest.WellFormed) (hn : n ∈ w.forest)
    (id : Json) :
    let size := (w.forest.preorder (w.forest.root n)).length
    let k := w.forest.fanOut path.steps (w.forest.seedMembers path.seed n).eraseDups
    ∃ s w', w.profileQuery p id n (.str e) = (.ok s, w') ∧
      let others := (w.profilers.get p).sessions.map w'.sessionOf
      (w'.reported p).sessions = others ++ [w'.sessionOf s] ∧
      (3 * size < 2 ^ 53 →
        (w'.reported p).advice.map (·.filter Advice.isFanOut) = do
          let found ← others.filterM Session.fansOut
          return found.map (.fanOut ·.expression) ++
            if 3 * size < k then [.fanOut (.str e)] else []) := by
  intro size k
  obtain ⟨s, w', hquery, hrecords, -, hsessions⟩ := profileQuery_of_ofText hp hready he id n
  rw [if_pos hcounts] at hrecords
  have hreported : (w'.reported p).sessions =
      (w.profilers.get p).sessions.map w'.sessionOf ++ [w'.sessionOf s] := by
    show (w'.profilers.get p).sessions.map w'.sessionOf = _
    rw [hsessions, List.map_append, List.map_singleton]
  refine ⟨s, w', hquery, hreported, fun hlt => ?_⟩
  have hpos : 0 < size :=
    List.length_pos_of_mem ((hf.isTree_root hn).mem_preorder.2 (hf.within_root n))
  have hfans := Session.fansOut_eq hrecords.operations_match hrecords.treeSize_eq hpos hlt
  have hexpression : (w'.sessionOf s).expression = .str e := hrecords.expression_eq
  rw [Report.filter_advice_concat hreported hfans, hexpression]
  simp only [decide_eq_true_iff]
  rfl

/-- A query that is counted and has at most one step to descendants yields at most as much as its
tree holds for each of its steps. The report advises against it exactly if it yields more than three
times as much, which takes four steps. -/
theorem Arises.profileQuery_advised (h : w.Arises) (hp : p.index < w.profilers.size)
    (hcounts : (w.querySettingsOf p).enableMetrics.truthy = true) {e : String} {path : Path}
    (he : Path.ofText e = .ok path) (hdown : Forest.descents path.steps ≤ 1)
    {n : ElementId} (hf : w.forest.WellFormed) (hn : n ∈ w.forest) (id : Json) :
    let size := (w.forest.preorder (w.forest.root n)).length
    let k := w.forest.fanOut path.steps (w.forest.seedMembers path.seed n).eraseDups
    (k ≤ path.steps.length * size ∧ (path.steps.length ≤ 3 → ¬ 3 * size < k)) ∧
    ∃ s w', w.profileQuery p id n (.str e) = (.ok s, w') ∧
      let others := (w.profilers.get p).sessions.map w'.sessionOf
      (w'.reported p).sessions = others ++ [w'.sessionOf s] ∧
      (3 * size < 2 ^ 53 →
        (w'.reported p).advice.map (·.filter Advice.isFanOut) = do
          let found ← others.filterM Session.fansOut
          return found.map (.fanOut ·.expression) ++
            if 3 * size < k then [.fanOut (.str e)] else []) := by
  intro size k
  obtain ⟨sel, hsel⟩ := w.forest.exists_select_of_ofText he n
  have hle : k ≤ path.steps.length * size := by
    have hyielded := hf.yielded_le hn hdown hsel
    rwa [Forest.yielded_select hsel] at hyielded
  refine ⟨⟨hle, fun hsteps => ?_⟩, ?_⟩
  · exact Nat.not_lt.2 (hle.trans (Nat.mul_le_mul_right size hsteps))
  · exact profileQuery_reported hp (h.allEquipped p hp) hcounts he hf hn id

theorem Arises.profileQuery_advised_grove :
    let w := profiled .grove {}
    let steps := [Step.descendantOrSelf, .tag "b"]
    w.Arises ∧ 0 < w.profilers.size ∧ (w.querySettingsOf ⟨0⟩).enableMetrics.truthy = true ∧
      Path.ofText "//b" = .ok ⟨"//b", .root, steps⟩ ∧ Forest.descents steps ≤ 1 ∧
      w.forest.WellFormed ∧ ⟨0⟩ ∈ w.forest ∧ 3 ≤ steps.length * 2 ∧
      ∃ s w', w.profileQuery ⟨0⟩ "s" ⟨0⟩ "//b" = (.ok s, w') ∧
        (w'.reported ⟨0⟩).sessions = [w'.sessionOf s] ∧
        (w'.reported ⟨0⟩).advice.map (·.filter Advice.isFanOut) = .ok [] := by
  intro w steps
  have h : w.Arises := arises_profiled .grove {}
  have hp : 0 < w.profilers.size := profilers_profiled .grove {}
  have hdown : Forest.descents steps ≤ 1 := by decide
  have hf : w.forest.WellFormed := Forest.reachable_grove.wellFormed
  have hn : ⟨0⟩ ∈ w.forest := show ⟨0⟩ ∈ Forest.grove by decide
  have hsize : (w.forest.preorder (w.forest.root ⟨0⟩)).length = 2 :=
    show (Forest.grove.preorder (Forest.grove.root ⟨0⟩)).length = 2 by decide
  have hk : w.forest.fanOut steps (w.forest.seedMembers .root ⟨0⟩).eraseDups = 3 := fanOut_slashes
  obtain ⟨⟨hle, hnever⟩, s, w', hquery, hreported, hadvice⟩ :=
    h.profileQuery_advised (p := ⟨0⟩) hp rfl ofText_slashes hdown hf hn "s"
  rw [hsize, hk] at hle hadvice
  exact ⟨h, hp, rfl, ofText_slashes, hdown, hf, hn, hle, s, w', hquery, hreported,
    hadvice (by decide)⟩

theorem ofText_tests :
    Path.ofText "//a[@k][@k]" = .ok ⟨"//a[@k][@k]", .root,
      [.descendantOrSelf, .tag "a", .hasAttribute "k", .hasAttribute "k"]⟩ := by
  have hdown : Step.read? "//a[@k][@k]".toList = some (.descendantOrSelf, "a[@k][@k]".toList) := by
    decide
  have htag : Step.read? "a[@k][@k]".toList = some (.tag "a", "[@k][@k]".toList) := by decide
  have htest : Step.read? "[@k][@k]".toList = some (.hasAttribute "k", "[@k]".toList) := by decide
  have hlast : Step.read? "[@k]".toList = some (.hasAttribute "k", []) := by decide
  have hsteps : Step.ofText "//a[@k][@k]" =
      .ok [.descendantOrSelf, .tag "a", .hasAttribute "k", .hasAttribute "k"] := by
    rw [Step.ofText_eq_ok_iff, Step.scan_of_some hdown, Step.scan_of_some htag,
      Step.scan_of_some htest, Step.scan_of_some hlast, Step.scan_of_none rfl]
  exact Path.ofText_eq_ok hsteps

/-- One step to descendants and three that keep the only element yield four times the tree. -/
theorem profileQuery_advised_against :
    let f := ({} : Forest).edit (.make (.str "a") [(.str "k", .str "v")] .null .null)
    let w := profiled f {}
    let steps := [Step.descendantOrSelf, .tag "a", .hasAttribute "k", .hasAttribute "k"]
    w.Arises ∧ 0 < w.profilers.size ∧ (w.querySettingsOf ⟨0⟩).enableMetrics.truthy = true ∧
      Path.ofText "//a[@k][@k]" = .ok ⟨"//a[@k][@k]", .root, steps⟩ ∧
      Forest.descents steps = 1 ∧ w.forest.WellFormed ∧ ⟨0⟩ ∈ w.forest ∧
      ∃ s w', w.profileQuery ⟨0⟩ "s" ⟨0⟩ "//a[@k][@k]" = (.ok s, w') ∧
        (w'.reported ⟨0⟩).sessions = [w'.sessionOf s] ∧
        (w'.reported ⟨0⟩).advice.map (·.filter Advice.isFanOut) =
          .ok [.fanOut "//a[@k][@k]"] := by
  intro f w steps
  have h : w.Arises := arises_profiled f {}
  have hp : 0 < w.profilers.size := profilers_profiled f {}
  have hf : w.forest.WellFormed :=
    (Forest.Reachable.edit (e := .make (.str "a") [(.str "k", .str "v")] .null .null) .empty
      nofun id).wellFormed
  have hn : ⟨0⟩ ∈ w.forest := show ⟨0⟩ ∈ f by decide
  have hsize : (w.forest.preorder (w.forest.root ⟨0⟩)).length = 1 :=
    show (f.preorder (f.root ⟨0⟩)).length = 1 by decide
  have hk : w.forest.fanOut steps (w.forest.seedMembers .root ⟨0⟩).eraseDups = 4 :=
    show f.fanOut steps (f.seedMembers .root ⟨0⟩).eraseDups = 4 by decide
  obtain ⟨s, w', hquery, hreported, hadvice⟩ :=
    profileQuery_reported (p := ⟨0⟩) hp (h.allEquipped ⟨0⟩ hp) rfl ofText_tests hf hn "s"
  rw [hsize, hk] at hadvice
  exact ⟨h, hp, rfl, ofText_tests, by decide, hf, hn, s, w', hquery, hreported,
    hadvice (by decide)⟩

end Workspace

end TreePath
