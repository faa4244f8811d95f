import TreePath.Proofs.Workspace.Actions

namespace TreePath

/-- The text of the first of some elements, which may be null, or the default if there is none. -/
def Forest.firstText (f : Forest) (default : Json) : List ElementId → Json
  | [] => default
  | y :: _ => (f.element y).text

namespace Workspace

variable {f : Forest} {w : Workspace} {via : Route} {x : ElementId}
  {request : Request}

theorem Serves.findAllBy_text (h : w.Serves f) (text : String) :
    (w.findAllBy via x (.text text)).1 = f.findAll text x := by
  cases via with
  | element | package =>
    have hdefault := h.ensureDefault
    rw [← hdefault.forest_eq]
    exact (hdefault.answers _).findAll_text text x
  | matcher m =>
    rw [← h.forest_eq]
    exact (h.answers m).findAll_text text x

theorem Serves.findAllBy_path (h : w.Serves f) (p : Prepared) :
    (w.findAllBy via x (.path p)).1 =
      ((f.select p.path x).mapError .unsupported).map (·.members) := by
  cases via with
  | element | package =>
    rw [← h.ensureDefault.forest_eq]
    exact run_fst _ _ p.path x
  | matcher m =>
    rw [← h.forest_eq]
    exact w.run_fst m p.path x

theorem findBy_fst : (w.findBy via x request).1 = (w.findAllBy via x request).1.map List.head? := by
  cases via <;> rfl

theorem textOf_firstOf_fst (default : Json)
    (asked : Except QueryFault (List ElementId) × Workspace) :
    (textOf default (firstOf asked)).1 = asked.1.map (asked.2.forest.firstText default) := by
  obtain ⟨answer, after⟩ := asked
  cases answer with
  | error e => rfl
  | ok found => cases found <;> rfl

theorem Serves.findTextBy_fst (h : w.Serves f) (default : Json) :
    (w.findTextBy via x request default).1 =
      (w.findAllBy via x request).1.map (f.firstText default) := by
  rw [← (h.findAllBy via x request).forest_eq, ← textOf_firstOf_fst]
  cases via <;> rfl

/-- Whatever was done before, the forest is as it was, every path that is kept is the one that its
text is read as, and a text has the same answers from every matcher, which are those that the path
has that it is read as. A text that is read as none is refused where its reading ends. -/
theorem Reached.queries_transparent (h : Reached f w) :
    w.forest = f ∧
    (∀ c, ∀ e ∈ (w.compilers.get c).cache.entries, Path.ofText e.1 = .ok e.2.path) ∧
    ∀ text x,
      (∀ e, Path.ofText text = .error e → ∀ via default,
        (w.findAllBy via x (.text text)).1 = .error (.malformed e) ∧
        (w.findBy via x (.text text)).1 = .error (.malformed e) ∧
        (w.findTextBy via x (.text text) default).1 = .error (.malformed e)) ∧
      ∀ p, Path.ofText text = .ok p → ∃ found, f.select p x = .ok found ∧
        ∀ via default request, (request = .text text ∨ ∃ serial, request = .path ⟨p, serial⟩) →
          (w.findAllBy via x request).1 = .ok found.members ∧
          (w.findBy via x request).1 = .ok found.members.head? ∧
          (w.findTextBy via x request default).1 =
            .ok (f.firstText default found.members) := by
  have hw := h.serves
  refine ⟨hw.forest_eq, hw.faithful, fun text x => ⟨?_, ?_⟩⟩
  · intro e he via default
    have hall : (w.findAllBy via x (.text text)).1 = .error (.malformed e) := by
      rw [hw.findAllBy_text, Forest.findAll, he]
      rfl
    rw [findBy_fst, hw.findTextBy_fst, hall]
    exact ⟨rfl, rfl, rfl⟩
  · intro p hp
    obtain ⟨found, hfound⟩ := f.exists_select_of_ofText hp x
    refine ⟨found, hfound, fun via default request hrequest => ?_⟩
    have hall : (w.findAllBy via x request).1 = .ok found.members := by
      rcases hrequest with rfl | ⟨serial, rfl⟩
      · rw [hw.findAllBy_text]
        exact Forest.findAll_of_select hp hfound
      · rw [hw.findAllBy_path, hfound]
        rfl
    rw [findBy_fst, hw.findTextBy_fst, hall]
    exact ⟨rfl, rfl, rfl⟩

/-- The path kept for `b` outlives a limit below zero and a new default matcher. The text of `b` is
null, and a default does not stand for it. -/
theorem Reached.queries_transparent_grove :
    let w := [Action.findAll .package ⟨0⟩ (.text "b"), .assign ⟨0⟩ (.cacheSizeLimit (-1)),
      .find .element ⟨0⟩ (.text "]"), .configure none].foldl Workspace.act
        { forest := Forest.grove }
    Reached Forest.grove w ∧ w.forest = Forest.grove ∧
      (∀ c, ∀ e ∈ (w.compilers.get c).cache.entries, Path.ofText e.1 = .ok e.2.path) ∧
      (w.findAllBy (.matcher ⟨0⟩) ⟨0⟩ (.text "b")).1 = .ok [⟨1⟩] ∧
      (w.findTextBy .element ⟨0⟩ (.text "b") "none").1 = .ok .null ∧
      (w.findBy .package ⟨0⟩ (.text "]")).1 = .error (.malformed ⟨"]", 0⟩) := by
  intro w
  have h : Reached Forest.grove w := by
    have hfound := (Reached.start (f := Forest.grove) { last := 0 }).act
      (a := .findAll .package ⟨0⟩ (.text "b")) trivial
    have hlimited := hfound.act (a := .assign ⟨0⟩ (.cacheSizeLimit (-1))) trivial
    have hrefused := hlimited.act (a := .find .element ⟨0⟩ (.text "]")) trivial
    exact hrefused.act (a := .configure none) trivial
  have hread : Step.read? "b".toList = some (.tag "b", []) := by decide
  have hb : Step.ofText "b" = .ok [.tag "b"] := by
    rw [Step.ofText_eq_ok_iff, Step.scan_of_some hread, Step.scan_of_none rfl]
  have hbracket : Path.ofText "]" = .error ⟨"]", 0⟩ := by
    rw [Path.ofText_eq_error, Step.ofText, Step.scan_of_none (by decide)]
    rfl
  have hup : Forest.grove.findAll "b" ⟨0⟩ = .ok [⟨1⟩] := Forest.findAll_of_ofText hb ⟨0⟩
  obtain ⟨hforest, hkept, hanswers⟩ := h.queries_transparent
  obtain ⟨found, hfound, hvalid⟩ := (hanswers "b" ⟨0⟩).2 _ (Path.ofText_eq_ok hb)
  have hmembers : found.members = [⟨1⟩] := by
    rw [Forest.findAll_of_select (Path.ofText_eq_ok hb) hfound] at hup
    exact Except.ok.inj hup
  rw [hmembers] at hvalid
  exact ⟨h, hforest, hkept, (hvalid _ .null _ (.inl rfl)).1, (hvalid _ _ _ (.inl rfl)).2.2,
    ((hanswers "]" ⟨0⟩).1 _ hbracket .package .null).2.1⟩

end Workspace

end TreePath
