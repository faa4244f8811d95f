import TreePath.Proofs.Match.Confinement

namespace TreePath.Forest

variable {f : Forest} {n x : ElementId} {d d' s : Step} {steps : List Step}
  {sel sel' : Selection} {xs : List ElementId}

theorem isKnown_of_down (hd : d.kind = .descendantOrSelf) : d.IsKnown := by
  rw [Step.isKnown_iff, hd]
  rfl

namespace WellFormed

variable (h : f.WellFormed)

include h

/-- What is within an element comes first in its own walk, so the later walks find nothing new. -/
theorem eraseDups_preorder_flatMap (hx : x ∈ f) :
    ((f.preorder x).flatMap f.preorder).eraseDups = (f.preorder x).eraseDups := by
  have hbelow : ∀ y ∈ ((f.children x).flatMap f.preorder).flatMap f.preorder,
      y ∈ f.preorder x := by
    intro y hy
    obtain ⟨z, hz, hy⟩ := List.mem_flatMap.1 hy
    have hzx : z ∈ f.preorder x := by
      rw [h.preorder_eq hx]
      exact List.mem_cons_of_mem x hz
    have hzmem := h.linked.mem_of_mem_preorder hx hzx
    rw [h.mem_preorder hzmem] at hy
    rw [h.mem_preorder hx] at hzx ⊢
    exact hy.trans hzx
  calc ((f.preorder x).flatMap f.preorder).eraseDups
    _ = (f.preorder x ++ ((f.children x).flatMap f.preorder).flatMap f.preorder).eraseDups := by
      rw [← List.flatMap_cons, ← h.preorder_eq hx]
    _ = (f.preorder x).eraseDups := List.eraseDups_append_of_subset hbelow

theorem eraseDups_flatMap_flatMap_preorder (hxs : ∀ x ∈ xs, x ∈ f) :
    ((xs.flatMap f.preorder).flatMap f.preorder).eraseDups = (xs.flatMap f.preorder).eraseDups := by
  rw [List.flatMap_assoc]
  exact List.eraseDups_flatMap_congr xs fun x hx => h.eraseDups_preorder_flatMap (hxs x hx)

theorem advance_descendants (hd : d.kind = .descendantOrSelf) (hd' : d'.kind = .descendantOrSelf)
    (hsel : ∀ y ∈ sel.members, y ∈ f) :
    ∃ once twice, f.advance sel d = .ok once ∧ f.advance once d' = .ok twice ∧
      twice.members = once.members := by
  refine ⟨_, _, advance_of_isKnown (isKnown_of_down hd) sel,
    advance_of_isKnown (isKnown_of_down hd') _, ?_⟩
  dsimp only
  rw [results_descendantOrSelf hd, results_descendantOrSelf hd', List.eraseDups_flatMap_eraseDups,
    h.eraseDups_flatMap_flatMap_preorder hsel]

end WellFormed

theorem map_members_foldlM (hmembers : sel.members = sel'.members) :
    (steps.foldlM f.advance sel).map (·.members) =
      (steps.foldlM f.advance sel').map (·.members) := by
  induction steps generalizing sel sel' with
  | nil => exact congrArg Except.ok hmembers
  | cons s steps ih =>
    rw [List.foldlM_cons, List.foldlM_cons]
    by_cases hs : s.IsKnown ∨ sel.members = []
    · have hs' : s.IsKnown ∨ sel'.members = [] := by rwa [← hmembers]
      rw [advance_eq hs, advance_eq hs', hmembers]
      exact ih rfl
    · obtain ⟨label, hlabel, hm⟩ := exists_other hs
      have hm' : sel'.members ≠ [] := by rwa [← hmembers]
      rw [advance_of_other hlabel hm, advance_of_other hlabel hm']

/-- One of two steps to descendants in a row can be left out, whatever steps stand before and behind
them. -/
theorem WellFormed.select_descendants_twice (h : f.WellFormed) (hn : n ∈ f)
    (hd : d.kind = .descendantOrSelf) (hd' : d'.kind = .descendantOrSelf)
    (seed : Seed) (before after : List Step) (text text' : String) :
    (f.select ⟨text, seed, before ++ [d, d'] ++ after⟩ n).map (·.members) =
      (f.select ⟨text', seed, before ++ [d] ++ after⟩ n).map (·.members) ∧
    ((∀ s ∈ before ++ after, s.IsKnown) →
      ∃ found, f.select ⟨text', seed, before ++ [d] ++ after⟩ n = .ok found) := by
  constructor
  · let p : Path := ⟨text, seed, before⟩
    have hrun (text : String) (steps : List Step) :
        f.select ⟨text, seed, before ++ steps⟩ n = f.select p n >>= steps.foldlM f.advance :=
      List.foldlM_append
    rw [List.append_assoc, List.append_assoc, hrun, hrun]
    cases hsel : f.select p n with
    | error e => rfl
    | ok sel =>
      have htree := h.isTree_root hn
      have hmem : ∀ y ∈ sel.members, y ∈ f := fun y hy =>
        htree.mem_of_within (htree.passes_within (h.within_root n) (passes_nil_iff.2 hsel) y hy)
      obtain ⟨once, twice, honce, htwice, hsame⟩ := h.advance_descendants hd hd' hmem
      show (f.advance sel d >>= fun once => f.advance once d' >>= after.foldlM f.advance).map _ =
        (f.advance sel d >>= after.foldlM f.advance).map _
      rw [honce]
      show (f.advance once d' >>= after.foldlM f.advance).map _ =
        (after.foldlM f.advance once).map _
      rw [htwice]
      exact map_members_foldlM hsame
  · intro hknown
    have hsteps : ∀ s ∈ before ++ [d] ++ after, s.IsKnown := by
      intro s hs
      rw [List.append_assoc, List.mem_append, List.mem_append, List.mem_singleton] at hs
      rcases hs with hs | rfl | hs
      · exact hknown s (List.mem_append_left _ hs)
      · exact isKnown_of_down hd
      · exact hknown s (List.mem_append_right _ hs)
    obtain ⟨found, hfound, -⟩ := f.select_of_isKnown (p := ⟨text', seed, _⟩) hsteps n
    exact ⟨found, hfound⟩

/-- The parents of the elements called `x` are `b` and then `a`, and `b` is a child of `a`. -/
theorem WellFormed.select_descendants_twice_upward :
    let f := (grove.edit (.createChild ⟨1⟩ (.str "x") [] .null)).edit
      (.createChild ⟨0⟩ (.str "x") [] .null)
    let up : List Step := [.descendantOrSelf, .tag "x", .parent]
    let down : Step := .descendantOrSelf
    f.WellFormed ∧ ⟨0⟩ ∈ f ∧ f.flow up [⟨0⟩] = [⟨1⟩, ⟨0⟩] ∧
      ∃ found, f.select ⟨"//x/..///", .root, up ++ [down] ++ [.child]⟩ ⟨0⟩ = .ok found ∧
        found.members = [⟨3⟩, ⟨1⟩, ⟨4⟩] ∧
        (f.select ⟨"//x/../////", .root, up ++ [down, down] ++ [.child]⟩ ⟨0⟩).map (·.members) =
          .ok found.members := by
  intro f up down
  have hreach : f.Reachable := (reachable_grove.edit (by decide) id).edit (by decide) id
  have hn : ⟨0⟩ ∈ f := by decide
  have hknown : ∀ s ∈ up ++ [down] ++ [.child], s.IsKnown := by decide
  have hdown : down.kind = .descendantOrSelf := rfl
  obtain ⟨htwice, honce⟩ := hreach.wellFormed.select_descendants_twice hn hdown hdown .root up
    [.child] "//x/../////" "//x/..///"
  obtain ⟨found, hfound⟩ := honce (by decide)
  have hmembers : found.members = [⟨3⟩, ⟨1⟩, ⟨4⟩] := by
    rw [f.select_eq_of_isKnown hknown] at hfound
    rw [← Except.ok.inj hfound]
    decide
  rw [hfound] at htwice
  exact ⟨hreach.wellFormed, hn, by decide, found, hfound, hmembers, htwice⟩

end TreePath.Forest
