import TreePath.Proofs.Forest.Correspondence
import TreePath.Proofs.Match.Runs

namespace TreePath.Forest

def start (f : Forest) (p : Path) (x : ElementId) : Selection :=
  { members := ((f.seedMembers p.seed x).foldl Gathered.add {}).toList }

/-- The selections that a run goes through, with the steps that are still to be taken. -/
inductive Passes (f : Forest) (p : Path) (x : ElementId) : List Step → Selection → Prop
  | seed : Passes f p x p.steps (f.start p x)
  | step {s : Step} {left : List Step} {sel next : Selection} :
    Passes f p x (s :: left) sel → f.advance sel s = .ok next → Passes f p x left next

variable {f : Forest} {n r x y : ElementId} {p : Path} {t : Step} {left : List Step}
  {sel next : Selection} {members : List ElementId}

theorem start_members (f : Forest) (p : Path) (x : ElementId) :
    (f.start p x).members = (f.seedMembers p.seed x).eraseDups :=
  (Gathered.holds_foldl_add _).toList_eq

namespace Passes

theorem select_eq (h : f.Passes p x left sel) : f.select p x = left.foldlM f.advance sel := by
  induction h with
  | seed => rfl
  | step _ hnext ih =>
    rw [ih, List.foldlM_cons, hnext]
    rfl

theorem last (h : f.Passes p x left sel) (hfound : left.foldlM f.advance sel = .ok next) :
    f.Passes p x [] next := by
  induction left generalizing sel with
  | nil =>
    cases hfound
    exact h
  | cons s left ih =>
    rw [List.foldlM_cons] at hfound
    obtain ⟨sel', hsel', hfound⟩ := Except.exists_of_bind_eq_ok hfound
    exact ih (h.step hsel') hfound

theorem nodup (h : f.Passes p x left sel) : sel.members.Nodup := by
  cases h with
  | seed =>
    rw [start_members]
    exact List.nodup_eraseDups
  | step _ hnext =>
    obtain rfl := eq_of_advance hnext
    exact List.nodup_eraseDups

end Passes

theorem passes_nil_iff : f.Passes p x [] sel ↔ f.select p x = .ok sel := by
  constructor
  · intro h
    exact h.select_eq
  · intro h
    exact Passes.seed.last h

namespace IsTree

variable (h : f.IsTree r)

include h

theorem results_within (hx : f.Within x r) (hy : y ∈ f.results t x) : f.Within y r := by
  rcases f.results_cases t x with he | he | he | he | he
  · exact h.child_within hx (he ▸ hy)
  · exact h.preorder_within hx (he ▸ hy)
  · exact h.parent_within hx (Option.mem_toList.1 (he ▸ hy))
  · rw [he] at hy
    cases hy
  · rw [he] at hy
    rwa [List.mem_singleton.1 hy]

theorem seedMembers_within (seed : Seed) (hx : f.Within x r) (hy : y ∈ f.seedMembers seed x) :
    f.Within y r := by
  cases seed with
  | root =>
    rw [List.mem_singleton.1 hy, h.root_eq hx]
  | self => rwa [List.mem_singleton.1 hy]
  | children => exact h.child_within hx hy

theorem flatMap_results_within (hm : ∀ y ∈ members, f.Within y r) :
    ∀ y ∈ members.flatMap (f.results t), f.Within y r := by
  intro y hy
  obtain ⟨x, hx, hy⟩ := List.mem_flatMap.1 hy
  exact h.results_within (hm x hx) hy

theorem eraseDups_results_within (hm : ∀ y ∈ members, f.Within y r) (t : Step) :
    ∀ y ∈ (members.flatMap (f.results t)).eraseDups, f.Within y r := by
  intro y hy
  exact h.flatMap_results_within hm y (List.mem_eraseDups.1 hy)

theorem advance_within (hm : ∀ y ∈ sel.members, f.Within y r) (hnext : f.advance sel t = .ok next) :
    ∀ y ∈ next.members, f.Within y r := by
  obtain rfl := eq_of_advance hnext
  exact h.eraseDups_results_within hm t

theorem passes_within (hx : f.Within x r) (hp : f.Passes p x left sel) :
    ∀ y ∈ sel.members, f.Within y r := by
  induction hp with
  | seed =>
    rw [start_members]
    intro y hy
    exact h.seedMembers_within p.seed hx (List.mem_eraseDups.1 hy)
  | step _ hnext ih => exact h.advance_within ih hnext

end IsTree

end TreePath.Forest
