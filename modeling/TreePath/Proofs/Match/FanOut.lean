import Mathlib.Data.List.Flatten
import Mathlib.Tactic.Ring
import TreePath.Proofs.Lists
import TreePath.Proofs.Match.Confinement

namespace List

variable {α β : Type} {xs ys : List α} {g h : α → List β}

theorem length_flatMap_le_of_subset (hxs : xs.Nodup) (hsub : xs ⊆ ys) (g : α → List β) :
    (xs.flatMap g).length ≤ (ys.flatMap g).length := by
  obtain ⟨zs, hperm, hzs⟩ := hxs.subperm hsub
  rw [← (hperm.flatMap_right g).length_eq]
  exact (hzs.flatMap g).length_le

theorem two_mul_length_flatMap_le
    (hle : ∀ x ∈ xs, 2 * (h x).length ≤ (g x).length * ((g x).length + 1)) :
    2 * (xs.flatMap h).length ≤ (xs.flatMap g).length * ((xs.flatMap g).length + 1) := by
  induction xs with
  | nil => exact Nat.le_refl _
  | cons x xs ih =>
    have hx := hle x mem_cons_self
    have hxs := ih fun y hy => hle y (mem_cons_of_mem x hy)
    rw [flatMap_cons, flatMap_cons, length_append, length_append]
    generalize (g x).length = a at hx ⊢
    generalize (xs.flatMap g).length = b at hxs ⊢
    calc 2 * ((h x).length + (xs.flatMap h).length)
      _ ≤ a * (a + 1) + b * (b + 1) := by omega
      _ ≤ a * (a + 1) + b * (b + 1) + 2 * (a * b) := Nat.le_add_right _ _
      _ = (a + b) * (a + b + 1) := by ring

end List

namespace TreePath.Forest

def treeSize (f : Forest) (x : ElementId) : Nat :=
  (List.range f.size).countP fun i => f.root ⟨i⟩ = f.root x

variable {f : Forest} {n r x y : ElementId} {p : Path} {left : List Step} {sel : Selection}
  {xs : List ElementId}

namespace WellFormed

variable (h : f.WellFormed)

include h

theorem treeSize_eq (hx : x ∈ f) : f.treeSize x = (f.preorder (f.root x)).length := by
  have htree := h.isTree_root hx
  have hperm : ((List.range f.size).filter fun i => f.root ⟨i⟩ = f.root x).Perm
      ((f.preorder (f.root x)).map ElementId.index) := by
    refine (List.perm_ext_iff_of_nodup (List.nodup_range.filter _)
      ((h.nodup_preorder htree.mem).map index_injective)).2 fun i => ?_
    have hmem : i ∈ (f.preorder (f.root x)).map ElementId.index ↔
        (⟨i⟩ : ElementId) ∈ f.preorder (f.root x) :=
      List.mem_map_of_injective index_injective (a := ⟨i⟩)
    rw [hmem, htree.mem_preorder, htree.within_iff, List.mem_filter, List.mem_range,
      decide_eq_true_iff]
    rfl
  rw [treeSize, List.countP_eq_length_filter, hperm.length_eq, List.length_map]

theorem length_children_le (hx : x ∈ f) : (f.children x).length ≤ (f.preorder x).length := by
  refine ((h.nodup_children x).subperm fun c hc => ?_).length_le
  exact (h.mem_preorder hx).2 (.single (h.up_iff.2 hc))

theorem length_results_le (hx : x ∈ f) (s : Step) :
    (f.results s x).length ≤ (f.preorder x).length := by
  have hone : 1 ≤ (f.preorder x).length :=
    List.length_pos_of_mem ((h.mem_preorder hx).2 .refl)
  rcases f.results_cases s x with he | he | he | he | he
  · rw [he]
    exact h.length_children_le hx
  · rw [he]
  · rw [he]
    exact Nat.le_trans Option.length_toList_le hone
  · rw [he]
    exact Nat.zero_le _
  · rw [he]
    exact hone

/-- The subtrees of all elements within one have together at most the size that those in a chain of
as many elements have. -/
theorem two_mul_length_subtrees_le (hx : x ∈ f) :
    2 * ((f.preorder x).flatMap f.preorder).length ≤
      (f.preorder x).length * ((f.preorder x).length + 1) := by
  induction x using h.child_induction with
  | step x ih =>
    -- The subtree of `x` counts once, and each other subtree is within that of a child.
    have hbelow := List.two_mul_length_flatMap_le fun c hc => ih c hc (h.mem_children hc)
    rw [← List.flatMap_assoc] at hbelow
    have hsplit := h.preorder_eq hx
    generalize (f.children x).flatMap f.preorder = below at hbelow hsplit
    have hlength : (f.preorder x).length = below.length + 1 := by
      rw [hsplit, List.length_cons]
    have hwhole : ((f.preorder x).flatMap f.preorder).length =
        below.length + 1 + (below.flatMap f.preorder).length := by
      rw [← hlength, ← List.length_append, ← List.flatMap_cons, ← hsplit]
    rw [hwhole, hlength]
    generalize below.length = m at hbelow
    calc 2 * (m + 1 + (below.flatMap f.preorder).length)
      _ ≤ 2 * (m + 1) + m * (m + 1) := by omega
      _ = (m + 1) * (m + 1 + 1) := by ring

end WellFormed

namespace IsTree

variable (h : f.IsTree r)

include h

theorem length_le (hnodup : xs.Nodup) (hxs : ∀ y ∈ xs, f.Within y r) :
    xs.length ≤ (f.preorder r).length :=
  (hnodup.subperm fun y hy => h.mem_preorder.2 (hxs y hy)).length_le

theorem two_mul_length_flatMap_results_le (hnodup : xs.Nodup) (hxs : ∀ y ∈ xs, f.Within y r)
    (s : Step) :
    2 * (xs.flatMap (f.results s)).length ≤
      (f.preorder r).length * ((f.preorder r).length + 1) := by
  have hstep : (xs.flatMap (f.results s)).length ≤ (xs.flatMap f.preorder).length :=
    List.length_flatMap_le fun y hy =>
      h.wellFormed.length_results_le (h.mem_of_within (hxs y hy)) s
  have hmembers : (xs.flatMap f.preorder).length ≤
      ((f.preorder r).flatMap f.preorder).length :=
    List.length_flatMap_le_of_subset hnodup (fun y hy => h.mem_preorder.2 (hxs y hy)) _
  have hwhole := h.wellFormed.two_mul_length_subtrees_le h.mem
  omega

/-- The steps taken so far have used up no more than their share. -/
theorem yielded_passes_le (hx : f.Within x r) (hp : f.Passes p x left sel) :
    2 * sel.yielded + left.length * ((f.preorder r).length * ((f.preorder r).length + 1)) ≤
      p.steps.length * ((f.preorder r).length * ((f.preorder r).length + 1)) := by
  induction hp with
  | seed => exact Nat.le_of_eq (Nat.zero_add _)
  | @step s left sel next hp hnext ih =>
    have hstep := h.two_mul_length_flatMap_results_le hp.nodup (h.passes_within hx hp) s
    obtain rfl := eq_of_advance hnext
    generalize (f.preorder r).length * ((f.preorder r).length + 1) = share at ih hstep ⊢
    rw [List.length_cons, Nat.succ_mul left.length] at ih
    dsimp only
    omega

end IsTree

theorem Passes.length_members_le (hp : f.Passes p x left sel)
    (hleft : left.length < p.steps.length) : sel.members.length ≤ sel.yielded := by
  cases hp with
  | seed => exact (Nat.lt_irrefl _ hleft).elim
  | step _ hnext =>
    obtain rfl := eq_of_advance hnext
    exact Nat.le_trans List.length_eraseDups_le (Nat.le_add_left _ _)

/-- The members that a run passes through, those it ends with included, are different elements with
one root, so no more than the tree has. The steps yield together at most a triangular number for
each of them, and if there is a step they yield at least as many elements as are found. -/
theorem WellFormed.fan_out_le (h : f.WellFormed) (hn : n ∈ f) (p : Path) :
    (∀ left sel, f.Passes p n left sel →
      sel.members.Nodup ∧ (∀ y ∈ sel.members, y ∈ f ∧ f.root y = f.root n) ∧
      sel.members.length ≤ f.treeSize n) ∧
    (∀ found, f.Passes p n [] found ↔ f.select p n = .ok found) ∧
    (∀ found, f.select p n = .ok found →
      found.yielded ≤ p.steps.length * f.treeSize n * (f.treeSize n + 1) / 2 ∧
      (1 ≤ p.steps.length → found.members.length ≤ found.yielded)) ∧
    ((∀ s ∈ p.steps, s.IsKnown) → ∃ found, f.select p n = .ok found) := by
  have htree := h.isTree_root hn
  have hwithin := h.within_root n
  rw [h.treeSize_eq hn]
  refine ⟨fun left sel hp => ?_, fun found => passes_nil_iff, fun found hfound => ?_,
    fun hknown => ?_⟩
  · have hmem := htree.passes_within hwithin hp
    exact ⟨hp.nodup, fun y hy => htree.within_iff.1 (hmem y hy), htree.length_le hp.nodup hmem⟩
  · have hp : f.Passes p n [] found := passes_nil_iff.2 hfound
    have hyielded := htree.yielded_passes_le hwithin hp
    rw [List.length_nil, Nat.zero_mul, Nat.add_zero, ← Nat.mul_assoc] at hyielded
    refine ⟨?_, hp.length_members_le⟩
    rw [Nat.le_div_iff_mul_le Nat.two_pos, Nat.mul_comm]
    exact hyielded
  · obtain ⟨found, hfound, -⟩ := f.select_of_isKnown hknown n
    exact ⟨found, hfound⟩

/-- Three elements in a chain, asked for twice from the last of them: the second step yields as much
as any step can. -/
theorem WellFormed.fan_out_le_chain :
    let f := grove.edit (.addChild ⟨1⟩ (some ⟨2⟩) .null)
    let p : Path := ⟨"////", .root, [.descendantOrSelf, .descendantOrSelf]⟩
    f.WellFormed ∧ ⟨2⟩ ∈ f ∧ f.treeSize ⟨2⟩ = 3 ∧
      ∃ found, f.select p ⟨2⟩ = .ok found ∧ found.yielded = 3 + 6 ∧
        found.yielded ≤ 2 * 3 * (3 + 1) / 2 ∧ found.members.length ≤ found.yielded ∧
        found.members.length ≤ 3 := by
  intro f p
  have hreach : f.Reachable := reachable_grove.edit (by decide) id
  have hn : ⟨2⟩ ∈ f := by decide
  have hsize : f.treeSize ⟨2⟩ = 3 := by decide
  have hknown : ∀ s ∈ p.steps, s.IsKnown := by decide
  obtain ⟨hpasses, hlast, hbounds, hexists⟩ := hreach.wellFormed.fan_out_le hn p
  rw [hsize] at hpasses hbounds
  obtain ⟨found, hfound⟩ := hexists hknown
  have hyielded : found.yielded = 3 + 6 := by
    rw [f.select_eq_of_isKnown hknown] at hfound
    cases hfound
    decide
  obtain ⟨hmost, hleast⟩ := hbounds found hfound
  exact ⟨hreach.wellFormed, hn, hsize, found, hfound, hyielded, hmost, hleast (by decide),
    (hpasses [] found ((hlast found).2 hfound)).2.2⟩

end TreePath.Forest
