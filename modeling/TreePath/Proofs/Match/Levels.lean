import TreePath.Proofs.Match.DocumentOrder
import TreePath.Proofs.Match.FanOut

namespace TreePath.Forest

/-- Different elements of the tree of `r` that are equally deep. -/
structure IsLevel (f : Forest) (r : ElementId) (xs : List ElementId) : Prop where
  nodup : xs.Nodup
  within : ∀ x ∈ xs, f.Within x r
  level : ∃ d, ∀ x ∈ xs, f.depth x = d

def descents (steps : List Step) : Nat :=
  steps.countP (·.kind = .descendantOrSelf)

variable {f : Forest} {n r x : ElementId} {xs : List ElementId} {s : Step} {steps : List Step}

theorem IsLevel.pairwise_apart (h : f.IsLevel r xs) (hf : f.WellFormed) :
    xs.Pairwise f.Apart := by
  obtain ⟨d, hd⟩ := h.level
  have deeper {x y : ElementId} (hx : x ∈ xs) (hy : y ∈ xs) (hne : x ≠ y) : ¬ f.Within x y := by
    intro hxy
    have hlt := hf.depth_lt_of_below (hxy.eq_or_below.resolve_left hne)
    rw [hd x hx, hd y hy] at hlt
    exact Nat.lt_irrefl d hlt
  refine List.Pairwise.imp_of_mem (fun hx hy hne => ?_) h.nodup
  exact apart_iff.2 ⟨deeper hx hy hne, deeper hy hx hne.symm⟩

namespace IsTree

variable (h : f.IsTree r)

include h

theorem isLevel_seedMembers (seed : Seed) (hn : f.Within n r) :
    f.IsLevel r (f.seedMembers seed n).eraseDups where
  nodup := List.nodup_eraseDups
  within x hx := h.seedMembers_within seed hn (List.mem_eraseDups.1 hx)
  level := by
    cases seed with
    | root => exact ⟨f.depth (f.root n), fun x hx => by rw [List.mem_singleton.1 hx]⟩
    | self => exact ⟨f.depth n, fun x hx => by rw [List.mem_singleton.1 hx]⟩
    | children =>
      refine ⟨f.depth n + 1, fun x hx => ?_⟩
      exact h.wellFormed.depth_of_up (h.wellFormed.up_iff.2 (List.mem_eraseDups.1 hx))

theorem isLevel_step (hs : s.kind ≠ .descendantOrSelf) (hxs : f.IsLevel r xs) :
    f.IsLevel r (xs.flatMap (f.results s)).eraseDups where
  nodup := List.nodup_eraseDups
  within := h.eraseDups_results_within hxs.within s
  level := by
    obtain ⟨d, hd⟩ := hxs.level
    have leads {e : Nat} (he : ∀ x ∈ xs, ∀ y ∈ f.results s x, f.depth y = e) :
        ∃ e, ∀ y ∈ (xs.flatMap (f.results s)).eraseDups, f.depth y = e := by
      refine ⟨e, fun y hy => ?_⟩
      obtain ⟨x, hx, hy⟩ := List.mem_flatMap.1 (List.mem_eraseDups.1 hy)
      exact he x hx y hy
    by_cases hchild : s.kind = .child
    · refine leads (e := d + 1) fun x hx y hy => ?_
      rw [results_child hchild] at hy
      rw [h.wellFormed.depth_of_up (h.wellFormed.up_iff.2 hy), hd x hx]
    by_cases hparent : s.kind = .parent
    · refine leads (e := d - 1) fun x hx y hy => ?_
      rw [results_parent hparent, Option.mem_toList] at hy
      have hdepth := h.wellFormed.depth_of_up hy
      rw [hd x hx] at hdepth
      omega
    · refine leads (e := d) fun x hx y hy => ?_
      rcases f.results_test_cases hchild hs hparent x with he | he
      · rw [he] at hy
        cases hy
      · rw [he] at hy
        rw [List.mem_singleton.1 hy, hd x hx]

theorem length_flatMap_preorder_le (hxs : f.IsLevel r xs) :
    (xs.flatMap f.preorder).length ≤ (f.preorder r).length := by
  have hmem {x : ElementId} (hx : x ∈ xs) : x ∈ f := h.mem_of_within (hxs.within x hx)
  apply h.length_le
  · refine List.nodup_flatMap.2 ⟨fun x hx => h.wellFormed.nodup_preorder (hmem hx), ?_⟩
    refine List.Pairwise.imp_of_mem (fun hx hy hapart => ?_) (hxs.pairwise_apart h.wellFormed)
    intro z hzx hzy
    exact hapart z ((h.wellFormed.mem_preorder (hmem hx)).1 hzx)
      ((h.wellFormed.mem_preorder (hmem hy)).1 hzy)
  · intro y hy
    obtain ⟨x, hx, hy⟩ := List.mem_flatMap.1 hy
    exact h.preorder_within (hxs.within x hx) hy

/-- A step of another kind yields each element at most once for different members, but parents,
which it yields at most once for each member. -/
theorem length_flatMap_results_le (hs : s.kind ≠ .descendantOrSelf) (hnodup : xs.Nodup)
    (hxs : ∀ x ∈ xs, f.Within x r) :
    (xs.flatMap (f.results s)).length ≤ (f.preorder r).length := by
  by_cases hchild : s.kind = .child
  · rw [results_child hchild]
    apply h.length_le
    · refine List.nodup_flatMap.2 ⟨fun x _ => h.wellFormed.nodup_children x, ?_⟩
      refine hnodup.imp fun hne z hzx hzy => hne ?_
      exact h.wellFormed.parent_unique hzx hzy
    · intro y hy
      obtain ⟨x, hx, hy⟩ := List.mem_flatMap.1 hy
      exact h.child_within (hxs x hx) hy
  · have hone (x : ElementId) : (f.results s x).length ≤ [x].length := by
      by_cases hparent : s.kind = .parent
      · rw [results_parent hparent]
        exact Option.length_toList_le
      · rcases f.results_test_cases hchild hs hparent x with he | he
        · rw [he]
          exact Nat.zero_le _
        · rw [he]
    calc (xs.flatMap (f.results s)).length
      _ ≤ (xs.flatMap fun x => [x]).length := List.length_flatMap_le fun x _ => hone x
      _ = xs.length := by rw [List.flatMap_singleton']
      _ ≤ (f.preorder r).length := h.length_le hnodup hxs

theorem fanOut_le_of_none (hdown : descents steps = 0) (hnodup : xs.Nodup)
    (hxs : ∀ x ∈ xs, f.Within x r) :
    f.fanOut steps xs ≤ steps.length * (f.preorder r).length := by
  induction steps generalizing xs with
  | nil => exact Nat.zero_le _
  | cons s steps ih =>
    have hnone := List.countP_eq_zero.1 hdown
    have hs : s.kind ≠ .descendantOrSelf := by simpa using hnone s List.mem_cons_self
    have hrest : descents steps = 0 :=
      List.countP_eq_zero.2 fun t ht => hnone t (List.mem_cons_of_mem s ht)
    have hstep := h.length_flatMap_results_le hs hnodup hxs
    have hlater := ih hrest List.nodup_eraseDups (h.eraseDups_results_within hxs s)
    rw [fanOut, List.length_cons, Nat.succ_mul]
    omega

/-- With one step to descendants it is still so for members of one level. -/
theorem fanOut_le (hdown : descents steps ≤ 1) (hxs : f.IsLevel r xs) :
    f.fanOut steps xs ≤ steps.length * (f.preorder r).length := by
  induction steps generalizing xs with
  | nil => exact Nat.zero_le _
  | cons s steps ih =>
    rw [fanOut, List.length_cons, Nat.succ_mul]
    by_cases hs : s.kind = .descendantOrSelf
    · rw [descents, List.countP_cons_of_pos (by simpa using hs)] at hdown
      have hrest : descents steps = 0 := Nat.le_zero.1 (Nat.le_of_succ_le_succ hdown)
      have hstep := h.length_flatMap_preorder_le hxs
      have hlater := h.fanOut_le_of_none hrest List.nodup_eraseDups
        (h.eraseDups_results_within hxs.within s)
      rw [results_descendantOrSelf hs] at hlater ⊢
      omega
    · rw [descents, List.countP_cons_of_neg (by simpa using hs)] at hdown
      have hstep := h.length_flatMap_results_le hs hxs.nodup hxs.within
      have hlater := ih hdown (h.isLevel_step hs hxs)
      omega

end IsTree

/-- The steps of a run yield no more than the tree has, each, if at most one of them leads to
descendants. -/
theorem WellFormed.yielded_le (h : f.WellFormed) (hn : n ∈ f) {p : Path} {sel : Selection}
    (hdown : descents p.steps ≤ 1) (hsel : f.select p n = .ok sel) :
    sel.yielded ≤ p.steps.length * (f.preorder (f.root n)).length := by
  have htree := h.isTree_root hn
  rw [yielded_select hsel]
  exact htree.fanOut_le hdown (htree.isLevel_seedMembers p.seed (h.within_root n))

end TreePath.Forest
