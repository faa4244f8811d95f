import Mathlib.Data.List.Perm.Subperm
import TreePath.Proofs.Forest.Links

namespace TreePath.Forest

variable {f : Forest} {a p x : ElementId} {m n : Nat}

theorem ancestorsWithin_of_root (hx : f.parent? x = none) (n : Nat) :
    f.ancestorsWithin n x = [] := by
  cases n with
  | zero => rfl
  | succ n => simp only [ancestorsWithin, hx]

theorem ancestorsWithin_of_up (hp : f.Up x p) (n : Nat) :
    f.ancestorsWithin (n + 1) x = p :: f.ancestorsWithin n p := by
  rw [Up] at hp
  simp only [ancestorsWithin, hp]

theorem below_of_mem_ancestorsWithin (ha : a ∈ f.ancestorsWithin n x) : f.Below x a := by
  induction n generalizing x with
  | zero => cases ha
  | succ n ih =>
    cases hx : f.parent? x with
    | none =>
      rw [ancestorsWithin_of_root hx] at ha
      cases ha
    | some p =>
      have hp : f.Up x p := hx
      rw [ancestorsWithin_of_up hp] at ha
      rcases List.mem_cons.1 ha with rfl | ha
      · exact .single hp
      · exact .head hp (ih ha)

theorem pairwise_ancestorsWithin (n : Nat) (x : ElementId) :
    (x :: f.ancestorsWithin n x).Pairwise f.Below := by
  induction n generalizing x with
  | zero => exact List.pairwise_singleton _ _
  | succ n ih =>
    refine List.pairwise_cons.2 ⟨fun a ha => below_of_mem_ancestorsWithin ha, ?_⟩
    cases hx : f.parent? x with
    | none =>
      rw [ancestorsWithin_of_root hx]
      exact .nil
    | some p =>
      rw [ancestorsWithin_of_up hx]
      exact ih p

/-- A way up that has not used its bound has ended. -/
theorem ancestorsWithin_stable (hn : (f.ancestorsWithin n x).length < n) (hm : n ≤ m) :
    f.ancestorsWithin m x = f.ancestorsWithin n x := by
  induction n generalizing m x with
  | zero => cases hn
  | succ n ih =>
    cases hx : f.parent? x with
    | none => rw [ancestorsWithin_of_root hx, ancestorsWithin_of_root hx]
    | some p =>
      obtain ⟨m, rfl⟩ := Nat.exists_eq_add_one_of_ne_zero (Nat.ne_of_gt (Nat.lt_of_lt_of_le
        n.succ_pos hm))
      rw [ancestorsWithin_of_up hx] at hn
      rw [ancestorsWithin_of_up hx, ancestorsWithin_of_up hx,
        ih (Nat.lt_of_succ_lt_succ hn) (Nat.le_of_succ_le_succ hm)]

theorem index_injective : Function.Injective ElementId.index := by
  rintro ⟨i⟩ ⟨j⟩ rfl
  rfl

theorem length_le_size {xs : List ElementId} (hxs : xs.Nodup) (hf : ∀ x ∈ xs, x ∈ f) :
    xs.length ≤ f.size := by
  have hsub : xs.map ElementId.index ⊆ List.range f.size := by
    intro i hi
    obtain ⟨x, hx, rfl⟩ := List.mem_map.1 hi
    exact List.mem_range.2 (hf x hx)
  have hle := ((hxs.map index_injective).subperm hsub).length_le
  rwa [List.length_map, List.length_range] at hle

namespace Linked

variable (h : f.Linked)

include h

theorem length_ancestorsWithin_lt (hx : x ∈ f) (n : Nat) :
    (f.ancestorsWithin n x).length < f.size := by
  have hnodup : (x :: f.ancestorsWithin n x).Nodup := by
    refine (pairwise_ancestorsWithin n x).imp fun {a b} hab he => ?_
    subst he
    exact h.acyclic a hab
  refine length_le_size hnodup fun a ha => ?_
  rcases List.mem_cons.1 ha with rfl | ha
  · exact hx
  · exact h.below_mem (below_of_mem_ancestorsWithin ha)

theorem ancestorsWithin_eq (hn : f.size ≤ n) (x : ElementId) :
    f.ancestorsWithin n x = f.ancestors x := by
  by_cases hx : x ∈ f
  · exact ancestorsWithin_stable (h.length_ancestorsWithin_lt hx _) hn
  · have hroot : f.parent? x = none := by
      rw [parent?, element_of_notMem hx]
      rfl
    rw [ancestors, ancestorsWithin_of_root hroot, ancestorsWithin_of_root hroot]

theorem ancestors_of_up (hp : f.Up x p) : f.ancestors x = p :: f.ancestors p := by
  rw [← h.ancestorsWithin_eq (Nat.le_succ _), ancestorsWithin_of_up hp]
  rfl

theorem mem_ancestors : a ∈ f.ancestors x ↔ f.Below x a := by
  refine ⟨below_of_mem_ancestorsWithin, fun hb => ?_⟩
  induction hb using Relation.TransGen.head_induction_on with
  | single hp =>
    rw [h.ancestors_of_up hp]
    exact List.mem_cons_self
  | head hp _ ih =>
    rw [h.ancestors_of_up hp]
    exact List.mem_cons_of_mem _ ih

theorem isAncestorOf_iff : f.isAncestorOf a x = true ↔ f.Below x a := by
  rw [isAncestorOf, List.contains_iff_mem, h.mem_ancestors]

theorem depth_of_up (hp : f.Up x p) : f.depth x = f.depth p + 1 := by
  rw [depth, h.ancestors_of_up hp]
  rfl

/-- What holds of an element if it holds of its parent holds of every element. -/
theorem parent_induction {motive : ElementId → Prop}
    (step : ∀ x, (∀ p, f.Up x p → motive p) → motive x) (x : ElementId) : motive x := by
  induction hd : f.depth x generalizing x with
  | zero =>
    refine step x fun p hp => ?_
    rw [h.depth_of_up hp] at hd
    cases hd
  | succ d ih =>
    refine step x fun p hp => ih p ?_
    rw [h.depth_of_up hp] at hd
    exact Nat.succ.inj hd

theorem root_of_up (hp : f.Up x p) : f.root x = f.root p := by
  rw [root, h.ancestors_of_up hp, root]
  cases f.ancestors p with
  | nil => rfl
  | cons q qs => simp [List.getLast?_cons]

theorem parent?_root (x : ElementId) : f.parent? (f.root x) = none := by
  induction x using h.parent_induction with
  | step x ih =>
    cases hx : f.parent? x with
    | none =>
      rw [root, ancestors, ancestorsWithin_of_root hx]
      exact hx
    | some p =>
      rw [h.root_of_up hx]
      exact ih p hx

end Linked

namespace WellFormed

variable (h : f.WellFormed)

include h

theorem ancestorsWithin_eq (hn : f.size ≤ n) (x : ElementId) :
    f.ancestorsWithin n x = f.ancestors x :=
  h.linked.ancestorsWithin_eq hn x

theorem isAncestorOf_iff : f.isAncestorOf a x = true ↔ f.Below x a :=
  h.linked.isAncestorOf_iff

theorem depth_of_up (hp : f.Up x p) : f.depth x = f.depth p + 1 :=
  h.linked.depth_of_up hp

theorem depth_lt (hx : x ∈ f) : f.depth x < f.size :=
  h.linked.length_ancestorsWithin_lt hx _

/-- What holds of an element if it holds of its children holds of every element. -/
theorem child_induction {motive : ElementId → Prop}
    (step : ∀ x, (∀ c ∈ f.children x, motive c) → motive x) (x : ElementId) : motive x := by
  -- Children are deeper, and no element is deeper than the forest is large.
  induction hd : f.size - f.depth x using Nat.strongRecOn generalizing x with
  | ind d ih =>
    refine step x fun c hc => ih _ ?_ c rfl
    have hdepth := h.depth_of_up (h.up_iff.2 hc)
    have hlt := h.depth_lt (h.mem_children hc)
    omega

theorem parent?_root (x : ElementId) : f.parent? (f.root x) = none :=
  h.linked.parent?_root x

end WellFormed

end TreePath.Forest
