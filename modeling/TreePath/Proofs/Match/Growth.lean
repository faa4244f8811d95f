import TreePath.Proofs.Forest.Blocks
import TreePath.Proofs.Match.Runs

namespace TreePath.Forest

/-- Elements hold what they held and keep their parents and their children. Some may have more
children, and parents where they had none. -/
structure Grows (f g : Forest) : Prop where
  mem : ∀ x ∈ f, x ∈ g
  content_eq : ∀ x, (g.element x).toContent = (f.element x).toContent
  up : ∀ {x p}, f.Up x p → g.Up x p
  children_subset : ∀ x, f.children x ⊆ g.children x

variable {f g : Forest} {c n p x y : ElementId} {i : Nat} {s : Step} {xs ys : List ElementId}
  {position : Json}

theorem grows_attach (hp : p ∈ f) (hc : c ∈ f) (hroot : f.parent? c = none)
    (hi : i ≤ ((f.detach c).children p).length) : f.Grows (f.attach p c i) where
  mem _ hx := mem_attach.2 hx
  content_eq := toContent_attach f p c i
  up {x q} hq := by
    have hne : x ≠ c := by
      rintro rfl
      exact nomatch hroot.symm.trans hq
    rw [Up, parent?_attach hc, if_neg hne]
    exact hq
  children_subset x y hy := by
    rw [children_attach hp]
    split
    · next hx =>
      refine (List.mem_insertIdx hi).2 (.inr ?_)
      rwa [detach_of_root hroot, ← hx]
    · rwa [detach_of_root hroot]

namespace Linked

variable (h : f.Linked)

include h

theorem mem_of_mem_children (hy : y ∈ f.children x) : y ∈ f :=
  (h.up_of_mem hy).mem

theorem results_mem (hx : x ∈ f) (hy : y ∈ f.results s x) : y ∈ f := by
  rcases f.results_cases s x with he | he | he | he | he
  · exact h.mem_of_mem_children (he ▸ hy)
  · exact h.mem_of_mem_preorder hx (he ▸ hy)
  · exact h.up_mem (Option.mem_toList.1 (he ▸ hy))
  · rw [he] at hy
    cases hy
  · rw [he] at hy
    rwa [List.mem_singleton.1 hy]

theorem seedMembers_mem (seed : Seed) (hx : x ∈ f) (hy : y ∈ f.seedMembers seed x) : y ∈ f := by
  cases seed with
  | root =>
    rw [List.mem_singleton.1 hy]
    exact h.root_mem hx
  | self => rwa [List.mem_singleton.1 hy]
  | children => exact h.mem_of_mem_children hy

end Linked

namespace Grows

variable (h : f.Grows g)

include h

theorem tag_eq (x : ElementId) : g.tag x = f.tag x :=
  congrArg Content.tag (h.content_eq x)

theorem attribute?_eq (x : ElementId) : g.attribute? x = f.attribute? x :=
  congrArg Content.attribute? (h.content_eq x)

variable (hf : f.Linked) (hg : g.Linked)

include hf hg

theorem preorder_subset (hx : x ∈ f) : f.preorder x ⊆ g.preorder x := by
  intro y hy
  rw [hf.mem_preorder hx] at hy
  rw [hg.mem_preorder (h.mem x hx)]
  refine Relation.ReflTransGen.mono (fun a b hab => ?_) _ _ hy
  obtain ⟨hup, hlisted⟩ := up_settle_iff.1 hab
  exact up_settle_iff.2 ⟨h.up hup, h.children_subset b hlisted⟩

/-- What a step yields for an element it still yields. One case for each kind of step. -/
theorem results_subset (s : Step) (hx : x ∈ f) : f.results s x ⊆ g.results s x := by
  unfold results
  cases s.kind with
  | child => exact h.children_subset x
  | descendantOrSelf => exact h.preorder_subset hf hg hx
  | parent =>
    intro y hy
    exact Option.mem_toList.2 (h.up (Option.mem_toList.1 hy))
  | tag =>
    rw [h.tag_eq]
    exact List.Subset.refl _
  | hasAttribute =>
    rw [h.attribute?_eq]
    exact List.Subset.refl _
  | hasChild =>
    dsimp only
    split
    · next hany =>
      obtain ⟨c, hc, hname⟩ := List.any_eq_true.1 hany
      rw [if_pos (List.any_eq_true.2 ⟨c, h.children_subset x hc, by rwa [h.tag_eq]⟩)]
      exact List.Subset.refl _
    · exact List.nil_subset _
  | self => exact List.Subset.refl _
  | wildcard => exact List.Subset.refl _
  | other => exact List.Subset.refl _

theorem flow_subset (steps : List Step) (hxs : ∀ x ∈ xs, x ∈ f) (hsub : xs ⊆ ys) :
    f.flow steps xs ⊆ g.flow steps ys := by
  induction steps generalizing xs ys with
  | nil => exact hsub
  | cons s steps ih =>
    refine @ih (xs.flatMap (f.results s)) (ys.flatMap (g.results s)) (fun y hy => ?_) fun y hy => ?_
    · obtain ⟨x, hx, hy⟩ := List.mem_flatMap.1 hy
      exact hf.results_mem (hxs x hx) hy
    · obtain ⟨x, hx, hy⟩ := List.mem_flatMap.1 hy
      exact List.mem_flatMap.2 ⟨x, hsub hx, h.results_subset hf hg s (hxs x hx) hy⟩

theorem select_subset {path : Path} (hknown : ∀ s ∈ path.steps, s.IsKnown) (hn : n ∈ f)
    (hroot : g.root n = f.root n) :
    ∃ found found', f.select path n = .ok found ∧ g.select path n = .ok found' ∧
      found.members ⊆ found'.members := by
  have hseeds : f.seedMembers path.seed n ⊆ g.seedMembers path.seed n := by
    cases path.seed with
    | root =>
      rw [seedMembers, seedMembers, hroot]
      exact List.Subset.refl _
    | self => exact List.Subset.refl _
    | children => exact h.children_subset n
  obtain ⟨found, hfound, hmembers⟩ := f.select_of_isKnown hknown n
  obtain ⟨found', hfound', hmembers'⟩ := g.select_of_isKnown hknown n
  refine ⟨found, found', hfound, hfound', fun y hy => ?_⟩
  rw [hmembers, List.mem_eraseDups] at hy
  rw [hmembers', List.mem_eraseDups]
  exact h.flow_subset hf hg path.steps (fun x hx => hf.seedMembers_mem path.seed hn hx) hseeds hy

end Grows

/-- Where a root becomes a child of an element of another tree, a path that starts in that tree
finds all that it found before. The steps of a path that was read from a text are all known. -/
theorem Attained.select_attached (h : f.Attained) (hp : p ∈ f) (hc : c ∈ f) (hn : n ∈ f)
    (htop : f.parent? c = none) (hroot : f.root n = f.root p)
    (hok : (f.addChildAt p (some c) position).1 = none) {path : Path}
    (hknown : ∀ s ∈ path.steps, s.IsKnown) :
    let g := (f.addChildAt p (some c) position).2
    ∃ found found', f.select path n = .ok found ∧ g.select path n = .ok found' ∧
      ∀ y ∈ found.members, y ∈ found'.members := by
  intro g
  have hf := h.linked
  obtain ⟨i, hi, hcycle, hresult⟩ := addChildAt_eq_none hok
  have hpc := hf.not_within_checked hcycle
  have hnc : ¬ f.Within n c := by
    intro hw
    -- An element within the root that moves would have it for a root, and so would its new parent.
    have hp' := hf.within_root p
    rw [← hroot, hf.root_of_within hw, root_of_parent?_none htop] at hp'
    exact hpc hp'
  have hg' : g = f.attach p c i := hresult
  clear_value g
  subst hg'
  exact (grows_attach hp hc htop hi).select_subset hf (hf.attach hp hc hpc hi) hknown hn
    (root_attach hc hnc)

theorem Attained.select_attached_grove :
    let g := (grove.addChildAt ⟨0⟩ (some ⟨2⟩) (.int 0)).2
    let path : Path := ⟨"//", .root, [.descendantOrSelf]⟩
    grove.Attained ∧ grove.parent? ⟨2⟩ = none ∧ grove.root ⟨1⟩ = grove.root ⟨0⟩ ∧
      (grove.addChildAt ⟨0⟩ (some ⟨2⟩) (.int 0)).1 = none ∧ (∀ s ∈ path.steps, s.IsKnown) ∧
      ∃ found found', grove.select path ⟨1⟩ = .ok found ∧ found.members = [⟨0⟩, ⟨1⟩] ∧
        g.select path ⟨1⟩ = .ok found' ∧ found'.members = [⟨0⟩, ⟨2⟩, ⟨1⟩] ∧
        ∀ y ∈ found.members, y ∈ found'.members := by
  intro g path
  have hf : grove.Attained := reachable_grove.attained
  have htop : grove.parent? ⟨2⟩ = none := by decide
  have hroot : grove.root ⟨1⟩ = grove.root ⟨0⟩ := by decide
  have hok : (grove.addChildAt ⟨0⟩ (some ⟨2⟩) (.int 0)).1 = none := by decide
  have hknown : ∀ s ∈ path.steps, s.IsKnown := List.forall_mem_singleton.2 nofun
  obtain ⟨found, found', hfound, hfound', hsub⟩ :=
    hf.select_attached (by decide) (by decide) (by decide) htop hroot hok hknown
  refine ⟨hf, htop, hroot, hok, hknown, found, found', hfound, ?_, hfound', ?_, hsub⟩
  · cases hfound.symm.trans (select_eq_of_isKnown hknown ⟨1⟩)
    decide
  · cases hfound'.symm.trans (select_eq_of_isKnown hknown ⟨1⟩)
    decide

end TreePath.Forest
