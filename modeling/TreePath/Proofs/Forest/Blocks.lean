import TreePath.Proofs.Forest.Attachments
import TreePath.Proofs.Forest.Navigation
import TreePath.Proofs.Forest.Partings
import TreePath.Proofs.Lists

namespace TreePath.Forest

variable {f g : Forest} {c p q x y : ElementId} {i : Nat} {us ws : List ElementId}
  {position : Json}

theorem ancestorsWithin_congr (hparent : ∀ y, f.Within x y → g.parent? y = f.parent? y) (n : Nat) :
    g.ancestorsWithin n x = f.ancestorsWithin n x := by
  induction n generalizing x with
  | zero => rfl
  | succ n ih =>
    have hx := hparent x .refl
    cases hp : f.parent? x with
    | none => rw [ancestorsWithin_of_root hp, ancestorsWithin_of_root (hx.trans hp)]
    | some p =>
      have hup : f.Up x p := hp
      rw [ancestorsWithin_of_up hup, ancestorsWithin_of_up (hx.trans hp),
        ih fun y hy => hparent y (hy.head hup)]

theorem parent?_attach_of_within (hc : c ∈ f) (hxc : ¬ f.Within x c) (hxy : f.Within x y) :
    (f.attach p c i).parent? y = f.parent? y := by
  have hne : y ≠ c := by
    rintro rfl
    exact hxc hxy
  rw [parent?_attach hc, if_neg hne]

theorem within_attach (hc : c ∈ f) (hxc : ¬ f.Within x c) (hxy : f.Within x y) :
    (f.attach p c i).Within x y := by
  induction hxy with
  | refl => exact .refl
  | @tail b y hxb hb ih =>
    refine ih.tail ?_
    rw [Up, parent?_attach_of_within hc hxc hxb]
    exact hb

theorem root_attach (hc : c ∈ f) (hxc : ¬ f.Within x c) : (f.attach p c i).root x = f.root x := by
  have hparent : ∀ y, f.Within x y → (f.attach p c i).parent? y = f.parent? y :=
    fun y => parent?_attach_of_within hc hxc
  rw [root, ancestors, size_attach, ancestorsWithin_congr hparent]
  rfl

namespace WellFormed

section Walks

variable (h : f.WellFormed)

include h

theorem exists_preorder_block (hyx : f.Within y x) (hx : x ∈ f) :
    ∃ before after, f.preorder x = before ++ (f.preorder y ++ after) := by
  induction hyx with
  | refl => exact ⟨[], [], (List.append_nil _).symm⟩
  | @tail b x _ hb ih =>
    obtain ⟨before, after, hblock⟩ := ih hb.mem
    obtain ⟨us, ws, hchildren⟩ := List.append_of_mem (h.up_iff.1 hb)
    refine ⟨x :: us.flatMap f.preorder ++ before, after ++ ws.flatMap f.preorder, ?_⟩
    rw [h.preorder_eq hx, hchildren, List.flatMap_append, List.flatMap_cons, hblock]
    simp only [List.cons_append, List.append_assoc]

/-- The block of a child follows that of the child before it, or else its parent. -/
theorem exists_preorder_child (hpx : f.Within p x) (hx : x ∈ f) (hp : p ∈ f)
    (hchildren : f.children p = us ++ c :: ws) :
    ∃ before after, f.preorder x = before ++ (f.preorder c ++ after) ∧
      us.getLast?.elim [p] f.preorder <:+ before := by
  obtain ⟨before, after, hblock⟩ := h.exists_preorder_block hpx hx
  refine ⟨before ++ p :: us.flatMap f.preorder, ws.flatMap f.preorder ++ after, ?_, ?_⟩
  · rw [hblock, h.preorder_eq hp, hchildren, List.flatMap_append, List.flatMap_cons]
    simp only [List.cons_append, List.append_assoc]
  · rcases List.eq_nil_or_concat us with rfl | ⟨vs, b, rfl⟩
    · exact List.suffix_append before [p]
    · rw [List.concat_eq_append, List.getLast?_concat, List.flatMap_append, List.flatMap_singleton,
        ← List.cons_append, ← List.append_assoc]
      exact List.suffix_append _ _

theorem filter_preorder_of_root_ne (hx : x ∈ f) (hc : c ∈ f) (hroot : f.root x ≠ f.root c) :
    (f.preorder x).filter (· ∉ f.preorder c) = f.preorder x := by
  refine List.filter_eq_self.2 fun y hy => decide_eq_true fun hyc => hroot ?_
  rw [← h.root_of_within ((h.mem_preorder hx).1 hy), ← h.root_of_within ((h.mem_preorder hc).1 hyc)]

end Walks

section Attach

variable (h : f.WellFormed) (hp : p ∈ f) (hc : c ∈ f)

include h hp hc

/-- Detached again, an element that has moved is where it is if it is detached in the first
place. -/
theorem parts_attach (i : Nat) : (f.attach p c i).Parts (f.detach c) c where
  mem y hy := mem_detach.2 (mem_attach.1 hy)
  parent?_eq y _ := by
    rw [parent?_detach, parent?_attach hc]
    split <;> rfl
  erase_eq w := by
    have hfresh (w : ElementId) : c ∉ (f.detach c).children w :=
      fun hmem => (h.linked.mem_children_detach.1 hmem).1 rfl
    rw [children_attach hp]
    split
    · next he =>
      subst he
      rw [List.erase_insertIdx (hfresh w), List.erase_of_not_mem (hfresh w)]
    · rfl

variable (hpc : ¬ f.Within p c) (hi : i ≤ ((f.detach c).children p).length)

include hpc hi

theorem preorder_attach_self : (f.attach p c i).preorder c = f.preorder c := by
  have hg := h.attach hp hc hpc hi
  have hd := h.detach c
  calc (f.attach p c i).preorder c
    _ = (f.detach c).preorder c :=
      ((h.parts_attach hp hc i).preorder_eq hg hd (mem_attach.2 hc) (mem_attach.2 hc)
        (hg.acyclic c)).symm
    _ = f.preorder c := (h.parts_detach c).preorder_eq h hd hc hc (h.acyclic c)

theorem filter_preorder_attach (hx : x ∈ f) :
    ((f.attach p c i).preorder x).filter (· ∉ f.preorder c) =
      (f.preorder x).filter (· ∉ f.preorder c) := by
  have hg := h.attach hp hc hpc hi
  have hd := h.detach c
  have hself := h.preorder_attach_self hp hc hpc hi
  -- Both forests are compared with the one in which the element has no parent.
  have hout : ∀ y, f.Within y c → decide (y ∉ f.preorder c) = false := by
    intro y hy
    rw [decide_eq_false_iff_not, not_not, h.mem_preorder hc]
    exact hy
  have hout' : ∀ y, (f.attach p c i).Within y c → decide (y ∉ f.preorder c) = false := by
    intro y hy
    rw [decide_eq_false_iff_not, not_not, ← hself, hg.mem_preorder (mem_attach.2 hc)]
    exact hy
  have hparts := h.parts_detach c
  have hparts' := h.parts_attach hp hc i
  have hmem : ∀ y, (f.detach c).Within y c → y ∈ f := by
    intro y hy
    rcases hy.eq_or_below with rfl | hb
    · exact hc
    · exact mem_detach.1 hb.mem
  calc ((f.attach p c i).preorder x).filter (· ∉ f.preorder c)
    _ = ((f.detach c).preorder x).filter (· ∉ f.preorder c) := by
      refine (hparts'.filter_preorder hg hd hout' (fun y hy => ?_) (mem_attach.2 hx)).symm
      exact hout' y (hparts'.within hg (mem_attach.2 (hmem y hy)) hy)
    _ = (f.preorder x).filter (· ∉ f.preorder c) := by
      refine hparts.filter_preorder h hd hout (fun y hy => ?_) hx
      exact hout y (hparts.within h (hmem y hy) hy)

/-- The block that has moved stands behind that of the child before it, or else behind its parent,
in every walk that visits its parent. -/
theorem exists_block_attach (hpx : f.Within p x) (hx : x ∈ f) :
    ∃ us ws before after, (f.attach p c i).children p = us ++ c :: ws ∧
      (f.attach p c i).preorder x = before ++ (f.preorder c ++ after) ∧
      us.getLast?.elim [p] (f.attach p c i).preorder <:+ before ∧
      before ++ after = (f.preorder x).filter (· ∉ f.preorder c) := by
  have hg := h.attach hp hc hpc hi
  have hself := h.preorder_attach_self hp hc hpc hi
  obtain ⟨us, ws, hchildren⟩ := List.append_of_mem (hg.up_iff.1 (up_attach hc))
  obtain ⟨before, after, hblock, hplace⟩ :=
    hg.exists_preorder_child (within_attach hc hpc hpx) (mem_attach.2 hx)
      (mem_attach.2 hp) hchildren
  rw [hself] at hblock
  refine ⟨us, ws, before, after, hchildren, hblock, hplace, ?_⟩
  have hnodup := hg.nodup_preorder (mem_attach.2 hx)
  rw [← h.filter_preorder_attach hp hc hpc hi hx, hblock]
  rw [hblock] at hnodup
  exact (List.filter_notMem_append_append hnodup).symm

theorem preorder_attach_of_root_ne (hx : x ∈ f) (hxc : ¬ f.Within x c)
    (hroot : f.root x ≠ f.root p) :
    (f.attach p c i).preorder x = (f.preorder x).filter (· ∉ f.preorder c) := by
  have hg := h.attach hp hc hpc hi
  have hne : (f.attach p c i).root x ≠ (f.attach p c i).root c := by
    rwa [root_attach hc hxc, hg.linked.root_of_up (up_attach hc), root_attach hc hpc]
  calc (f.attach p c i).preorder x
    _ = ((f.attach p c i).preorder x).filter (· ∉ (f.attach p c i).preorder c) :=
      (hg.filter_preorder_of_root_ne (mem_attach.2 hx) (mem_attach.2 hc) hne).symm
    _ = ((f.attach p c i).preorder x).filter (· ∉ f.preorder c) := by
      rw [h.preorder_attach_self hp hc hpc hi]
    _ = (f.preorder x).filter (· ∉ f.preorder c) := h.filter_preorder_attach hp hc hpc hi hx

theorem preorder_attach_of_roots_ne (hx : x ∈ f) (hroot : f.root x ≠ f.root p)
    (hroot' : f.root x ≠ f.root c) : (f.attach p c i).preorder x = f.preorder x := by
  have hxc : ¬ f.Within x c := fun hw => hroot' (h.root_of_within hw)
  rw [h.preorder_attach_of_root_ne hp hc hpc hi hx hxc hroot,
    h.filter_preorder_of_root_ne hx hc hroot']

/-- The tree that the element comes from, unless it is the root there, loses just its block. -/
theorem exists_block_left (hroot : f.root c ≠ f.root p) (hne : f.root c ≠ c) :
    ∃ before after, f.preorder (f.root c) = before ++ (f.preorder c ++ after) ∧
      (f.attach p c i).preorder (f.root c) = before ++ after := by
  have hq := h.root_mem hc
  have htop := root_of_parent?_none (h.parent?_root c)
  have hqc : ¬ f.Within (f.root c) c := by
    intro hw
    rcases Relation.ReflTransGen.cases_head hw with he | ⟨q, hup, -⟩
    · exact hne he
    · rw [Up, h.parent?_root] at hup
      cases hup
  obtain ⟨before, after, hblock⟩ := h.exists_preorder_block (h.within_root c) hq
  have hnodup := h.nodup_preorder hq
  refine ⟨before, after, hblock, ?_⟩
  rw [h.preorder_attach_of_root_ne hp hc hpc hi hq hqc (by rwa [htop]), hblock]
  rw [hblock] at hnodup
  exact List.filter_notMem_append_append hnodup

end Attach

end WellFormed

theorem addChildAt_eq_none (hok : (f.addChildAt p (some c) position).1 = none) :
    ∃ i, i ≤ ((f.detach c).children p).length ∧ ¬ (c = p ∨ f.isAncestorOf c p = true) ∧
      (f.addChildAt p (some c) position).2 = f.attach p c i := by
  have hint (place : Option Int)
      (h : (addChildAt.outcome f position (f.addChild p (some c) place)).1 = none) :
      ∃ i, i ≤ ((f.detach c).children p).length ∧ ¬ (c = p ∨ f.isAncestorOf c p = true) ∧
        (addChildAt.outcome f position (f.addChild p (some c) place)).2 = f.attach p c i := by
    cases hresult : f.addChild p (some c) place with
    | error fault =>
      rw [hresult] at h
      cases fault <;> cases h
    | ok g =>
      obtain ⟨d, i, hd, hi, hcycle, rfl⟩ := addChild_eq_ok hresult
      cases hd
      exact ⟨i, hi, hcycle, rfl⟩
  cases position with
  | null => exact hint none hok
  | bool b => exact hint _ hok
  | num n =>
    cases n with
    | int k => exact hint k hok
    | float k =>
      simp only [addChildAt, Json.number?] at hok
      split at hok
      · cases hok
      · split at hok <;> cases hok
  | str s => cases hok
  | arr items => cases hok
  | obj fields => cases hok

/-- Where an element has moved beneath another one, its own walk and the root of its new parent stay
the same. Every walk is the same apart from the block of what has moved, which a walk from the root
of the new parent visits in one piece behind the child before it, or else behind the parent, and
which is gone from the walk of the tree that the element came from, unless it was the root there. -/
theorem Reachable.addChild_blocks (h : f.Reachable) (hp : p ∈ f) (hc : c ∈ f)
    (hok : (f.addChildAt p (some c) position).1 = none) :
    let g := (f.addChildAt p (some c) position).2
    let block := f.preorder c
    g.preorder c = block ∧
    g.root p = f.root p ∧
    (∃ us ws before after, g.children p = us ++ c :: ws ∧
      g.preorder (f.root p) = before ++ (block ++ after) ∧
      us.getLast?.elim [p] g.preorder <:+ before ∧
      before ++ after = (f.preorder (f.root p)).filter (· ∉ block)) ∧
    (f.root c ≠ f.root p → f.root c ≠ c →
      ∃ before after, f.preorder (f.root c) = before ++ (block ++ after) ∧
        g.preorder (f.root c) = before ++ after) ∧
    (∀ x ∈ f, (g.preorder x).Nodup ∧
      (g.preorder x).filter (· ∉ block) = (f.preorder x).filter (· ∉ block) ∧
      (f.root x ≠ f.root p → f.root x ≠ f.root c → g.preorder x = f.preorder x)) := by
  intro g block
  have hf := h.wellFormed
  obtain ⟨i, hi, hcycle, hresult⟩ := addChildAt_eq_none hok
  have hpc := hf.linked.not_within_checked hcycle
  have hg' : g = f.attach p c i := hresult
  clear_value g
  subst hg'
  have hg := hf.attach hp hc hpc hi
  refine ⟨hf.preorder_attach_self hp hc hpc hi, root_attach hc hpc,
    hf.exists_block_attach hp hc hpc hi (hf.within_root p) (hf.root_mem hp),
    hf.exists_block_left hp hc hpc hi, fun x hx => ⟨?_, ?_, ?_⟩⟩
  · exact hg.nodup_preorder (mem_attach.2 hx)
  · exact hf.filter_preorder_attach hp hc hpc hi hx
  · exact hf.preorder_attach_of_roots_ne hp hc hpc hi hx

theorem Reachable.addChild_blocks_grove :
    let g := (grove.addChildAt ⟨2⟩ (some ⟨1⟩) .null).2
    grove.Reachable ∧ ⟨2⟩ ∈ grove ∧ ⟨1⟩ ∈ grove ∧
      (grove.addChildAt ⟨2⟩ (some ⟨1⟩) .null).1 = none ∧
      g.preorder ⟨1⟩ = [⟨1⟩] ∧ g.root ⟨2⟩ = ⟨2⟩ ∧
      grove.preorder ⟨0⟩ = [⟨0⟩, ⟨1⟩] ∧ g.preorder ⟨0⟩ = [⟨0⟩] ∧
      (g.preorder ⟨2⟩).filter (· ∉ [⟨1⟩]) = [⟨2⟩] ∧
      ∃ before after, g.preorder ⟨2⟩ = before ++ ([⟨1⟩] ++ after) := by
  intro g
  have h : grove.Reachable := reachable_grove
  have hok : (grove.addChildAt ⟨2⟩ (some ⟨1⟩) .null).1 = none := by decide
  have hblock : grove.preorder ⟨1⟩ = [⟨1⟩] := by decide
  have hroot : grove.root ⟨1⟩ = ⟨0⟩ := by decide
  have hwalk : grove.preorder ⟨0⟩ = [⟨0⟩, ⟨1⟩] := by decide
  have hfilter : (grove.preorder ⟨2⟩).filter (· ∉ [⟨1⟩]) = [⟨2⟩] := by decide
  obtain ⟨hself, hsame, ⟨us, ws, before, after, -, hin, -, -⟩, hleft, hrest⟩ :=
    h.addChild_blocks (p := ⟨2⟩) (c := ⟨1⟩) (by decide) (by decide) hok
  obtain ⟨first, last, hold, hnew⟩ := hleft (by decide) (by decide)
  rw [hroot, hwalk, hblock] at hold
  rw [hroot] at hnew
  rw [hblock] at hself hin hrest
  have hcount := (hrest ⟨2⟩ (by decide)).2.1
  refine ⟨h, by decide, by decide, hok, hself, hsame, hwalk, ?_, hcount.trans hfilter,
    before, after, hin⟩
  have hends : first = [⟨0⟩] ∧ last = [] := by
    cases first with
    | nil => cases hold
    | cons y rest =>
      cases rest with
      | nil => cases hold; exact ⟨rfl, rfl⟩
      | cons z rest => simp at hold
  rw [hends.1, hends.2] at hnew
  exact hnew

/-- Where the root of a tree moves, its own walk does not lose it. -/
theorem root_keeps_its_block :
    let g := (grove.addChildAt ⟨0⟩ (some ⟨2⟩) .null).2
    grove.Reachable ∧ (grove.addChildAt ⟨0⟩ (some ⟨2⟩) .null).1 = none ∧
      grove.root ⟨2⟩ ≠ grove.root ⟨0⟩ ∧
      g.preorder (grove.root ⟨2⟩) ≠
        (grove.preorder (grove.root ⟨2⟩)).filter (· ∉ grove.preorder ⟨2⟩) := by
  exact ⟨reachable_grove, by decide, by decide, by decide⟩

end TreePath.Forest
