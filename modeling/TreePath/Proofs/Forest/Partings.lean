import TreePath.Proofs.Forest.Edits

namespace List

theorem flatMap_erase {α β : Type} [BEq α] [LawfulBEq α] {c : α} {k : α → List β} (h : k c = [])
    (xs : List α) : (xs.erase c).flatMap k = xs.flatMap k := by
  induction xs with
  | nil => rfl
  | cons x xs ih =>
    by_cases hx : x = c
    · subst hx
      rw [erase_cons_head, flatMap_cons, h, nil_append]
    · rw [erase_cons_tail (by simpa using hx), flatMap_cons, flatMap_cons, ih]

end List

namespace TreePath.Forest

/-- In `g` the element `c` is no child of an element that had it, and no child is new but `c`.
Elements of `f` keep their parents, except that `c` has none. -/
structure Parts (f g : Forest) (c : ElementId) : Prop where
  mem : ∀ y ∈ f, y ∈ g
  parent?_eq : ∀ y ∈ f, g.parent? y = if y = c then none else f.parent? y
  erase_eq : ∀ w, (g.children w).erase c = (f.children w).erase c

variable {f g : Forest} {a c p q x y : ElementId} {ws : List ElementId} {n : Nat}

theorem WellFormed.within_of_mem_walk (h : f.WellFormed) (hy : y ∈ f.walk n ws) :
    ∃ w ∈ ws, f.Within y w := by
  fun_induction f.walk n ws with
  | case1 => cases hy
  | case2 => cases hy
  | case3 n x ws ih =>
    rcases List.mem_cons.1 hy with rfl | hy
    · exact ⟨y, List.mem_cons_self, .refl⟩
    · obtain ⟨w, hw, hyw⟩ := ih hy
      rcases List.mem_append.1 hw with hc | hw
      · exact ⟨x, List.mem_cons_self, hyw.tail (h.up_iff.2 hc)⟩
      · exact ⟨w, List.mem_cons_of_mem x hw, hyw⟩

theorem WellFormed.filter_preorder_eq_nil (h : f.WellFormed) {P : ElementId → Bool}
    (hP : ∀ y, f.Within y c → P y = false) : (f.preorder c).filter P = [] := by
  apply List.filter_eq_nil_iff.2
  intro y hy
  obtain ⟨w, hw, hyw⟩ := h.within_of_mem_walk hy
  rw [List.mem_singleton.1 hw] at hyw
  rw [hP y hyw]
  exact Bool.false_ne_true

namespace Parts

variable (h : f.Parts g c) (hf : f.WellFormed) (hg : g.WellFormed)

include h

theorem up (hy : y ∈ f) (hp : g.Up y p) : f.Up y p := by
  rw [Up, h.parent?_eq y hy] at hp
  split at hp
  · cases hp
  · exact hp

theorem up_of_ne (hne : y ≠ c) (hp : f.Up y p) : g.Up y p := by
  rw [Up, h.parent?_eq y hp.mem, if_neg hne]
  exact hp

theorem parent?_eq_none (hc : c ∈ f) : g.parent? c = none := by
  rw [h.parent?_eq c hc, if_pos rfl]

include hf

theorem within (hy : y ∈ f) (hw : g.Within y x) : f.Within y x := by
  induction hw using Relation.ReflTransGen.head_induction_on with
  | refl => exact .refl
  | head hp _ ih =>
    have hup := h.up hy hp
    exact .head hup (ih (hf.up_mem hup))

theorem below (hy : y ∈ f) (hb : g.Below y x) : f.Below y x := by
  obtain ⟨p, hp, hpx⟩ := Relation.TransGen.head'_iff.1 hb
  have hup := h.up hy hp
  exact .head' hup (h.within hf (hf.up_mem hup) hpx)

theorem within_parted (hw : f.Within y c) : g.Within y c := by
  induction hw using Relation.ReflTransGen.head_induction_on with
  | refl => exact .refl
  | @head y p hp hpc ih =>
    have hne : y ≠ c := by
      rintro rfl
      exact hf.not_within_of_up hp hpc
    exact .head (h.up_of_ne hne hp) ih

theorem not_within_parted (hx : x ∈ f) (hxc : ¬ f.Within x c) (hy : y ∈ f) (hw : g.Within y x) :
    ¬ f.Within y c := by
  intro hyc
  have hc : c ∈ f := by
    rcases hyc.eq_or_below with rfl | hb
    · exact hy
    · exact hf.below_mem hb
  rcases (h.within_parted hf hyc).total hw with hcx | hxc'
  · rcases Relation.ReflTransGen.cases_head hcx with rfl | ⟨p, hp, _⟩
    · exact hxc .refl
    · rw [Up, h.parent?_eq_none hc] at hp
      cases hp
  · exact hxc (h.within hf hx hxc')

include hg

theorem children_eq (hc : c ∈ f) (hw : c ∉ f.children y) : g.children y = f.children y := by
  have hwg : c ∉ g.children y := by
    intro hcg
    have hup := h.up hc (hg.up_iff.2 hcg)
    exact hw (hf.up_iff.1 hup)
  have herase := h.erase_eq y
  rwa [List.erase_of_not_mem hwg, List.erase_of_not_mem hw] at herase

theorem preorder_eq (hc : c ∈ f) (hx : x ∈ f) (hcx : ¬ f.Below c x) :
    g.preorder x = f.preorder x := by
  apply hf.preorder_congr hg hx (h.mem x hx)
  intro y hy
  apply h.children_eq hf hg hc
  intro hcy
  exact hcx (.head' (hf.up_iff.2 hcy) hy)

theorem filter_preorder {P : ElementId → Bool} (hPf : ∀ y, f.Within y c → P y = false)
    (hPg : ∀ y, g.Within y c → P y = false) (hx : x ∈ f) :
    (g.preorder x).filter P = (f.preorder x).filter P := by
  induction x using hf.child_induction with
  | step x ih =>
    rw [hg.preorder_eq (h.mem x hx), hf.preorder_eq hx, List.filter_cons, List.filter_cons]
    suffices hchildren : ((g.children x).flatMap g.preorder).filter P =
        ((f.children x).flatMap f.preorder).filter P by rw [hchildren]
    rw [List.filter_flatMap, List.filter_flatMap]
    calc (g.children x).flatMap (fun w => (g.preorder w).filter P)
      _ = ((g.children x).erase c).flatMap (fun w => (g.preorder w).filter P) :=
        (List.flatMap_erase (k := fun w => (g.preorder w).filter P)
          (hg.filter_preorder_eq_nil hPg) _).symm
      _ = ((f.children x).erase c).flatMap (fun w => (g.preorder w).filter P) := by
        rw [h.erase_eq x]
      _ = ((f.children x).erase c).flatMap (fun w => (f.preorder w).filter P) := by
        apply List.flatMap_congr
        intro w hw
        have hchild := List.mem_of_mem_erase hw
        exact ih w hchild (hf.mem_children hchild)
      _ = (f.children x).flatMap (fun w => (f.preorder w).filter P) :=
        List.flatMap_erase (k := fun w => (f.preorder w).filter P)
          (hf.filter_preorder_eq_nil hPf) _

end Parts

theorem WellFormed.parts_detach (h : f.WellFormed) (c : ElementId) : f.Parts (f.detach c) c where
  mem _ hy := mem_detach.2 hy
  parent?_eq y _ := parent?_detach f c y
  erase_eq w := by
    rw [h.linked.children_detach_eq_erase,
      List.erase_of_not_mem ((h.nodup_children w).not_mem_erase)]

theorem WellFormed.parts_createChild (h : f.WellFormed) (hp : p ∈ f) (k : Content) :
    f.Parts (f.createChild p k).2 (f.create k).1 := by
  have hnew := create_notMem f k
  have hchildren (w : ElementId) : (f.create k).2.children w = f.children w :=
    (element_create_links f k w).2
  have hnotMem (w : ElementId) : (f.create k).1 ∉ f.children w := by
    intro hc
    exact hnew (h.mem_children hc)
  rw [createChild_eq]
  refine ⟨?_, ?_, ?_⟩
  · intro y hy
    exact mem_attach.2 (mem_create.2 (.inl hy))
  · intro y hy
    have hne : y ≠ (f.create k).1 := by
      rintro rfl
      exact hnew hy
    rw [parent?_attach (mem_create.2 (.inr rfl)), if_neg hne, if_neg hne]
    exact (element_create_links f k y).1
  · intro w
    rw [children_attach (mem_create.2 (.inl hp)), detach_of_root (parent?_create_new f k)]
    split
    · next he =>
      subst he
      rw [List.insertIdx_length_self, hchildren, List.erase_append_right _ (hnotMem w),
        List.erase_of_not_mem (hnotMem w), List.erase_cons_head, List.append_nil]
    · rw [hchildren]

end TreePath.Forest
