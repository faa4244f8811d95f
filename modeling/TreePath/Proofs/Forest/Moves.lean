import TreePath.Forest.Edit
import TreePath.Proofs.Forest.Ancestors

namespace TreePath.Forest

variable {f g : Forest} {c p q x y : ElementId} {i : Nat}

@[simp] theorem size_modify (f : Forest) (x : ElementId) (k : Element → Element) :
    (f.modify x k).size = f.size :=
  Array.size_modify

@[simp] theorem mem_modify {k : Element → Element} : y ∈ f.modify x k ↔ y ∈ f := by
  simp only [Membership.mem, size_modify]

theorem element_modify (f : Forest) (x y : ElementId) (k : Element → Element) :
    (f.modify x k).element y = if y = x ∧ y ∈ f then k (f.element y) else f.element y := by
  by_cases hy : y ∈ f
  · have hlt : y.index < f.elements.size := hy
    by_cases he : y = x
    · subst he
      simp [element, get?, modify, hlt, hy, Array.getElem_modify_self]
    · have hne : x.index ≠ y.index := by
        intro hi
        exact he (by cases x; cases y; cases hi; rfl)
      simp [element, get?, modify, he, Array.getElem?_modify, hne]
  · rw [if_neg (fun hx => hy hx.2), element_of_notMem hy, element_of_notMem (mem_modify.not.2 hy)]

theorem element_modify_of_ne (hne : y ≠ x) (k : Element → Element) :
    (f.modify x k).element y = f.element y := by
  rw [element_modify, if_neg fun hy => hne hy.1]

theorem create_notMem (f : Forest) (k : Content) : (f.create k).1 ∉ f :=
  Nat.lt_irrefl f.size

theorem element_create (f : Forest) (k : Content) (y : ElementId) :
    (f.create k).2.element y =
      if y = (f.create k).1 then { toContent := k } else f.element y := by
  obtain ⟨j⟩ := y
  simp only [create, element, get?, size, Array.getElem?_push, ElementId.mk.injEq]
  split <;> rfl

theorem element_create_links (f : Forest) (k : Content) (y : ElementId) :
    (f.create k).2.parent? y = f.parent? y ∧ (f.create k).2.children y = f.children y := by
  simp only [parent?, children, element_create]
  split
  · next hy =>
    rw [hy, element_of_notMem (create_notMem f k)]
    exact ⟨rfl, rfl⟩
  · exact ⟨rfl, rfl⟩

theorem mem_create {k : Content} : y ∈ (f.create k).2 ↔ y ∈ f ∨ y = (f.create k).1 := by
  obtain ⟨j⟩ := y
  simp only [Membership.mem, size, create, Array.size_push, ElementId.mk.injEq]
  omega

theorem parent?_create_new (f : Forest) (k : Content) :
    (f.create k).2.parent? (f.create k).1 = none := by
  rw [(element_create_links f k _).1, parent?, element_of_notMem (create_notMem f k)]
  rfl

theorem createChild_eq (f : Forest) (p : ElementId) (k : Content) :
    (f.createChild p k).2 =
      (f.create k).2.attach p (f.create k).1 ((f.create k).2.children p).length :=
  rfl

theorem detach_of_root (hc : f.parent? c = none) : f.detach c = f := by
  simp only [detach, hc]

@[simp] theorem mem_detach : y ∈ f.detach c ↔ y ∈ f := by
  unfold detach
  split
  · rfl
  · rw [mem_modify, mem_modify]

theorem parent?_detach (f : Forest) (c x : ElementId) :
    (f.detach c).parent? x = if x = c then none else f.parent? x := by
  unfold detach
  split
  · next hc =>
    split
    · next he => rw [he, hc]
    · rfl
  · next p hp =>
    simp only [parent?, element_modify, mem_modify]
    by_cases he : x = c
    · subst he
      have hx : x ∈ f := Up.mem hp
      simp [hx]
    · simp only [he, false_and, if_false]
      split <;> rfl

theorem up_detach_le (f : Forest) (c : ElementId) : (f.detach c).Up ≤ f.Up := by
  intro x p hx
  rw [Up, parent?_detach] at hx
  split at hx
  · cases hx
  · exact hx

theorem children_detach (f : Forest) (c x : ElementId) :
    (f.detach c).children x =
      if f.parent? c = some x then (f.children x).erase c else f.children x := by
  unfold detach
  split
  · next hc => rw [hc, if_neg nofun]
  · next p hp =>
    simp only [children, element_modify, mem_modify]
    rw [hp]
    by_cases he : x = p
    · subst he
      by_cases hx : x ∈ f
      · simp [hx]
        split <;> rfl
      · have hnil := children_of_notMem hx
        rw [children] at hnil
        simp [hx, hnil]
    · rw [if_neg (fun heq => he (Option.some.inj heq).symm)]
      simp only [he, false_and, if_false]
      split <;> rfl

theorem modifyContent_links (f : Forest) (x y : ElementId) (k : Content → Content) :
    (f.modifyContent x k).parent? y = f.parent? y ∧
      (f.modifyContent x k).children y = f.children y := by
  simp only [modifyContent, parent?, children, element_modify]
  split
  · exact ⟨rfl, rfl⟩
  · exact ⟨rfl, rfl⟩

theorem children_modify_parent (f : Forest) (c x : ElementId) (q : Option ElementId) :
    (f.modify c fun e => { e with parent := q }).children x = f.children x := by
  simp only [children, element_modify]
  split <;> rfl

@[simp] theorem mem_attach : y ∈ f.attach p c i ↔ y ∈ f := by
  simp only [attach, mem_modify, mem_detach]

theorem parent?_attach (hc : c ∈ f) (x : ElementId) :
    (f.attach p c i).parent? x = if x = c then some p else f.parent? x := by
  simp only [attach, parent?, element_modify, mem_modify, mem_detach]
  by_cases he : x = c
  · subst he
    simp [hc]
  · simp only [he, false_and, if_false]
    have hx := parent?_detach f c x
    rw [if_neg he, parent?, parent?] at hx
    split
    · exact hx
    · exact hx

theorem up_attach (hc : c ∈ f) : (f.attach p c i).Up c p := by
  rw [Up, parent?_attach hc, if_pos rfl]

theorem children_attach (hp : p ∈ f) (x : ElementId) :
    (f.attach p c i).children x =
      if x = p then ((f.detach c).children p).insertIdx i c else (f.detach c).children x := by
  rw [attach, children_modify_parent]
  simp only [children, element_modify, mem_detach]
  by_cases he : x = p
  · subst he
    simp [hp]
  · simp [he]

theorem parent?_misplace (hc : c ∈ f) (x : ElementId) :
    ((f.detach c).modify c fun e => { e with parent := some p }).parent? x =
      if x = c then some p else f.parent? x := by
  have hx := parent?_detach f c x
  simp only [parent?, element_modify, mem_detach]
  by_cases he : x = c
  · subst he
    simp [hc]
  · rw [if_neg he, parent?, parent?] at hx
    simp only [he, false_and, if_false]
    exact hx

theorem up_moved_iff (hparent : ∀ x, g.parent? x = if x = c then some p else f.parent? x)
    {x q : ElementId} : g.Up x q ↔ x = c ∧ q = p ∨ (f.detach c).Up x q := by
  rw [Up, Up, hparent, parent?_detach]
  by_cases hxc : x = c
  · simp [hxc, eq_comm]
  · simp [hxc]

/-- What a new link adds to the relation of being below. -/
theorem below_of_new_link (hpc : ¬ f.Within p c)
    (hup : ∀ {x q}, g.Up x q → x = c ∧ q = p ∨ f.Up x q) (hb : g.Below x y) :
    f.Below x y ∨ f.Within x c ∧ f.Within p y := by
  induction hb with
  | single hx =>
    rcases hup hx with ⟨rfl, rfl⟩ | hx
    · exact .inr ⟨.refl, .refl⟩
    · exact .inl (.single hx)
  | tail _ hx ih =>
    rcases hup hx with ⟨rfl, rfl⟩ | hx
    · rcases ih with hxc | ⟨_, hpc'⟩
      · exact .inr ⟨hxc.to_reflTransGen, .refl⟩
      · exact (hpc hpc').elim
    · rcases ih with hxb | ⟨hxc, hpb⟩
      · exact .inl (hxb.tail hx)
      · exact .inr ⟨hxc, hpb.tail hx⟩

theorem acyclic_of_new_link (hf : ∀ x, ¬ f.Below x x) (hpc : ¬ f.Within p c)
    (hup : ∀ {x q}, g.Up x q → x = c ∧ q = p ∨ f.Up x q) (x : ElementId) : ¬ g.Below x x := by
  intro hx
  rcases below_of_new_link hpc hup hx with hb | ⟨hxc, hpx⟩
  · exact hf x hb
  · exact hpc (hpx.trans hxc)

namespace Linked

theorem congr (h : f.Linked) (hmem : ∀ x ∈ f, x ∈ g) (hparent : ∀ x, g.parent? x = f.parent? x)
    (hchildren : ∀ x, g.children x = f.children x) : g.Linked := by
  have hup : g.Up = f.Up := by
    funext x p
    rw [Up, Up, hparent]
  refine ⟨fun {c p} hc => ?_, fun {x p} hp => ?_, fun p => ?_, fun x => ?_⟩
  · rw [hchildren] at hc
    rw [hup]
    exact h.up_of_mem hc
  · rw [hup] at hp
    exact hmem p (h.up_mem hp)
  · rw [hchildren]
    exact h.nodup_children p
  · rw [Below, hup]
    exact h.acyclic x

theorem create (h : f.Linked) (k : Content) : (f.create k).2.Linked := by
  apply h.congr
  · intro x hx
    exact mem_create.2 (.inl hx)
  · intro x
    exact (element_create_links f k x).1
  · intro x
    exact (element_create_links f k x).2

theorem modifyContent (h : f.Linked) (x : ElementId) (k : Content → Content) :
    (f.modifyContent x k).Linked := by
  apply h.congr
  · intro y hy
    exact mem_modify.2 hy
  · intro y
    exact (modifyContent_links f x y k).1
  · intro y
    exact (modifyContent_links f x y k).2

variable (h : f.Linked)

include h

theorem children_detach_eq_erase (c p : ElementId) :
    (f.detach c).children p = (f.children p).erase c := by
  rw [children_detach]
  split
  · rfl
  · next hp =>
    have hc : c ∉ f.children p := fun hc => hp (h.up_of_mem hc)
    rw [List.erase_of_not_mem hc]

theorem mem_children_detach : x ∈ (f.detach c).children p ↔ x ≠ c ∧ x ∈ f.children p := by
  rw [h.children_detach_eq_erase, (h.nodup_children p).mem_erase_iff]

theorem detach (c : ElementId) : (f.detach c).Linked := by
  refine ⟨fun {x p} hx => ?_, fun {x p} hp => ?_, fun p => ?_, fun x hx => ?_⟩
  · obtain ⟨hne, hx⟩ := h.mem_children_detach.1 hx
    rw [Up, parent?_detach, if_neg hne]
    exact h.up_of_mem hx
  · exact mem_detach.2 (h.up_mem (up_detach_le f c _ _ hp))
  · rw [h.children_detach_eq_erase]
    exact (h.nodup_children p).erase c
  · exact h.acyclic x (Relation.TransGen.mono (up_detach_le f c) _ _ hx)

theorem acyclic_of_moved (hpc : ¬ f.Within p c)
    (hup : ∀ {x q}, g.Up x q → x = c ∧ q = p ∨ (f.detach c).Up x q) (x : ElementId) :
    ¬ g.Below x x := by
  have hpc' : ¬ (f.detach c).Within p c := by
    intro hw
    exact hpc (Relation.ReflTransGen.mono (up_detach_le f c) _ _ hw)
  exact acyclic_of_new_link (h.detach c).acyclic hpc' hup x

/-- The element names its new parent and is not listed there. -/
theorem misplace (hp : p ∈ f) (hc : c ∈ f) (hpc : ¬ f.Within p c) :
    ((f.detach c).modify c fun e => { e with parent := some p }).Linked := by
  have hd := h.detach c
  have hup {x q : ElementId} := up_moved_iff (parent?_misplace (p := p) hc) (x := x) (q := q)
  refine ⟨fun {x q} hx => ?_, fun {x q} hq => ?_, fun q => ?_, h.acyclic_of_moved hpc hup.1⟩
  · rw [children_modify_parent] at hx
    exact hup.2 (.inr (hd.up_of_mem hx))
  · rw [mem_modify, mem_detach]
    rcases hup.1 hq with ⟨_, rfl⟩ | hq
    · exact hp
    · exact mem_detach.1 (hd.up_mem hq)
  · rw [children_modify_parent]
    exact hd.nodup_children q

theorem attach (hp : p ∈ f) (hc : c ∈ f) (hpc : ¬ f.Within p c)
    (hi : i ≤ ((f.detach c).children p).length) : (f.attach p c i).Linked := by
  have hd := h.detach c
  have hfresh : c ∉ (f.detach c).children p := fun hmem => (h.mem_children_detach.1 hmem).1 rfl
  refine ⟨fun {x q} hx => ?_, fun {x q} hq => ?_, fun q => ?_,
    h.acyclic_of_moved hpc (up_moved_iff (parent?_attach hc)).1⟩
  · rw [children_attach hp] at hx
    rw [up_moved_iff (parent?_attach hc)]
    split at hx
    · next he =>
      rcases (List.mem_insertIdx hi).1 hx with rfl | hx
      · exact .inl ⟨rfl, he⟩
      · exact .inr (he ▸ hd.up_of_mem hx)
    · exact .inr (hd.up_of_mem hx)
  · rw [mem_attach]
    rcases (up_moved_iff (parent?_attach hc)).1 hq with ⟨_, rfl⟩ | hq
    · exact hp
    · exact mem_detach.1 (hd.up_mem hq)
  · rw [children_attach hp]
    split
    · rw [(List.perm_insertIdx c _ hi).nodup_iff, List.nodup_cons]
      exact ⟨hfresh, hd.nodup_children p⟩
    · exact hd.nodup_children q

end Linked

namespace WellFormed

theorem create (h : f.WellFormed) (k : Content) : (f.create k).2.WellFormed := by
  apply (h.linked.create k).wellFormed
  intro x p hp
  rw [Up, (element_create_links f k x).1] at hp
  rw [(element_create_links f k p).2]
  exact h.up_iff.1 hp

theorem modifyContent (h : f.WellFormed) (x : ElementId) (k : Content → Content) :
    (f.modifyContent x k).WellFormed := by
  apply (h.linked.modifyContent x k).wellFormed
  intro y p hp
  rw [Up, (modifyContent_links f x y k).1] at hp
  rw [(modifyContent_links f x p k).2]
  exact h.up_iff.1 hp

variable (h : f.WellFormed)

include h

theorem detach (c : ElementId) : (f.detach c).WellFormed := by
  apply (h.linked.detach c).wellFormed
  intro x p hp
  rw [Up, parent?_detach] at hp
  split at hp
  · cases hp
  · next hne => exact h.linked.mem_children_detach.2 ⟨hne, h.up_iff.1 hp⟩

theorem attach (hp : p ∈ f) (hc : c ∈ f) (hpc : ¬ f.Within p c)
    (hi : i ≤ ((f.detach c).children p).length) : (f.attach p c i).WellFormed := by
  apply (h.linked.attach hp hc hpc hi).wellFormed
  intro x q hq
  rw [children_attach hp]
  rcases (up_moved_iff (parent?_attach hc)).1 hq with ⟨rfl, rfl⟩ | hq
  · rw [if_pos rfl]
    exact (List.mem_insertIdx hi).2 (.inl rfl)
  · have hx := (h.detach c).up_iff.1 hq
    split
    · next he => exact (List.mem_insertIdx hi).2 (.inr (he ▸ hx))
    · exact hx

end WellFormed

end TreePath.Forest
