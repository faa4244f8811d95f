import TreePath.Proofs.Forest.Preorder

namespace TreePath.Forest

/-- The forest where elements that no parent lists name none. -/
def settle (f : Forest) : Forest :=
  { elements := f.elements.mapIdx fun i e =>
      { e with parent := e.parent.filter fun p => ⟨i⟩ ∈ f.children p } }

variable {f : Forest} {p s t x y : ElementId} {ws vs : List ElementId} {n : Nat}

@[simp] theorem size_settle (f : Forest) : f.settle.size = f.size :=
  Array.size_mapIdx

@[simp] theorem mem_settle : x ∈ f.settle ↔ x ∈ f := by
  simp only [Membership.mem, size_settle]

theorem element_settle (f : Forest) (x : ElementId) : f.settle.element x =
    { f.element x with parent := (f.parent? x).filter fun p => x ∈ f.children p } := by
  by_cases hx : x ∈ f
  · have hlt : x.index < f.elements.size := hx
    simp [settle, element, parent?, get?, hlt]
  · rw [element_of_notMem hx, element_of_notMem (mem_settle.not.2 hx), parent?,
      element_of_notMem hx]
    rfl

@[simp] theorem children_settle (f : Forest) (x : ElementId) :
    f.settle.children x = f.children x := by
  rw [children, element_settle, children]

theorem up_settle_iff : f.settle.Up x p ↔ f.Up x p ∧ x ∈ f.children p := by
  rw [Up, parent?, element_settle, Up]
  simp [Option.filter_eq_some_iff]

@[simp] theorem preorder_settle (f : Forest) (x : ElementId) : f.settle.preorder x = f.preorder x :=
  preorder_eq_of_children_eq (size_settle f) (children_settle f) x

theorem walks_settle (hws : f.settle.Walks ws vs) : f.Walks ws vs := by
  induction hws with
  | done => exact .done
  | visit _ ih =>
    rw [children_settle] at ih
    exact .visit ih

theorem within_of_settle (h : f.settle.Within x y) : f.Within x y :=
  Relation.ReflTransGen.mono (fun _ _ hq => (up_settle_iff.1 hq).1) _ _ h

namespace Linked

variable (h : f.Linked)

include h

theorem wellFormed_settle : f.settle.WellFormed := by
  refine ⟨fun {x p} => ?_, fun p => ?_, fun x hx => ?_⟩
  · rw [up_settle_iff, children_settle]
    exact ⟨And.right, fun hx => ⟨h.up_of_mem hx, hx⟩⟩
  · rw [children_settle]
    exact h.nodup_children p
  · refine h.acyclic x (Relation.TransGen.mono ?_ _ _ hx)
    intro y q hq
    exact (up_settle_iff.1 hq).1

theorem mem_preorder (hx : x ∈ f) : y ∈ f.preorder x ↔ f.settle.Within y x := by
  rw [← preorder_settle, h.wellFormed_settle.mem_preorder (mem_settle.2 hx)]

theorem within_of_mem_preorder (hx : x ∈ f) (hy : y ∈ f.preorder x) : f.Within y x :=
  within_of_settle ((h.mem_preorder hx).1 hy)

theorem mem_preorder_self (hx : x ∈ f) : x ∈ f.preorder x :=
  (h.mem_preorder hx).2 .refl

theorem mem_of_mem_preorder (hx : x ∈ f) (hy : y ∈ f.preorder x) : y ∈ f := by
  rcases (h.within_of_mem_preorder hx hy).eq_or_below with rfl | hb
  · exact hx
  · exact hb.mem

theorem nodup_preorder (hx : x ∈ f) : (f.preorder x).Nodup := by
  rw [← preorder_settle]
  exact h.wellFormed_settle.nodup_preorder (mem_settle.2 hx)

theorem preorder_eq (hx : x ∈ f) : f.preorder x = x :: (f.children x).flatMap f.preorder := by
  have heq := h.wellFormed_settle.preorder_eq (mem_settle.2 hx)
  rwa [preorder_settle, children_settle, funext (preorder_settle f)] at heq

theorem child_mem_preorder (hx : x ∈ f) (hs : s ∈ f.preorder x) (ht : t ∈ f.children s) :
    t ∈ f.preorder x := by
  rw [h.mem_preorder hx] at hs ⊢
  exact .head (up_settle_iff.2 ⟨h.up_of_mem ht, ht⟩) hs

theorem exists_mem_children (hx : x ∈ f) (hs : s ∈ f.preorder x) (hsx : s ≠ x) :
    ∃ q ∈ f.preorder x, s ∈ f.children q := by
  rw [h.mem_preorder hx] at hs
  obtain ⟨q, hq, hqx⟩ := Relation.TransGen.head'_iff.1 (hs.eq_or_below.resolve_left hsx)
  exact ⟨q, (h.mem_preorder hx).2 hqx, (up_settle_iff.1 hq).2⟩

theorem walks_preorder (hx : x ∈ f) : f.Walks [x] (f.preorder x) := by
  have hwalk := walks_settle (h.wellFormed_settle.walks_preorder (mem_settle.2 hx))
  rwa [preorder_settle] at hwalk

end Linked

end TreePath.Forest
