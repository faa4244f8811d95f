import TreePath.Proofs.Forest.Copying

namespace TreePath.Forest

variable {f : Forest} {c p q s t x y : ElementId}

theorem clone_fst (f : Forest) (x : ElementId) : (f.clone x).1 = f.copyOf x x :=
  (copyOf_self f x).symm

namespace Linked

variable (h : f.Linked)

include h

/-- The copy is the one that is made child by child. -/
theorem clone_eq_oneByOne (x : ElementId) :
    f.clone x = (⟨f.size⟩, ((f.startCopying x).runOneByOne f.size).forest) := by
  have hclosed : (f.startCopying x).Closed := by
    refine ⟨fun y c hc => mem_create.2 (.inl ?_), List.forall_mem_singleton.2 ?_⟩
    · have hlinks := (element_create_links f (f.element x).toContent y).2
      exact (h.up_of_mem (hlinks ▸ hc)).mem
    · exact mem_create.2 (.inr rfl)
  rw [hclosed.runOneByOne_eq, Forest.clone]

theorem size_clone (hx : x ∈ f) : (f.clone x).2.size = f.size + (f.preorder x).length := by
  rw [← (h.sources_perm hx).length_eq]
  exact (Copying.midway_end h hx).size_eq

theorem element_clone_of_mem (hx : x ∈ f) (hy : y ∈ f) :
    (f.clone x).2.element y = f.element y :=
  (Copying.midway_end h hx).element_eq y hy

theorem mem_clone_of_mem (hx : x ∈ f) (hy : y ∈ f) : y ∈ (f.clone x).2 := by
  have hlt : y.index < f.size := hy
  show y.index < (f.clone x).2.size
  rw [h.size_clone hx]
  omega

theorem parent?_clone_of_mem (hx : x ∈ f) (hy : y ∈ f) :
    (f.clone x).2.parent? y = f.parent? y := by
  rw [parent?, h.element_clone_of_mem hx hy, parent?]

theorem children_clone_of_mem (hx : x ∈ f) (hy : y ∈ f) :
    (f.clone x).2.children y = f.children y := by
  rw [children, h.element_clone_of_mem hx hy, children]

theorem copyOf_inj (hx : x ∈ f) (hs : s ∈ f.preorder x) (he : f.copyOf x s = f.copyOf x t) :
    s = t :=
  Forest.copyOf_inj ((h.mem_sources hx).2 hs) he

/-- The loop that copies links every copy as its source is linked. -/
theorem element_copyOf (hx : x ∈ f) (hs : s ∈ f.preorder x) :
    (f.clone x).2.element (f.copyOf x s) = f.copyElement x s := by
  have hcopy := (Copying.midway_end h hx).copy_eq s ((h.mem_sources hx).2 hs)
  rwa [if_neg List.not_mem_nil] at hcopy

theorem mem_clone (hx : x ∈ f) :
    y ∈ (f.clone x).2 ↔ y ∈ f ∨ ∃ s ∈ f.preorder x, y = f.copyOf x s := by
  have hsize := h.size_clone hx
  rw [← (h.sources_perm hx).length_eq] at hsize
  constructor
  · intro hy
    by_cases hlt : y ∈ f
    · exact .inl hlt
    · have hle : f.size ≤ y.index := Nat.le_of_not_lt hlt
      have hy' : y.index < (f.clone x).2.size := hy
      have hj : y.index - f.size < (f.sources x).length := by omega
      refine .inr ⟨(f.sources x)[y.index - f.size], (h.mem_sources hx).1 (List.getElem_mem hj), ?_⟩
      rw [copyOf, (h.nodup_sources hx).idxOf_getElem, Nat.add_sub_cancel' hle]
  · rintro (hy | ⟨s, hs, rfl⟩)
    · exact h.mem_clone_of_mem hx hy
    · have hlt := List.idxOf_lt_length_of_mem ((h.mem_sources hx).2 hs)
      show f.size + (f.sources x).idxOf s < (f.clone x).2.size
      omega

theorem children_copyOf (hx : x ∈ f) (hs : s ∈ f.preorder x) :
    (f.clone x).2.children (f.copyOf x s) = (f.children s).map (f.copyOf x) := by
  rw [children, h.element_copyOf hx hs, copyElement]

theorem parent?_copyOf (hx : x ∈ f) (hs : s ∈ f.preorder x) :
    (f.clone x).2.parent? (f.copyOf x s) =
      if s = x then none else (f.parent? s).map (f.copyOf x) := by
  rw [parent?, h.element_copyOf hx hs, copyElement]

theorem up_copyOf (hx : x ∈ f) (hs : s ∈ f.preorder x)
    (hp : (f.clone x).2.Up (f.copyOf x s) p) :
    ∃ q ∈ f.preorder x, s ∈ f.children q ∧ p = f.copyOf x q := by
  rw [Up, h.parent?_copyOf hx hs] at hp
  split at hp
  · cases hp
  · next hsx =>
    obtain ⟨q, hq, hsq⟩ := h.exists_mem_children hx hs hsx
    have hup : f.parent? s = some q := h.up_of_mem hsq
    rw [hup] at hp
    exact ⟨q, hq, hsq, (Option.some.inj hp).symm⟩

theorem below_copyOf (hx : x ∈ f) (hs : s ∈ f.preorder x)
    (hb : (f.clone x).2.Below (f.copyOf x s) y) :
    ∃ q ∈ f.preorder x, f.Below s q ∧ y = f.copyOf x q := by
  induction hb with
  | single hp =>
    obtain ⟨q, hq, hsq, he⟩ := h.up_copyOf hx hs hp
    exact ⟨q, hq, .single (h.up_of_mem hsq), he⟩
  | tail _ hp ih =>
    obtain ⟨q, hq, hsq, rfl⟩ := ih
    obtain ⟨r, hr, hqr, he⟩ := h.up_copyOf hx hq hp
    exact ⟨r, hr, hsq.tail (h.up_of_mem hqr), he⟩

theorem mem_of_up_clone (hx : x ∈ f) (hp : (f.clone x).2.Up y p) : y ∈ f ↔ p ∈ f := by
  by_cases hy : y ∈ f
  · rw [Up, h.parent?_clone_of_mem hx hy] at hp
    exact iff_of_true hy (h.up_mem hp)
  · obtain ⟨s, hs, rfl⟩ := ((h.mem_clone hx).1 hp.mem).resolve_left hy
    obtain ⟨q, _, _, rfl⟩ := h.up_copyOf hx hs hp
    exact iff_of_false hy (copyOf_notMem f x q)

theorem up_clone_of_mem_children (hx : x ∈ f) (hc : c ∈ (f.clone x).2.children p) :
    (f.clone x).2.Up c p := by
  rcases (h.mem_clone hx).1 (mem_of_mem_children hc) with hp | ⟨q, hq, rfl⟩
  · rw [h.children_clone_of_mem hx hp] at hc
    have hup := h.up_of_mem hc
    rwa [Up, h.parent?_clone_of_mem hx hup.mem]
  · rw [h.children_copyOf hx hq] at hc
    obtain ⟨s, hs, rfl⟩ := List.mem_map.1 hc
    have hup : f.parent? s = some q := h.up_of_mem hs
    -- A child of a source is not the source of the whole copy, whose copy has no parent.
    have hsx : s ≠ x := by
      rintro rfl
      exact h.acyclic s (.head' hup (h.within_of_mem_preorder hx hq))
    rw [Up, h.parent?_copyOf hx (h.child_mem_preorder hx hq hs), if_neg hsx, hup]
    rfl

theorem clone (hx : x ∈ f) : (f.clone x).2.Linked := by
  refine ⟨h.up_clone_of_mem_children hx, fun {y p} hp => ?_, fun p => ?_, fun y hb => ?_⟩
  · by_cases hy : y ∈ f
    · exact h.mem_clone_of_mem hx ((h.mem_of_up_clone hx hp).1 hy)
    · obtain ⟨s, hs, rfl⟩ := ((h.mem_clone hx).1 hp.mem).resolve_left hy
      obtain ⟨q, hq, _, rfl⟩ := h.up_copyOf hx hs hp
      exact (h.mem_clone hx).2 (.inr ⟨q, hq, rfl⟩)
  · by_cases hp : p ∈ (f.clone x).2
    · rcases (h.mem_clone hx).1 hp with hp | ⟨q, hq, rfl⟩
      · rw [h.children_clone_of_mem hx hp]
        exact h.nodup_children p
      · rw [h.children_copyOf hx hq]
        refine List.Nodup.map_on (fun s hs t _ => ?_) (h.nodup_children q)
        exact h.copyOf_inj hx (h.child_mem_preorder hx hq hs)
    · rw [children_of_notMem hp]
      exact .nil
  · -- The way up from an element stays among the copies, or among the elements before them.
    rcases (h.mem_clone hx).1 hb.mem with hy | ⟨s, hs, rfl⟩
    · refine h.acyclic y (hb.of_closed (S := (· ∈ f)) hy fun {z p} hz hp => ?_)
      refine ⟨?_, (h.mem_of_up_clone hx hp).1 hz⟩
      rwa [Up, h.parent?_clone_of_mem hx hz] at hp
    · obtain ⟨q, hq, hsq, he⟩ := h.below_copyOf hx hs hb
      cases h.copyOf_inj hx hs he
      exact h.acyclic s hsq

theorem walks_clone (hx : x ∈ f) :
    (f.clone x).2.Walks [f.copyOf x x] ((f.preorder x).map (f.copyOf x)) := by
  have hxs := mem_settle.2 hx
  have hwf := h.wellFormed_settle
  have hwalk := hwf.walks_preorder hxs
  rw [preorder_settle] at hwalk
  apply hwalk.map (φ := f.copyOf x) hwf
  intro w hw y hy
  rw [List.mem_singleton.1 hw, ← h.mem_preorder hx] at hy
  rw [h.children_copyOf hx hy, children_settle]

theorem preorder_clone (hx : x ∈ f) :
    (f.clone x).2.preorder (f.copyOf x x) = (f.preorder x).map (f.copyOf x) := by
  apply (h.walks_clone hx).walk_eq
  rw [List.length_map, h.size_clone hx]
  exact Nat.le_add_left _ _

end Linked

theorem WellFormed.clone (h : f.WellFormed) (hx : x ∈ f) : (f.clone x).2.WellFormed := by
  have hf := h.linked
  refine (hf.clone hx).wellFormed fun {y p} hp => ?_
  rcases (hf.mem_clone hx).1 hp.mem with hy | ⟨s, hs, rfl⟩
  · rw [hf.children_clone_of_mem hx ((hf.mem_of_up_clone hx hp).1 hy), ← h.up_iff, Up,
      ← hf.parent?_clone_of_mem hx hy]
    exact hp
  · obtain ⟨q, hq, hsq, rfl⟩ := hf.up_copyOf hx hs hp
    rw [hf.children_copyOf hx hq]
    exact List.mem_map_of_mem hsq

end TreePath.Forest
