import TreePath.Proofs.Forest.Edits

namespace TreePath.Forest

/-- The forests that edits of elements that are there lead to, misplacing ones included. -/
inductive Attained : Forest → Prop
  | empty : Attained {}
  | edit {f : Forest} {e : Edit} :
    Attained f → (∀ x ∈ e.elements, x ∈ f) → Attained (f.edit e)

variable {f g : Forest} {c p x y : ElementId} {e : Edit}

theorem toContent_modify {k : Element → Element} (hk : ∀ e, (k e).toContent = e.toContent)
    (f : Forest) (x y : ElementId) :
    ((f.modify x k).element y).toContent = (f.element y).toContent := by
  rw [element_modify]
  split
  · exact hk _
  · rfl

theorem toContent_detach (f : Forest) (c y : ElementId) :
    ((f.detach c).element y).toContent = (f.element y).toContent := by
  unfold detach
  split
  · rfl
  · rw [toContent_modify, toContent_modify]
    · exact fun _ => rfl
    · exact fun _ => rfl

theorem toContent_attach (f : Forest) (p c : ElementId) (i : Nat) (y : ElementId) :
    ((f.attach p c i).element y).toContent = (f.element y).toContent := by
  rw [attach, toContent_modify, toContent_modify, toContent_detach]
  · exact fun _ => rfl
  · exact fun _ => rfl

theorem toContent_misplace (f : Forest) (p c y : ElementId) :
    (((f.detach c).modify c fun e => { e with parent := some p }).element y).toContent =
      (f.element y).toContent := by
  rw [toContent_modify, toContent_detach]
  exact fun _ => rfl

theorem toContent_modifyContent (f : Forest) (x y : ElementId) (k : Content → Content) :
    ((f.modifyContent x k).element y).toContent =
      if y = x ∧ y ∈ f then k (f.element y).toContent else (f.element y).toContent := by
  rw [modifyContent, element_modify]
  split <;> rfl

namespace Linked

variable (h : f.Linked)

include h

theorem toContent_clone (hx : x ∈ f) (hy : y ∈ (f.clone x).2) :
    ∃ s ∈ f, ((f.clone x).2.element y).toContent = (f.element s).toContent := by
  rcases (h.mem_clone hx).1 hy with hyf | ⟨s, hs, rfl⟩
  · exact ⟨y, hyf, by rw [h.element_clone_of_mem hx hyf]⟩
  · refine ⟨s, h.mem_of_mem_preorder hx hs, ?_⟩
    rw [h.element_copyOf hx hs, copyElement]

theorem isProper_change (hproper : ∀ y ∈ f, (f.element y).toContent.IsProper)
    (he : ∀ x ∈ e.elements, x ∈ f) (hg : f.Change e g) (hy : y ∈ g) :
    (g.element y).toContent.IsProper := by
  have hnew {k : Content} (hk : k.IsProper) (hy : y ∈ (f.create k).2) :
      ((f.create k).2.element y).toContent.IsProper := by
    rw [element_create]
    split
    · exact hk
    · next hne => exact hproper y ((mem_create.1 hy).resolve_right hne)
  cases hg with
  | keep => exact hproper y hy
  | create hk => exact hnew hk hy
  | createChild _ hk =>
    rw [createChild_eq] at hy ⊢
    rw [toContent_attach]
    exact hnew hk (mem_attach.1 hy)
  | attach _ _ _ _ =>
    rw [toContent_attach]
    exact hproper y (mem_attach.1 hy)
  | misplace _ _ _ =>
    rw [toContent_misplace]
    exact hproper y (mem_detach.1 (mem_modify.1 hy))
  | detach _ =>
    rw [toContent_detach]
    exact hproper y (mem_detach.1 hy)
  | clone hx =>
    obtain ⟨s, hs, heq⟩ := h.toContent_clone (he _ hx) hy
    rw [heq]
    exact hproper s hs
  | write hx hk =>
    rw [toContent_modifyContent]
    split
    · next hyx =>
      obtain ⟨rfl, hyf⟩ := hyx
      exact hk (hproper y hyf)
    · exact hproper y (mem_modify.1 hy)

end Linked

theorem Attained.linked (h : f.Attained) : f.Linked := by
  induction h with
  | empty => exact wellFormed_empty.linked
  | @edit f e _ he ih => exact ih.change he (f.change_edit e)

theorem Attained.isProper (h : f.Attained) (hx : x ∈ f) : (f.element x).toContent.IsProper := by
  induction h generalizing x with
  | empty => exact (Nat.not_lt_zero _ hx).elim
  | @edit f e hf he ih => exact hf.linked.isProper_change (fun y => ih) he (f.change_edit e) hx

theorem Reachable.attained (h : f.Reachable) : f.Attained := by
  induction h with
  | empty => exact .empty
  | edit _ he _ ih => exact ih.edit he

end TreePath.Forest
