import TreePath.Proofs.Forest.Attained
import TreePath.Proofs.Forest.Navigation

namespace TreePath.Forest

/-- The forests that edits of elements of a kind lead to. -/
inductive Leads (f : Forest) (P : ElementId → Prop) : Forest → Prop
  | refl : Leads f P f
  | edit {g : Forest} {e : Edit} :
    Leads f P g → (∀ x ∈ e.elements, x ∈ g ∧ P x) → Leads f P (g.edit e)

/-- No other element names one of these as its parent. -/
structure Sealed (f : Forest) (S : ElementId → Prop) : Prop where
  mem : ∀ {x}, S x → x ∈ f
  child : ∀ {c p}, f.Up c p → S p → S c

/-- What is within `y` in `g` is a copy of what is within `x` in `f`. -/
structure IsCopy (f g : Forest) (x y : ElementId) (φ : ElementId → ElementId) : Prop where
  injOn : ∀ s ∈ f.preorder x, ∀ t ∈ f.preorder x, φ s = φ t → s = t
  start_eq : φ x = y
  preorder_eq : g.preorder y = (f.preorder x).map φ
  parent?_eq_none : g.parent? y = none
  content_eq : ∀ s ∈ f.preorder x, (g.element (φ s)).toContent = (f.element s).toContent
  children_eq : ∀ s ∈ f.preorder x, g.children (φ s) = (f.children s).map φ
  parent?_eq : ∀ s ∈ f.preorder x, s ≠ x →
    ∃ q ∈ f.preorder x, f.parent? s = some q ∧ g.parent? (φ s) = some (φ q)

variable {f g : Forest} {c p s x y z : ElementId} {i : Nat} {e : Edit} {S : ElementId → Prop}

theorem element_detach_of_ne (hxc : x ≠ c) (hup : ¬ f.Up c x) :
    (f.detach c).element x = f.element x := by
  unfold detach
  split
  · rfl
  · next p hp =>
    have hxp : x ≠ p := by
      rintro rfl
      exact hup hp
    rw [element_modify_of_ne hxc, element_modify_of_ne hxp]

theorem element_attach_of_ne (hxp : x ≠ p) (hxc : x ≠ c) (hup : ¬ f.Up c x) :
    (f.attach p c i).element x = f.element x := by
  rw [attach, element_modify_of_ne hxc, element_modify_of_ne hxp, element_detach_of_ne hxc hup]

theorem Linked.element_change (h : f.Linked) (he : ∀ x ∈ e.elements, x ∈ f) (hg : f.Change e g)
    (hx : x ∈ f) (hxe : x ∉ e.elements) (hup : ∀ c ∈ e.elements, ¬ f.Up c x) :
    g.element x = f.element x := by
  have hne {y : ElementId} (hy : y ∈ e.elements) : x ≠ y := by
    rintro rfl
    exact hxe hy
  have hnew (k : Content) : x ≠ (f.create k).1 := by
    rintro rfl
    exact create_notMem f k hx
  cases hg with
  | keep => rfl
  | @create k _ => rw [element_create, if_neg (hnew k)]
  | @createChild p k hp _ =>
    have hroot : ¬ (f.create k).2.Up (f.create k).1 x := by
      rw [Up, parent?_create_new]
      intro hno
      cases hno
    rw [createChild_eq, element_attach_of_ne (hne hp) (hnew k) hroot, element_create,
      if_neg (hnew k)]
  | attach hp hc _ _ => exact element_attach_of_ne (hne hp) (hne hc) (hup _ hc)
  | misplace hedit _ _ =>
    subst hedit
    have hxc := hne (List.mem_cons_of_mem _ List.mem_cons_self)
    rw [element_modify_of_ne hxc, element_detach_of_ne hxc]
    exact hup _ (List.mem_cons_of_mem _ List.mem_cons_self)
  | detach hc => exact element_detach_of_ne (hne hc) (hup _ hc)
  | clone hy => exact h.element_clone_of_mem (he _ hy) hx
  | write hy _ => exact element_modify_of_ne (hne hy) _

/-- The links that a change makes lead to elements that it is about or to new ones. -/
theorem Linked.up_change (h : f.Linked) (he : ∀ x ∈ e.elements, x ∈ f) (hg : f.Change e g)
    (hup : g.Up c p) : f.Up c p ∨ p ∈ e.elements ∨ p ∉ f := by
  have hmoved {q d : ElementId} (hq : q ∈ e.elements)
      (hparent : ∀ x, g.parent? x = if x = d then some q else f.parent? x) :
      f.Up c p ∨ p ∈ e.elements ∨ p ∉ f := by
    rw [Up, hparent] at hup
    split at hup
    · cases hup
      exact .inr (.inl hq)
    · exact .inl hup
  cases hg with
  | keep => exact .inl hup
  | create _ =>
    rw [Up, (element_create_links f _ c).1] at hup
    exact .inl hup
  | @createChild q k hq _ =>
    apply hmoved hq (d := (f.create k).1)
    intro x
    rw [createChild_eq, parent?_attach (mem_create.2 (.inr rfl)), (element_create_links f k x).1]
  | attach hq hd _ _ => exact hmoved hq (parent?_attach (he _ hd))
  | misplace hedit _ _ =>
    subst hedit
    exact hmoved List.mem_cons_self
      (parent?_misplace (he _ (List.mem_cons_of_mem _ List.mem_cons_self)))
  | detach _ => exact .inl (up_detach_le f _ c p hup)
  | @clone x hx =>
    by_cases hp : p ∈ f
    · have hc := (h.mem_of_up_clone (he x hx) hup).2 hp
      rw [Up, h.parent?_clone_of_mem (he x hx) hc] at hup
      exact .inl hup
    · exact .inr (.inr hp)
  | write _ _ =>
    rw [Up, (modifyContent_links f _ c _).1] at hup
    exact .inl hup

theorem Linked.mem_change (h : f.Linked) (he : ∀ x ∈ e.elements, x ∈ f) (hg : f.Change e g)
    (hx : x ∈ f) : x ∈ g := by
  cases hg with
  | keep => exact hx
  | create _ => exact mem_create.2 (.inl hx)
  | createChild _ _ => exact mem_attach.2 (mem_create.2 (.inl hx))
  | attach _ _ _ _ => exact mem_attach.2 hx
  | misplace _ _ _ => exact mem_modify.2 (mem_detach.2 hx)
  | detach _ => exact mem_detach.2 hx
  | clone hy => exact h.mem_clone_of_mem (he _ hy) hx
  | write _ _ => exact mem_modify.2 hx

namespace Sealed

variable (hs : f.Sealed S)

include hs

theorem element_change (h : f.Linked) (he : ∀ x ∈ e.elements, x ∈ f ∧ ¬ S x)
    (hg : f.Change e g) (hx : S x) : g.element x = f.element x := by
  apply h.element_change (fun x hx => (he x hx).1) hg (hs.mem hx)
  · exact fun hxe => (he x hxe).2 hx
  · exact fun c hc hup => (he c hc).2 (hs.child hup hx)

theorem change (h : f.Linked) (he : ∀ x ∈ e.elements, x ∈ f ∧ ¬ S x) (hg : f.Change e g) :
    g.Sealed S := by
  refine ⟨fun hx => h.mem_change (fun x hx => (he x hx).1) hg (hs.mem hx), fun {c p} hup hp => ?_⟩
  rcases h.up_change (fun x hx => (he x hx).1) hg hup with hup | hpe | hpf
  · exact hs.child hup hp
  · exact ((he p hpe).2 hp).elim
  · exact (hpf (hs.mem hp)).elim

/-- Edits of other elements leave the elements as they are, however many there are. -/
theorem element_leads (h : f.Linked) (hg : f.Leads (¬ S ·) g) (hx : S x) :
    g.element x = f.element x := by
  suffices hrun : g.Linked ∧ g.Sealed S ∧ ∀ x, S x → g.element x = f.element x from hrun.2.2 x hx
  induction hg with
  | refl => exact ⟨h, hs, fun _ _ => rfl⟩
  | @edit g e _ he ih =>
    obtain ⟨hlinked, hsealed, hsame⟩ := ih
    have hchange := g.change_edit e
    refine ⟨hlinked.change (fun x hx => (he x hx).1) hchange,
      hsealed.change hlinked he hchange, fun x hx => ?_⟩
    rw [hsealed.element_change hlinked he hchange hx, hsame x hx]

end Sealed

namespace Linked

variable (h : f.Linked)

include h

theorem isCopy_clone (hx : x ∈ f) :
    f.IsCopy (f.clone x).2 x (f.clone x).1 (f.copyOf x) where
  injOn s hs t _ := h.copyOf_inj hx hs
  start_eq := (clone_fst f x).symm
  preorder_eq := by rw [clone_fst f x, h.preorder_clone hx]
  parent?_eq_none := by
    rw [clone_fst f x, h.parent?_copyOf hx (h.mem_preorder_self hx), if_pos rfl]
  content_eq s hs := by rw [h.element_copyOf hx hs, copyElement]
  children_eq s hs := h.children_copyOf hx hs
  parent?_eq s hs hsx := by
    obtain ⟨q, hq, hsq⟩ := h.exists_mem_children hx hs hsx
    have hparent : f.parent? s = some q := h.up_of_mem hsq
    refine ⟨q, hq, hparent, ?_⟩
    rw [h.parent?_copyOf hx hs, if_neg hsx, hparent, Option.map_some]

theorem clone_fst_mem (hx : x ∈ f) : (f.clone x).1 ∈ (f.clone x).2 := by
  rw [h.mem_clone hx, clone_fst f x]
  exact .inr ⟨x, h.mem_preorder_self hx, rfl⟩

theorem mem_preorder_clone (hx : x ∈ f) :
    z ∈ (f.clone x).2.preorder (f.clone x).1 ↔ z ∈ (f.clone x).2 ∧ z ∉ f := by
  rw [(h.isCopy_clone hx).preorder_eq, List.mem_map, h.mem_clone hx]
  constructor
  · rintro ⟨s, hs, rfl⟩
    exact ⟨.inr ⟨s, hs, rfl⟩, copyOf_notMem f x s⟩
  · rintro ⟨hz, hzf⟩
    obtain ⟨s, hs, rfl⟩ := hz.resolve_left hzf
    exact ⟨s, hs, rfl⟩

theorem sealed_clone_old (hx : x ∈ f) : (f.clone x).2.Sealed (· ∈ f) where
  mem := h.mem_clone_of_mem hx
  child hup := (h.mem_of_up_clone hx hup).2

theorem sealed_clone_new (hx : x ∈ f) :
    (f.clone x).2.Sealed (· ∈ (f.clone x).2.preorder (f.clone x).1) where
  mem hz := ((h.mem_preorder_clone hx).1 hz).1
  child {c p} hup hp := by
    have hpf := ((h.mem_preorder_clone hx).1 hp).2
    exact (h.mem_preorder_clone hx).2 ⟨hup.mem, mt (h.mem_of_up_clone hx hup).1 hpf⟩

end Linked

/-- Copying an element never fails, and both walks end. What is copied comes out the same, in the
same order, with links among the copies only, all of which are new. Nothing else changes, and from
then on no edits of other elements reach the copy or, from the copy, what was there before it. -/
theorem Attained.clone_isolated (h : f.Attained) (hx : x ∈ f) :
    let y := (f.clone x).1
    let g := (f.clone x).2
    (∀ s ∈ f.preorder x, Content.ofValues (.str (f.tag s)) (f.element s).attributes.toValues
      (f.element s).text (f.element s).tail = .ok (f.element s).toContent) ∧
    (Cursor.start x).Visits f (f.preorder x) ∧
    (Cursor.start y).Visits g (g.preorder y) ∧
    (∃ φ, f.IsCopy g x y φ) ∧
    (∀ z ∈ g.preorder y, z ∈ g ∧ z ∉ f) ∧
    (∀ z ∈ f, z ∈ g ∧ g.element z = f.element z) ∧
    (∀ g', g.Leads (· ∉ f) g' → ∀ z ∈ f, g'.element z = f.element z) ∧
    (∀ g', g.Leads (· ∉ g.preorder y) g' → ∀ z ∈ g.preorder y, g'.element z = g.element z) := by
  intro y g
  have hf := h.linked
  have hg : g.Linked := hf.clone hx
  have hold {z : ElementId} (hz : z ∈ f) : g.element z = f.element z :=
    hf.element_clone_of_mem hx hz
  refine ⟨fun s hs => ?_, (hf.walks_preorder hx).visits rfl, ?_, ⟨_, hf.isCopy_clone hx⟩,
    fun z => (hf.mem_preorder_clone hx).1, fun z hz => ⟨hf.mem_clone_of_mem hx hz, hold hz⟩,
    fun g' hg' z hz => ?_, fun g' hg' z hz => (hf.sealed_clone_new hx).element_leads hg hg' hz⟩
  · exact (h.isProper (hf.mem_of_mem_preorder hx hs)).ofValues_toValues
  · exact (hg.walks_preorder (hf.clone_fst_mem hx)).visits rfl
  · rw [(hf.sealed_clone_old hx).element_leads hg hg' hz, hold hz]

theorem Attained.clone_isolated_grove :
    let y := (grove.clone ⟨0⟩).1
    let g := (grove.clone ⟨0⟩).2
    grove.Attained ∧ (g.preorder y).length = 2 ∧ g.tag y = "a" ∧
      (g.edit (.setText y (.str "copied"))).element ⟨0⟩ = grove.element ⟨0⟩ ∧
      (g.edit (.addChild ⟨2⟩ (some ⟨0⟩) .null)).children y = g.children y := by
  intro y g
  have h : grove.Attained := reachable_grove.attained
  have ha : ⟨0⟩ ∈ grove := by decide
  have hpreorder : grove.preorder ⟨0⟩ = [⟨0⟩, ⟨1⟩] := by decide
  obtain ⟨_, _, _, ⟨φ, hcopy⟩, hnew, hold, hkeepsOld, hkeepsNew⟩ := h.clone_isolated ha
  have hstart : ⟨0⟩ ∈ grove.preorder ⟨0⟩ := by
    rw [hpreorder]
    exact List.mem_cons_self
  have hy : y ∈ g.preorder y := by
    rw [hcopy.preorder_eq]
    exact List.mem_map.2 ⟨⟨0⟩, hstart, hcopy.start_eq⟩
  have hlater {z : ElementId} (hz : z ∈ grove) : z ∈ g ∧ z ∉ g.preorder y :=
    ⟨(hold z hz).1, fun hzy => (hnew z hzy).2 hz⟩
  refine ⟨h, ?_, ?_, ?_, ?_⟩
  · rw [hcopy.preorder_eq, List.length_map, hpreorder]
    rfl
  · have hcontent := hcopy.content_eq ⟨0⟩ hstart
    rw [hcopy.start_eq] at hcontent
    rw [tag, hcontent]
    decide
  · apply hkeepsOld _ (.edit .refl ?_) ⟨0⟩ ha
    intro z hz
    rw [List.mem_singleton.1 hz]
    exact hnew y hy
  · rw [children, hkeepsNew _ (.edit .refl ?_) y hy, children]
    intro z hz
    rcases List.mem_cons.1 hz with rfl | hz
    · exact hlater (by decide)
    · rw [List.mem_singleton.1 hz]
      exact hlater ha

end TreePath.Forest
