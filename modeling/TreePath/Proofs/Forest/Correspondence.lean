import Mathlib.Data.Set.Function
import TreePath.Proofs.Forest.Navigation

namespace TreePath.Forest

/-- The elements within `r` are a whole tree of a well-formed forest. -/
structure IsTree (f : Forest) (r : ElementId) : Prop where
  wellFormed : f.WellFormed
  mem : r ∈ f
  parent?_root : f.parent? r = none

/-- The elements within `r` are sent to those within `s`. -/
structure Corresponds (f g : Forest) (r s : ElementId) (φ : ElementId → ElementId) : Prop where
  bijOn : Set.BijOn φ {x | f.Within x r} {y | g.Within y s}
  children_eq : ∀ x, f.Within x r → g.children (φ x) = (f.children x).map φ
  tag_eq : ∀ x, f.Within x r → g.tag (φ x) = f.tag x
  attribute?_eq : ∀ x, f.Within x r → ∀ name, g.attribute? (φ x) name = f.attribute? x name

variable {f g : Forest} {c p r s x y : ElementId} {ws vs : List ElementId}
  {φ : ElementId → ElementId}

namespace IsTree

variable (h : f.IsTree r)

include h

theorem mem_of_within (hx : f.Within x r) : x ∈ f := by
  rcases hx.eq_or_below with rfl | hb
  · exact h.mem
  · exact hb.mem

theorem not_up_root : ¬ f.Up r p := by
  intro hp
  rw [Up, h.parent?_root] at hp
  cases hp

theorem parent_within (hx : f.Within x r) (hp : f.Up x p) : f.Within p r := by
  rcases hx.eq_or_below with rfl | hb
  · exact (h.not_up_root hp).elim
  · exact hb.parent_within hp

theorem child_within (hx : f.Within x r) (hc : c ∈ f.children x) : f.Within c r :=
  .head (h.wellFormed.up_iff.2 hc) hx

theorem root_eq (hx : f.Within x r) : f.root x = r :=
  ((h.wellFormed.within_iff_eq_root h.parent?_root).1 hx).symm

theorem within_iff : f.Within x r ↔ x ∈ f ∧ f.root x = r := by
  constructor
  · intro hx
    exact ⟨h.mem_of_within hx, h.root_eq hx⟩
  · rintro ⟨-, hr⟩
    exact (h.wellFormed.within_iff_eq_root h.parent?_root).2 hr.symm

theorem mem_preorder : x ∈ f.preorder r ↔ f.Within x r :=
  h.wellFormed.mem_preorder h.mem

theorem preorder_within (hx : f.Within x r) (hy : y ∈ f.preorder x) : f.Within y r :=
  ((h.wellFormed.mem_preorder (h.mem_of_within hx)).1 hy).trans hx

end IsTree

theorem WellFormed.isTree_root (h : f.WellFormed) (hx : x ∈ f) : f.IsTree (f.root x) :=
  ⟨h, h.root_mem hx, h.parent?_root x⟩

/-- A correspondence can be read off the walks from both roots. -/
theorem corresponds_of_preorder (hf : f.IsTree r) (hg : g.IsTree s)
    (hwalk : g.preorder s = (f.preorder r).map φ)
    (hchildren : ∀ x ∈ f.preorder r, g.children (φ x) = (f.children x).map φ)
    (htag : ∀ x ∈ f.preorder r, g.tag (φ x) = f.tag x)
    (hattribute : ∀ x ∈ f.preorder r, ∀ name, g.attribute? (φ x) name = f.attribute? x name) :
    f.Corresponds g r s φ := by
  have hmem (x : ElementId) : x ∈ f.preorder r ↔ f.Within x r := hf.wellFormed.mem_preorder hf.mem
  have himage (y : ElementId) : y ∈ g.preorder s ↔ g.Within y s := hg.wellFormed.mem_preorder hg.mem
  have hnodup : ((f.preorder r).map φ).Nodup := hwalk ▸ hg.wellFormed.nodup_preorder hg.mem
  simp only [hmem] at hchildren htag hattribute
  refine ⟨⟨?_, ?_, ?_⟩, hchildren, htag, hattribute⟩
  · intro x hx
    show g.Within (φ x) s
    rw [← himage, hwalk]
    exact List.mem_map_of_mem ((hmem x).2 hx)
  · intro x hx y hy he
    exact List.inj_on_of_nodup_map hnodup ((hmem x).2 hx) ((hmem y).2 hy) he
  · intro y hy
    have hy : y ∈ g.preorder s := (himage y).2 hy
    rw [hwalk] at hy
    obtain ⟨x, hx, rfl⟩ := List.mem_map.1 hy
    exact ⟨x, (hmem x).1 hx, rfl⟩

namespace Corresponds

variable (h : f.Corresponds g r s φ) (hf : f.IsTree r) (hg : g.IsTree s)

include h

theorem map_within (hx : f.Within x r) : g.Within (φ x) s :=
  h.bijOn.mapsTo hx

include hf hg

theorem map_up (hx : f.Within x r) (hp : f.Up x p) : g.Up (φ x) (φ p) := by
  rw [hg.wellFormed.up_iff, h.children_eq p (hf.parent_within hx hp)]
  exact List.mem_map_of_mem (hf.wellFormed.up_iff.1 hp)

theorem map_root : φ r = s := by
  obtain ⟨x, hx, he⟩ := h.bijOn.surjOn (show g.Within s s from .refl)
  rcases Relation.ReflTransGen.cases_head hx with rfl | ⟨p, hp, _⟩
  · exact he
  · have hup := h.map_up hf hg hx hp
    rw [he] at hup
    exact (hg.not_up_root hup).elim

theorem parent?_map (hx : f.Within x r) : g.parent? (φ x) = (f.parent? x).map φ := by
  cases hp : f.parent? x with
  | some p => exact h.map_up hf hg hx hp
  | none =>
    rcases Relation.ReflTransGen.cases_head hx with rfl | ⟨p, hup, _⟩
    · rw [h.map_root hf hg]
      exact hg.parent?_root
    · rw [Up, hp] at hup
      cases hup

theorem root_map (hx : f.Within x r) : g.root (φ x) = φ (f.root x) := by
  rw [hf.root_eq hx, h.map_root hf hg, hg.root_eq (h.map_within hx)]

theorem preorder_map (hx : f.Within x r) : g.preorder (φ x) = (f.preorder x).map φ := by
  have hwalk := hf.wellFormed.walks_preorder (hf.mem_of_within hx)
  have hchildren : ∀ w ∈ [x], ∀ y, f.Within y w → g.children (φ y) = (f.children y).map φ := by
    intro w hw y hy
    rw [List.mem_singleton.1 hw] at hy
    exact h.children_eq y (hy.trans hx)
  have himage := hwalk.map hf.wellFormed hchildren
  exact (hg.wellFormed.walks_preorder (hg.mem_of_within (h.map_within hx))).unique himage

end Corresponds

end TreePath.Forest
