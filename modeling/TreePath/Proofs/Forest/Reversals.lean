import TreePath.Proofs.Forest.Blocks

namespace TreePath.Forest

variable {f g : Forest} {c p : ElementId} {i : Nat} {position : Json}

theorem eq_of_links_eq (hsize : g.size = f.size)
    (hcontent : ∀ x, (g.element x).toContent = (f.element x).toContent)
    (hparent : ∀ x, g.parent? x = f.parent? x) (hchildren : ∀ x, g.children x = f.children x) :
    g = f := by
  have helement (x : ElementId) : g.element x = f.element x := by
    show Element.mk (g.element x).toContent (g.parent? x) (g.children x) = _
    rw [hcontent, hparent, hchildren]
    rfl
  cases g with
  | mk as =>
    cases f with
    | mk bs =>
      refine congrArg Forest.mk (Array.ext hsize fun j ha hb => ?_)
      have hj := helement ⟨j⟩
      rw [element, element, get?, get?] at hj
      rwa [Array.getElem?_eq_getElem ha, Array.getElem?_eq_getElem hb] at hj

theorem attach_detach (f : Forest) (p c : ElementId) (i : Nat) :
    (f.detach c).attach p c i = f.attach p c i := by
  have hroot : (f.detach c).parent? c = none := by rw [parent?_detach, if_pos rfl]
  rw [attach, detach_of_root hroot, attach]

theorem addChildAt_index (hi : (i : Int) ≤ f.room p c)
    (hcycle : ¬ (c = p ∨ f.isAncestorOf c p = true)) :
    f.addChildAt p (some c) (.int i) = (none, f.attach p c i) := by
  have hin : ¬ OutOfRange (some (i : Int)) (f.room p c) := by
    rw [outOfRange_some, not_not]
    exact ⟨Int.natCast_nonneg i, hi⟩
  have hplace : NamesPlace (.int i) (some (i : Int)) := .index rfl
  rw [addChildAt_of_free hplace hin hcycle, Option.map_some, Option.getD_some, Int.toNat_natCast]

namespace Linked

variable (h : f.Linked)

include h

theorem not_within_of_mem_children (hc : c ∈ f.children p) : ¬ f.Within p c := by
  intro hpc
  exact h.acyclic c (.head' (h.up_of_mem hc) hpc)

theorem addChildAt_index_of_not_within (hi : (i : Int) ≤ f.room p c) (hpc : ¬ f.Within p c) :
    f.addChildAt p (some c) (.int i) = (none, f.attach p c i) := by
  refine addChildAt_index hi ?_
  rintro (rfl | hb)
  · exact hpc .refl
  · exact hpc (h.isAncestorOf_iff.1 hb).to_reflTransGen

theorem attach_index (hi : (f.children p)[i]? = some c) : f.attach p c i = f := by
  have hc := List.mem_of_getElem? hi
  have hup := h.up_of_mem hc
  have hp := mem_of_mem_children hc
  refine eq_of_links_eq (size_attach f p c i) (toContent_attach f p c i) (fun x => ?_) fun x => ?_
  · rw [parent?_attach hup.mem]
    split
    · next hx => rw [hx, hup]
    · rfl
  · rw [children_attach hp, h.children_detach_eq_erase, h.children_detach_eq_erase]
    split
    · next hx => rw [hx, List.insertIdx_erase (h.nodup_children p) hi]
    · next hx =>
      refine List.erase_of_not_mem fun hcx => hx ?_
      exact (h.up_of_mem hcx).unique hup

theorem detach_attach (hp : p ∈ f) (hc : c ∈ f) (hroot : f.parent? c = none)
    (hpc : ¬ f.Within p c) (hi : i ≤ ((f.detach c).children p).length) :
    (f.attach p c i).detach c = f := by
  have hnot (x : ElementId) : c ∉ f.children x := by
    intro hcx
    exact nomatch hroot.symm.trans (h.up_of_mem hcx)
  refine eq_of_links_eq ?_ (fun x => ?_) (fun x => ?_) fun x => ?_
  · rw [size_detach, size_attach]
  · rw [toContent_detach, toContent_attach]
  · rw [parent?_detach, parent?_attach hc]
    split
    · next hx => rw [hx, hroot]
    · rfl
  · rw [(h.attach hp hc hpc hi).children_detach_eq_erase, children_attach hp, detach_of_root hroot]
    split
    · next hx => rw [hx, List.erase_insertIdx (hnot p)]
    · exact List.erase_of_not_mem (hnot x)

theorem le_room_of_index (hi : (f.children p)[i]? = some c) :
    (i : Int) ≤ f.room p c ∧ (i : Int) ≤ (f.detach c).room p c := by
  have hc := List.mem_of_getElem? hi
  have hup : f.parent? c = some p := h.up_of_mem hc
  have hroot : (f.detach c).parent? c = none := by rw [parent?_detach, if_pos rfl]
  have hlength := List.length_erase_of_mem hc
  obtain ⟨hlt, -⟩ := List.getElem?_eq_some_iff.1 hi
  rw [room, room, h.children_detach_eq_erase, hlength, if_pos hup, hroot,
    if_neg (Option.some_ne_none p).symm]
  omega

end Linked

/-- A child is detached and attached again where it was, or attached there at once, and an element
without a parent is attached and detached again: the forest is what it was. What is no child of an
element is not removed from it. -/
theorem Attained.detach_attach_inverse (h : f.Attained) (p c : ElementId) :
    (∀ i : Nat, (f.children p)[i]? = some c →
      (∃ g, f.removeChild? p (some c) = some g ∧ g.parent? c = none ∧ c ∉ g.children p ∧
        g.addChildAt p (some c) (.int i) = (none, f)) ∧
      f.addChildAt p (some c) (.int i) = (none, f)) ∧
    (p ∈ f → c ∈ f → f.parent? c = none → ∀ position,
      (f.addChildAt p (some c) position).1 = none →
        (f.addChildAt p (some c) position).2.removeChild? p (some c) = some f) ∧
    (f.parent? c ≠ some p → f.removeChild? p (some c) = none ∧
      f.edit (.removeChild p (some c)) = f) := by
  have hf := h.linked
  refine ⟨fun i hi => ?_, fun hp hc hroot position hok => ?_, fun hup => ?_⟩
  · have hc := List.mem_of_getElem? hi
    have hpc := hf.not_within_of_mem_children hc
    have hpc' : ¬ (f.detach c).Within p c := by
      intro hw
      exact hpc (Relation.ReflTransGen.mono (up_detach_le f c) _ _ hw)
    obtain ⟨hroom, hroom'⟩ := hf.le_room_of_index hi
    refine ⟨⟨f.detach c, if_pos (hf.up_of_mem hc), ?_, ?_, ?_⟩, ?_⟩
    · rw [parent?_detach, if_pos rfl]
    · rw [hf.children_detach_eq_erase]
      exact (hf.nodup_children p).not_mem_erase
    · rw [(hf.detach c).addChildAt_index_of_not_within hroom' hpc', attach_detach,
        hf.attach_index hi]
    · rw [hf.addChildAt_index_of_not_within hroom hpc, hf.attach_index hi]
  · obtain ⟨i, hi, hcycle, hg⟩ := addChildAt_eq_none hok
    have hup : (f.attach p c i).parent? c = some p := up_attach hc
    rw [hg, removeChild?, if_pos hup,
      hf.detach_attach hp hc hroot (hf.not_within_checked hcycle) hi]
  · have hno : f.removeChild? p (some c) = none := if_neg hup
    refine ⟨hno, ?_⟩
    show (f.removeChild? p (some c)).getD f = f
    rw [hno]
    rfl

/-- The first of two children is taken out and put back, and a root is attached in front of the only
child and detached again. -/
theorem Attained.detach_attach_inverse_row :
    let f := grove.edit (.addChild ⟨0⟩ (some ⟨2⟩) .null)
    f.Attained ∧ f.children ⟨0⟩ = [⟨1⟩, ⟨2⟩] ∧
      (∃ g, f.removeChild? ⟨0⟩ (some ⟨1⟩) = some g ∧ g.children ⟨0⟩ = [⟨2⟩] ∧
        g.addChildAt ⟨0⟩ (some ⟨1⟩) (.int 0) = (none, f)) ∧
      grove.Attained ∧ grove.parent? ⟨2⟩ = none ∧
      (grove.addChildAt ⟨0⟩ (some ⟨2⟩) (.int 0)).2.children ⟨0⟩ = [⟨2⟩, ⟨1⟩] ∧
      (grove.addChildAt ⟨0⟩ (some ⟨2⟩) (.int 0)).2.removeChild? ⟨0⟩ (some ⟨2⟩) = some grove := by
  intro f
  have hf : f.Attained := reachable_grove.attained.edit (by decide)
  have hchildren : f.children ⟨0⟩ = [⟨1⟩, ⟨2⟩] := by decide
  obtain ⟨⟨g, hg, -, -, hback⟩, -⟩ :=
    (hf.detach_attach_inverse ⟨0⟩ ⟨1⟩).1 0 (congrArg (·[0]?) hchildren)
  have hleft : g.children ⟨0⟩ = [⟨2⟩] := by
    rw [← Option.some.inj hg]
    decide
  have hroot : grove.parent? ⟨2⟩ = none := by decide
  have hok : (grove.addChildAt ⟨0⟩ (some ⟨2⟩) (.int 0)).1 = none := by decide
  have hundone := (reachable_grove.attained.detach_attach_inverse ⟨0⟩ ⟨2⟩).2.1 (by decide)
    (by decide) hroot (.int 0) hok
  exact ⟨hf, hchildren, ⟨g, hg, hleft, hback⟩, reachable_grove.attained, hroot, by decide, hundone⟩

end TreePath.Forest
