import TreePath.Forest.Element
import TreePath.Proofs.Except
import TreePath.Proofs.Json.Entries

namespace TreePath

namespace Attributes

variable {as : Attributes} {entries : List (Json × Json)}

def toValues (as : Attributes) : List (Json × Json) :=
  as.map fun (name, value) => (.str name, .str value)

theorem ofValues_toValues (h : (as.map Prod.fst).Nodup) : ofValues as.toValues = .ok as := by
  let named : List (String × Json) := as.map fun e => (e.1, .str e.2)
  have hkeys : (named.map Prod.fst).Nodup := by
    rw [List.map_map]
    exact h
  rw [ofValues, toValues, List.mapM_map_eq_ok (v := fun e : String × String => (e.1, Json.str e.2))]
  · show (mergeEntries named).mapM _ = _
    rw [mergeEntries_of_nodup hkeys, List.mapM_map_eq_ok (v := id), List.map_id]
    exact fun _ => rfl
  · exact fun _ => rfl

theorem nodup_of_ofValues (h : ofValues entries = .ok as) : (as.map Prod.fst).Nodup := by
  obtain ⟨named, _, h⟩ := Except.exists_of_bind_eq_ok h
  have hkeys : as.map Prod.fst = (mergeEntries named).map Prod.fst := by
    apply List.map_eq_of_mapM_eq_ok _ h
    rintro ⟨name, value⟩ e he
    simp only at he
    split at he
    · cases he
      rfl
    · cases he
  rw [hkeys]
  exact nodup_keys_mergeEntries named

end Attributes

namespace Content

/-- The tag is not empty, and no attribute is there twice. -/
structure IsProper (c : Content) : Prop where
  tag_ne : c.tag ≠ ""
  nodup_names : (c.attributes.map Prod.fst).Nodup

variable {c d : Content} {tag name value text tail : Json} {entries : List (Json × Json)}

theorem isProper_of_ofValues (h : ofValues tag entries text tail = .ok c) : c.IsProper := by
  unfold ofValues at h
  dsimp only at h
  split at h
  · cases h
  · split at h
    · split at h
      · cases h
      · next hempty =>
        obtain ⟨as, has, h⟩ := Except.exists_of_bind_eq_ok h
        cases h
        exact ⟨fun he => hempty (String.isEmpty_iff.2 he), Attributes.nodup_of_ofValues has⟩
    · cases h

theorem IsProper.ofValues_toValues (h : c.IsProper) :
    ofValues (.str c.tag) c.attributes.toValues c.text c.tail = .ok c := by
  have hplain : (c.attributes.toValues.any fun e => e.1.isCompound) = false := by
    rw [Attributes.toValues, List.any_map, List.any_eq_false]
    rintro e - ⟨⟩
  have htag : c.tag.isEmpty = false := by
    rw [← Bool.not_eq_true, String.isEmpty_iff]
    exact h.tag_ne
  unfold ofValues
  rw [hplain]
  show (if c.tag.isEmpty = true then _ else _) = _
  rw [htag]
  show (Attributes.ofValues c.attributes.toValues >>= _) = _
  rw [Attributes.ofValues_toValues h.nodup_names]
  rfl

theorem IsProper.setAttribute (h : c.IsProper) (name value : String) :
    (c.setAttribute name value).IsProper :=
  ⟨h.tag_ne, nodup_keys_setEntry name value h.nodup_names⟩

theorem IsProper.setValue (h : c.IsProper) (hd : c.setValue name value = .ok d) : d.IsProper := by
  unfold Content.setValue at hd
  split at hd
  · cases hd
    exact h.setAttribute _ _
  · cases hd

theorem IsProper.removeAttribute (h : c.IsProper) (name : String) :
    (c.removeAttribute name).IsProper := by
  refine ⟨h.tag_ne, ?_⟩
  have hsub := (List.eraseP_sublist (p := fun e => e.1 == name) (l := c.attributes)).map Prod.fst
  exact h.nodup_names.sublist hsub

theorem IsProper.removeValue {found : Bool} (h : c.IsProper)
    (hd : c.removeValue name = .ok (found, d)) : d.IsProper := by
  unfold Content.removeValue at hd
  split at hd
  · cases hd
    exact h
  · obtain ⟨_, _, hd⟩ := Except.exists_of_bind_eq_ok hd
    cases hd
    cases name.str? with
    | none => exact h
    | some name => exact h.removeAttribute name

end Content

end TreePath
