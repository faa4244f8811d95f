import Mathlib.Data.List.Induction
import Mathlib.Data.List.Perm.Subperm
import TreePath.Match

namespace List

variable {α β : Type} [BEq α] [LawfulBEq α] [BEq β] [LawfulBEq β] {xs xs' ys ys' : List α}

omit [BEq α] [LawfulBEq α] in
theorem flatMap_eq_filter {p : α → Bool} {g : α → List α} (h : ∀ x, g x = if p x then [x] else [])
    (xs : List α) : xs.flatMap g = xs.filter p := by
  induction xs with
  | nil => rfl
  | cons x xs ih =>
    rw [flatMap_cons, filter_cons, ih, h]
    split <;> rfl

theorem removeAll_eq_nil (h : ∀ y ∈ ys, y ∈ xs) : ys.removeAll xs = [] := by
  refine filter_eq_nil_iff.2 fun y hy => ?_
  rw [elem_eq_true_of_mem (h y hy)]
  exact Bool.false_ne_true

theorem eraseDups_append_of_subset (h : ∀ y ∈ ys, y ∈ xs) :
    (xs ++ ys).eraseDups = xs.eraseDups := by
  rw [eraseDups_append, removeAll_eq_nil h, eraseDups_nil, append_nil]

theorem eraseDups_append_singleton {a : α} (h : a ∉ xs) :
    (xs ++ [a]).eraseDups = xs.eraseDups ++ [a] := by
  have hleft : [a].removeAll xs = [a] := by
    rw [cons_removeAll, if_pos (by simpa using h), nil_removeAll]
  rw [eraseDups_append, hleft]
  rfl

theorem eraseDups_eq_singleton {a : α} (hne : xs ≠ []) (h : ∀ b ∈ xs, b = a) :
    xs.eraseDups = [a] := by
  obtain ⟨b, bs, rfl⟩ := exists_cons_of_ne_nil hne
  obtain rfl := h b mem_cons_self
  have hbs : ∀ c ∈ bs, c ∈ [b] := fun c hc => mem_singleton.2 (h c (mem_cons_of_mem b hc))
  exact eraseDups_append_of_subset hbs

theorem eraseDups_filter (p : α → Bool) : (xs.filter p).eraseDups = xs.eraseDups.filter p := by
  -- From the end, since the members before the last decide whether it is kept.
  induction xs using reverseRecOn with
  | nil => rfl
  | append_singleton xs a ih =>
    rw [filter_append]
    by_cases hp : p a
    · rw [filter_cons_of_pos hp, filter_nil]
      by_cases ha : a ∈ xs
      · have hseen : ∀ b ∈ [a], b ∈ xs.filter p := by simpa using ⟨ha, hp⟩
        rw [eraseDups_append_of_subset hseen, eraseDups_append_of_subset (by simpa using ha), ih]
      · rw [eraseDups_append_singleton ha, eraseDups_append_singleton (by simp [ha]), ih,
          filter_append, filter_cons_of_pos hp, filter_nil]
    · rw [filter_cons_of_neg hp, filter_nil, append_nil, ih]
      by_cases ha : a ∈ xs
      · rw [eraseDups_append_of_subset (by simpa using ha)]
      · rw [eraseDups_append_singleton ha, filter_append, filter_cons_of_neg hp, filter_nil,
          append_nil]

theorem nodup_eraseDups : xs.eraseDups.Nodup := by
  induction xs using reverseRecOn with
  | nil => exact nodup_nil
  | append_singleton xs a ih =>
    by_cases ha : a ∈ xs
    · rwa [eraseDups_append_of_subset (by simpa using ha)]
    · rw [eraseDups_append_singleton ha]
      refine nodup_append.2 ⟨ih, pairwise_singleton _ a, fun b hb c hc => ?_⟩
      rw [mem_singleton.1 hc]
      exact fun hba => ha (hba ▸ mem_eraseDups.1 hb)

theorem length_eraseDups_le : xs.eraseDups.length ≤ xs.length :=
  (nodup_eraseDups.subperm fun _ hx => mem_eraseDups.1 hx).length_le

theorem eraseDups_of_nodup (h : xs.Nodup) : xs.eraseDups = xs := by
  induction xs using reverseRecOn with
  | nil => rfl
  | append_singleton xs a ih =>
    obtain ⟨hxs, -, hdisjoint⟩ := nodup_append.1 h
    rw [eraseDups_append_singleton fun ha => hdisjoint a ha a (mem_singleton_self a) rfl, ih hxs]

@[simp] theorem eraseDups_eraseDups : xs.eraseDups.eraseDups = xs.eraseDups :=
  eraseDups_of_nodup nodup_eraseDups

theorem eraseDups_map_of_injOn {g : α → β} (h : ∀ a ∈ xs, ∀ b ∈ xs, g a = g b → a = b) :
    (xs.map g).eraseDups = xs.eraseDups.map g := by
  induction xs using reverseRecOn with
  | nil => rfl
  | append_singleton xs a ih =>
    have hxs : ∀ b ∈ xs, b ∈ xs ++ [a] := fun b hb => mem_append_left _ hb
    have hlast : a ∈ xs ++ [a] := mem_append_right _ (mem_singleton_self a)
    rw [map_append, map_singleton]
    by_cases ha : a ∈ xs
    · have hseen : g a ∈ xs.map g := mem_map_of_mem ha
      rw [eraseDups_append_of_subset (by simpa using hseen),
        eraseDups_append_of_subset (by simpa using ha)]
      exact ih fun b hb c hc => h b (hxs b hb) c (hxs c hc)
    · have hnew : g a ∉ xs.map g := by
        intro hseen
        obtain ⟨b, hb, he⟩ := mem_map.1 hseen
        exact ha (h b (hxs b hb) a hlast he ▸ hb)
      rw [eraseDups_append_singleton hnew, eraseDups_append_singleton ha, map_append,
        map_singleton, ih fun b hb c hc => h b (hxs b hb) c (hxs c hc)]

theorem eraseDups_append_congr (hx : xs.eraseDups = xs'.eraseDups)
    (hy : ys.eraseDups = ys'.eraseDups) : (xs ++ ys).eraseDups = (xs' ++ ys').eraseDups := by
  have hmem (y : α) : xs.elem y = xs'.elem y := by
    rw [Bool.eq_iff_iff, elem_iff, elem_iff, ← mem_eraseDups, hx, mem_eraseDups]
  rw [eraseDups_append, eraseDups_append, hx]
  unfold removeAll
  simp only [eraseDups_filter, hmem, hy]

omit [BEq α] [LawfulBEq α] in
theorem eraseDups_flatMap_congr (xs : List α) {g g' : α → List β}
    (h : ∀ x ∈ xs, (g x).eraseDups = (g' x).eraseDups) :
    (xs.flatMap g).eraseDups = (xs.flatMap g').eraseDups := by
  induction xs with
  | nil => rfl
  | cons x xs ih =>
    rw [flatMap_cons, flatMap_cons]
    exact eraseDups_append_congr (h x mem_cons_self) (ih fun y hy => h y (mem_cons_of_mem x hy))

theorem eraseDups_flatMap_eraseDups (xs : List α) (g : α → List β) :
    (xs.eraseDups.flatMap g).eraseDups = (xs.flatMap g).eraseDups := by
  induction xs using reverseRecOn with
  | nil => rfl
  | append_singleton xs a ih =>
    rw [flatMap_append, flatMap_singleton]
    by_cases ha : a ∈ xs
    · have hseen : ∀ y ∈ g a, y ∈ xs.flatMap g := fun y hy => mem_flatMap.2 ⟨a, ha, hy⟩
      rw [eraseDups_append_of_subset (by simpa using ha), ih, eraseDups_append_of_subset hseen]
    · rw [eraseDups_append_singleton ha, flatMap_append, flatMap_singleton]
      exact eraseDups_append_congr ih rfl

end List

namespace TreePath

namespace Gathered

/-- What has been gathered once some elements were reached in turn. -/
structure Holds (g : Gathered) (reached : List ElementId) : Prop where
  toList_eq : g.toList = reached.eraseDups
  mem_seen {x : ElementId} : x ∈ g.seen ↔ x ∈ reached
  count_eq : g.count = reached.length

theorem holds_empty : Holds {} [] where
  toList_eq := rfl
  mem_seen := by simp
  count_eq := rfl

variable {g : Gathered} {reached : List ElementId}

theorem Holds.add (h : g.Holds reached) (x : ElementId) : (g.add x).Holds (reached ++ [x]) := by
  obtain ⟨order, seen, count⟩ := g
  obtain ⟨hlist, hseen, hcount⟩ := h
  have hlength : count + 1 = (reached ++ [x]).length := by
    rw [List.length_append, ← hcount]
    rfl
  simp only [Gathered.add]
  by_cases hx : x ∈ reached
  · rw [if_pos (Std.HashSet.mem_iff_contains.1 (hseen.2 hx))]
    refine ⟨?_, fun {y} => ?_, hlength⟩
    · rwa [List.eraseDups_append_of_subset (by simpa using hx)]
    · rw [List.mem_append, List.mem_singleton]
      exact ⟨fun hy => .inl (hseen.1 hy), fun hy => hseen.2 (hy.elim id (· ▸ hx))⟩
  · rw [if_neg fun hc => hx (hseen.1 (Std.HashSet.mem_iff_contains.2 hc))]
    refine ⟨?_, fun {y} => ?_, hlength⟩
    · rw [List.eraseDups_append_singleton hx, ← hlist]
      exact Array.toList_push
    · rw [Std.HashSet.mem_insert, List.mem_append, List.mem_singleton, beq_iff_eq]
      exact ⟨fun hy => hy.elim (.inr ·.symm) (.inl <| hseen.1 ·),
        fun hy => hy.elim (.inr <| hseen.2 ·) (.inl ·.symm)⟩

theorem Holds.foldl_add (h : g.Holds reached) (xs : List ElementId) :
    (xs.foldl Gathered.add g).Holds (reached ++ xs) := by
  induction xs generalizing g reached with
  | nil => rwa [List.append_nil]
  | cons x xs ih =>
    rw [List.append_cons]
    exact ih (h.add x)

theorem holds_foldl_add (xs : List ElementId) : Holds (xs.foldl Gathered.add {}) xs :=
  holds_empty.foldl_add xs

end Gathered

end TreePath
