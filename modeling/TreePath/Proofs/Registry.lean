import TreePath.Registry

namespace TreePath.Registry

variable {α : Type} [Inhabited α] {r : Registry α} {P : α → Prop} {a : α}

theorem get_of_le {s : Slot α} (h : r.size ≤ s.index) : r.get s = default := by
  rw [get, Array.getElem?_eq_none h, Option.getD_none]

theorem get_add_of_ne {s : Slot α} (h : s ≠ (r.add a).1) : (r.add a).2.get s = r.get s := by
  rcases Nat.lt_trichotomy s.index r.size with hlt | heq | hgt
  · exact get_add_of_lt a hlt
  · cases s
    exact absurd (congrArg Slot.mk heq) h
  · rw [get_of_le (Nat.le_of_lt hgt), get_of_le (by rwa [size_add])]

theorem get_set (r : Registry α) (s t : Slot α) (a : α) :
    (r.set s a).get t = if t = s ∧ s.index < r.size then a else r.get t := by
  by_cases h : s.index < r.size
  · by_cases he : t = s
    · subst he
      rw [if_pos ⟨rfl, h⟩, get_set_self a h]
    · rw [if_neg fun hts => he hts.1, get_set_ne a (Ne.symm he)]
  · rw [if_neg fun hts => h hts.2, set, Array.setIfInBounds_eq_of_size_le (Nat.le_of_not_lt h)]

omit [Inhabited α] in
@[simp] theorem size_modify (r : Registry α) (s : Slot α) (g : α → α) :
    (r.modify s g).size = r.size := by
  rw [size, modify, Array.size_modify, size]

theorem get_modify (r : Registry α) (s t : Slot α) (g : α → α) :
    (r.modify s g).get t = if t = s ∧ s.index < r.size then g (r.get t) else r.get t := by
  rw [get, modify, get, Array.getElem?_modify]
  by_cases he : t = s
  · subst he
    by_cases h : t.index < r.size
    · rw [if_pos rfl, if_pos ⟨rfl, h⟩, Array.getElem?_eq_getElem h]
      rfl
    · rw [if_pos rfl, if_neg fun hts => h hts.2, Array.getElem?_eq_none (Nat.le_of_not_lt h)]
      rfl
  · have hindex : s.index ≠ t.index := fun hst => he (congrArg Slot.mk hst.symm)
    rw [if_neg hindex, if_neg fun hts => he hts.1]

theorem get_modify_self {s : Slot α} (g : α → α) (h : s.index < r.size) :
    (r.modify s g).get s = g (r.get s) := by
  rw [get_modify, if_pos ⟨rfl, h⟩]

theorem get_modify_ne {s t : Slot α} (g : α → α) (h : t ≠ s) : (r.modify s g).get t = r.get t := by
  rw [get_modify, if_neg fun hts => h hts.1]

theorem apply_get_modify {β : Type} {k : α → β} {g : α → α} (h : ∀ a, k (g a) = k a)
    (s t : Slot α) : k ((r.modify s g).get t) = k (r.get t) := by
  rw [get_modify]
  split
  · exact h _
  · rfl

/-- Objects may be added, and those that are there stay what they are. -/
structure Extends (r r' : Registry α) : Prop where
  size_le : r.size ≤ r'.size
  get_eq : ∀ s : Slot α, s.index < r.size → r'.get s = r.get s

namespace Extends

theorem refl (r : Registry α) : r.Extends r where
  size_le := Nat.le_refl _
  get_eq _ _ := rfl

theorem add (r : Registry α) (a : α) : r.Extends (r.add a).2 where
  size_le := by
    rw [size_add]
    exact Nat.le_succ _
  get_eq _ hs := get_add_of_lt a hs

theorem trans {r' r'' : Registry α} (h : r.Extends r') (h' : r'.Extends r'') : r.Extends r'' where
  size_le := Nat.le_trans h.size_le h'.size_le
  get_eq s hs := (h'.get_eq s (Nat.lt_of_lt_of_le hs h.size_le)).trans (h.get_eq s hs)

theorem modify {r' : Registry α} {s : Slot α} (h : r.Extends r') (hs : r.size ≤ s.index)
    (g : α → α) : r.Extends (r'.modify s g) where
  size_le := by
    rw [size_modify]
    exact h.size_le
  get_eq t ht := by
    have hne : t ≠ s := fun hts => Nat.not_lt_of_le hs (hts ▸ ht)
    rw [get_modify_ne g hne, h.get_eq t ht]

end Extends

omit [Inhabited α] in
theorem index_add_lt (r : Registry α) (a : α) : (r.add a).1.index < (r.add a).2.size := by
  rw [size_add]
  exact Nat.lt_succ_self _

omit [Inhabited α] in
theorem eq_add_of_index_eq {s : Slot α} (h : s.index = r.size) (a : α) : s = (r.add a).1 := by
  cases s
  exact congrArg Slot.mk h

omit [Inhabited α] in
theorem size_le_addAll (r : Registry α) (as : List α) : r.size ≤ (r.addAll as).2.size := by
  induction as generalizing r with
  | nil => exact Nat.le_refl _
  | cons a as ih =>
    refine Nat.le_trans ?_ (ih (r.add a).2)
    rw [size_add]
    exact Nat.le_succ _

omit [Inhabited α] in
theorem index_addAll_lt {s : Slot α} {as : List α} (hs : s ∈ (r.addAll as).1) :
    s.index < (r.addAll as).2.size := by
  induction as generalizing r with
  | nil => cases hs
  | cons a as ih =>
    rcases List.mem_cons.1 hs with rfl | hs
    · exact Nat.lt_of_lt_of_le (r.index_add_lt a) (size_le_addAll (r.add a).2 as)
    · exact ih hs

section AddOr

variable {old : Slot α}

theorem extends_addOr (r : Registry α) (old : Slot α) (a : Option α) :
    r.Extends (r.addOr old a).2 := by
  cases a with
  | none => exact .refl r
  | some a => exact .add r a

omit [Inhabited α] in
theorem index_addOr_lt (hold : old.index < r.size) (a : Option α) :
    (r.addOr old a).1.index < (r.addOr old a).2.size := by
  cases a with
  | none => exact hold
  | some a => exact r.index_add_lt a

theorem get_addOr (r : Registry α) (old : Slot α) (a : Option α) :
    (r.addOr old a).2.get (r.addOr old a).1 = a.getD (r.get old) := by
  cases a with
  | none => rfl
  | some a => exact get_add r a

end AddOr

def Each (P : α → Prop) (r : Registry α) : Prop :=
  ∀ s : Slot α, s.index < r.size → P (r.get s)

theorem Each.add (h : Each P r) (ha : P a) : Each P (r.add a).2 := by
  intro s hs
  rw [size_add] at hs
  rcases Nat.lt_succ_iff_lt_or_eq.1 hs with hlt | heq
  · rw [get_add_of_lt a hlt]
    exact h s hlt
  · rwa [eq_add_of_index_eq heq a, get_add]

/-- Every object has the property, and so has the one that is shown outside the registry. -/
def All (P : α → Prop) (r : Registry α) : Prop :=
  ∀ s, P (r.get s)

namespace All

theorem empty (h : P default) : All P {} := by
  intro s
  rwa [get_of_le (Nat.zero_le _)]

theorem add (h : All P r) (ha : P a) : All P (r.add a).2 := by
  intro s
  by_cases hs : s = (r.add a).1
  · rwa [hs, get_add]
  · rw [get_add_of_ne hs]
    exact h s

theorem set (h : All P r) (ha : P a) (s : Slot α) : All P (r.set s a) := by
  intro t
  rw [get_set]
  split
  · exact ha
  · exact h t

theorem modify {g : α → α} (h : All P r) (hg : ∀ a, P a → P (g a)) (s : Slot α) :
    All P (r.modify s g) := by
  intro t
  rw [get_modify]
  split
  · exact hg _ (h t)
  · exact h t

end All

end TreePath.Registry
