import Mathlib.Data.List.InsertIdx
import Mathlib.Data.List.Nodup

namespace List

variable {α β : Type} {xs ys zs : List α} {g h : α → List β}

theorem length_flatMap_le (hle : ∀ x ∈ xs, (g x).length ≤ (h x).length) :
    (xs.flatMap g).length ≤ (xs.flatMap h).length := by
  induction xs with
  | nil => exact Nat.le_refl _
  | cons x xs ih =>
    rw [flatMap_cons, flatMap_cons, length_append, length_append]
    exact Nat.add_le_add (hle x mem_cons_self) (ih fun y hy => hle y (mem_cons_of_mem x hy))

/-- Parts that are no longer than others make the same list only if all of them are the same. -/
theorem flatMap_eq_iff_of_length_le (hle : ∀ x ∈ xs, (g x).length ≤ (h x).length) :
    xs.flatMap g = xs.flatMap h ↔ ∀ x ∈ xs, g x = h x := by
  refine ⟨fun he => ?_, flatMap_congr⟩
  induction xs with
  | nil => nofun
  | cons x xs ih =>
    obtain ⟨hx, hxs⟩ := forall_mem_cons.1 hle
    have hrest := length_flatMap_le hxs
    have hlength := congrArg length he
    rw [flatMap_cons, flatMap_cons] at he hlength
    rw [length_append, length_append] at hlength
    obtain ⟨hhead, htail⟩ := append_inj he (by omega)
    exact forall_mem_cons.2 ⟨hhead, ih hxs htail⟩

theorem filter_notMem_append_append [DecidableEq α] (h : (xs ++ (ys ++ zs)).Nodup) :
    (xs ++ (ys ++ zs)).filter (· ∉ ys) = xs ++ zs := by
  obtain ⟨-, hrest, hleft⟩ := nodup_append.1 h
  obtain ⟨-, -, hright⟩ := nodup_append.1 hrest
  have hxs : xs.filter (· ∉ ys) = xs := by
    refine filter_eq_self.2 fun x hx => decide_eq_true fun hy => ?_
    exact hleft x hx x (mem_append_left zs hy) rfl
  have hys : ys.filter (· ∉ ys) = [] := by
    refine filter_eq_nil_iff.2 fun y hy => ?_
    rw [decide_eq_true_iff, not_not]
    exact hy
  have hzs : zs.filter (· ∉ ys) = zs := by
    refine filter_eq_self.2 fun z hz => decide_eq_true fun hy => ?_
    exact hright z hy z hz rfl
  rw [filter_append, filter_append, hxs, hys, hzs, nil_append]

theorem erase_insertIdx [DecidableEq α] {x : α} (h : x ∉ xs) (i : Nat) :
    (xs.insertIdx i x).erase x = xs := by
  induction xs generalizing i with
  | nil => cases i <;> simp
  | cons y ys ih =>
    rw [mem_cons, not_or] at h
    cases i with
    | zero => exact erase_cons_head x (y :: ys)
    | succ i =>
      have hne : y ≠ x := Ne.symm h.1
      rw [insertIdx_succ_cons, erase_cons_tail (by simpa using hne), ih h.2]

theorem insertIdx_erase [DecidableEq α] {x : α} {i : Nat} (h : xs.Nodup) (hi : xs[i]? = some x) :
    (xs.erase x).insertIdx i x = xs := by
  obtain ⟨hlt, rfl⟩ := getElem?_eq_some_iff.1 hi
  rw [h.erase_getElem i hlt, insertIdx_eraseIdx_getElem hlt]

end List
