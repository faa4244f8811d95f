import Mathlib.Data.List.Dedup
import Mathlib.Data.List.DropRight
import TreePath.Recency

namespace List

variable {α : Type} {l : List α} {a b : α}

theorem rtake_of_length_le {n : Nat} (h : l.length ≤ n) : l.rtake n = l := by
  rw [rtake, Nat.sub_eq_zero_of_le h, drop_zero]

theorem length_rtake_le (l : List α) (n : Nat) : (l.rtake n).length ≤ n := by
  rw [rtake, length_drop]
  omega

theorem rtake_suffix (l : List α) (n : Nat) : l.rtake n <:+ l :=
  drop_suffix _ l

variable [DecidableEq α]

theorem dedup_concat (l : List α) (a : α) : (l ++ [a]).dedup = l.dedup.erase a ++ [a] := by
  induction l with
  | nil => rfl
  | cons b l ih =>
    by_cases hb : b ∈ l
    · rw [cons_append, dedup_cons_of_mem (mem_append_left _ hb), dedup_cons_of_mem hb, ih]
    · rw [dedup_cons_of_notMem hb]
      by_cases hba : b = a
      · subst hba
        rw [erase_cons_head, cons_append, dedup_cons_of_mem (by simp), ih,
          erase_of_not_mem (by rwa [mem_dedup])]
      · have hlast : b ∉ l ++ [a] := by simp [hb, hba]
        rw [erase_cons_tail (by simpa using hba), cons_append, dedup_cons_of_notMem hlast, ih,
          cons_append]

theorem erase_concat_of_ne (h : b ≠ a) : (l ++ [b]).erase a = l.erase a ++ [b] := by
  rw [erase_append, erase_cons_tail (by simpa using h), erase_nil]
  split
  · rfl
  · next hnot => rw [erase_of_not_mem hnot]

/-- Of a list that was cut down to its end, a shorter end is that of the whole list, also where one
member is left out. -/
theorem rtake_erase_rtake (h : l.Nodup) (n : Nat) :
    ((l.rtake (n + 1)).erase a).rtake n = (l.erase a).rtake n := by
  induction l using reverseRecOn generalizing n with
  | nil => rw [rtake_nil]
  | append_singleton l b ih =>
    obtain ⟨hl, -, hdisjoint⟩ := nodup_append.1 h
    rw [rtake_concat_succ]
    by_cases hba : b = a
    · subst hba
      have hb : b ∉ l := fun hb => hdisjoint b hb b (mem_singleton_self b) rfl
      have hcut : b ∉ l.rtake n := fun hmem => hb ((rtake_suffix l n).subset hmem)
      rw [erase_append_right _ hcut, erase_append_right _ hb, erase_cons_head, append_nil,
        append_nil, rtake_of_length_le (length_rtake_le l n)]
    · rw [erase_concat_of_ne hba, erase_concat_of_ne hba]
      cases n with
      | zero => rw [rtake_zero, rtake_zero]
      | succ n => rw [rtake_concat_succ, rtake_concat_succ, ih hl]

end List

namespace TreePath.Recency

variable {α β : Type} {r : Recency α β} {k : α} {v : β} {e : α × β}

theorem mem_trim {tooLarge : Nat → Bool} (h : e ∈ (r.trim tooLarge).entries) : e ∈ r.entries := by
  have hgo (entries : List (α × β)) (he : e ∈ trim.go tooLarge entries) : e ∈ entries := by
    induction entries with
    | nil => exact he
    | cons d entries ih =>
      unfold trim.go at he
      split at he
      · exact List.mem_cons_of_mem d (ih he)
      · exact he
  exact hgo r.entries h

theorem entries_trim (r : Recency α β) (limit : Nat) :
    (r.trim fun n => decide (limit < n)).entries = r.entries.rtake limit := by
  have hgo (entries : List (α × β)) : trim.go (fun n => decide (limit < n)) entries =
      entries.drop (entries.length - limit) := by
    induction entries with
    | nil => rw [List.drop_nil, trim.go]
    | cons d entries ih =>
      rw [trim.go, List.length_cons]
      split
      · next hlarge =>
        have hcut : entries.length + 1 - limit = (entries.length - limit) + 1 := by
          have := of_decide_eq_true hlarge
          omega
        rw [ih, hcut, List.drop_succ_cons]
      · next hsmall =>
        have hcut : entries.length + 1 - limit = 0 := by
          have := of_decide_eq_false (eq_false_of_ne_true hsmall)
          omega
        rw [hcut, List.drop_zero]
  exact hgo r.entries

theorem keys_trim (r : Recency α β) (limit : Nat) :
    (r.trim fun n => decide (limit < n)).keys = r.keys.rtake limit := by
  rw [keys, entries_trim, List.rtake, List.map_drop, keys, List.rtake, List.length_map]

variable [BEq α]

theorem mem_use (h : e ∈ (r.use k v).entries) : e ∈ r.entries ∨ e = (k, v) := by
  rcases List.mem_append.1 h with h | h
  · exact .inl (List.mem_of_mem_eraseP h)
  · exact .inr (List.mem_singleton.1 h)

theorem keys_use (r : Recency α β) (k : α) (v : β) :
    (r.use k v).keys = r.keys.erase k ++ [k] := by
  have herase : (r.entries.eraseP (·.1 == k)).map (·.1) = (r.entries.map (·.1)).erase k := by
    rw [List.erase_eq_eraseP', List.eraseP_map]
    rfl
  rw [keys, use, List.map_append, herase, keys]
  rfl

variable [LawfulBEq α]

theorem mem_of_find? (h : r.find? k = some v) : (k, v) ∈ r.entries := by
  obtain ⟨before, after, he, _⟩ := List.lookup_eq_some_iff.1 h
  rw [he]
  exact List.mem_append_right before List.mem_cons_self

theorem find?_eq_none_iff : r.find? k = none ↔ k ∉ r.keys := by
  rw [find?, List.lookup_eq_none_iff, keys, List.mem_map]
  constructor
  · rintro hall ⟨e, he, rfl⟩
    have hne := hall e he
    rw [bne_self_eq_false] at hne
    cases hne
  · intro hno e he
    rw [bne_iff_ne]
    rintro rfl
    exact hno ⟨e, he, rfl⟩

end TreePath.Recency
