import TreePath.Json.Basic

namespace TreePath

variable {α β : Type} [BEq α] [LawfulBEq α] {k : α} {v : β} {entries done : List (α × β)}

theorem setEntry_of_notMem (h : k ∉ entries.map Prod.fst) :
    setEntry k v entries = entries ++ [(k, v)] := by
  induction entries with
  | nil => rfl
  | cons e entries ih =>
    rw [List.map_cons, List.mem_cons, not_or] at h
    have hne : (e.1 == k) = false := beq_false_of_ne (Ne.symm h.1)
    rw [setEntry, hne, if_neg Bool.false_ne_true, ih h.2]
    rfl

theorem foldl_setEntry (h : ((done ++ entries).map Prod.fst).Nodup) :
    entries.foldl (fun done e => setEntry e.1 e.2 done) done = done ++ entries := by
  induction entries generalizing done with
  | nil => exact (List.append_nil done).symm
  | cons e entries ih =>
    rw [List.append_cons] at h
    have hkeys := h
    rw [List.map_append, List.map_append, List.nodup_append, List.nodup_append] at hkeys
    obtain ⟨⟨_, _, hnew⟩, _⟩ := hkeys
    have hnotMem : e.1 ∉ done.map Prod.fst := by
      intro hmem
      exact hnew e.1 hmem e.1 List.mem_cons_self rfl
    rw [List.foldl_cons, setEntry_of_notMem hnotMem, ih h, List.append_assoc]
    rfl

theorem mergeEntries_of_nodup (h : (entries.map Prod.fst).Nodup) : mergeEntries entries = entries :=
  foldl_setEntry h

omit [LawfulBEq α] in
theorem mem_keys_setEntry {a : α} (h : a ∈ (setEntry k v entries).map Prod.fst) :
    a = k ∨ a ∈ entries.map Prod.fst := by
  induction entries with
  | nil =>
    rw [setEntry, List.map_singleton, List.mem_singleton] at h
    exact .inl h
  | cons e entries ih =>
    rw [setEntry] at h
    split at h
    · exact .inr h
    · rw [List.map_cons, List.mem_cons] at h ⊢
      rcases h with he | h
      · exact .inr (.inl he)
      · exact (ih h).imp_right .inr

theorem nodup_keys_setEntry (k : α) (v : β) (h : (entries.map Prod.fst).Nodup) :
    ((setEntry k v entries).map Prod.fst).Nodup := by
  induction entries with
  | nil => exact List.pairwise_singleton _ _
  | cons e entries ih =>
    obtain ⟨hnew, hrest⟩ := List.nodup_cons.1 h
    rw [setEntry]
    split
    · exact h
    · next hne =>
      refine List.nodup_cons.2 ⟨fun hmem => ?_, ih hrest⟩
      rcases mem_keys_setEntry hmem with he | hmem
      · exact hne (beq_iff_eq.2 he)
      · exact hnew hmem

omit [LawfulBEq α] in
theorem lookup_cons_eq_ite (e : α × β) (entries : List (α × β)) (a : α) :
    (e :: entries).lookup a = if a == e.1 then some e.2 else entries.lookup a := by
  rw [List.lookup_cons]
  cases a == e.1 <;> rfl

theorem lookup_cons_of_ne {e : α × β} {a : α} (h : a ≠ e.1) :
    (e :: entries).lookup a = entries.lookup a := by
  rw [lookup_cons_eq_ite, if_neg (by simpa using h)]

theorem lookup_concat_of_ne {e : α × β} {a : α} (h : a ≠ e.1) :
    (entries ++ [e]).lookup a = entries.lookup a := by
  rw [List.lookup_append, lookup_cons_of_ne h, List.lookup_nil, Option.or_none]

theorem lookup_map_values {γ : Type} (g : α → β → γ) (entries : List (α × β)) (a : α) :
    (entries.map fun e => (e.1, g e.1 e.2)).lookup a = (entries.lookup a).map (g a) := by
  induction entries with
  | nil => rfl
  | cons e entries ih =>
    rw [List.map_cons]
    by_cases heq : a = e.1
    · subst heq
      rw [List.lookup_cons_self, List.lookup_cons_self]
      rfl
    · rw [lookup_cons_of_ne heq, lookup_cons_of_ne (e := (e.1, g e.1 e.2)) heq, ih]

theorem lookup_map_keys {γ : Type} [BEq γ] [LawfulBEq γ] {g : α → γ} (hg : Function.Injective g)
    (entries : List (α × β)) (a : α) :
    (entries.map fun e => (g e.1, e.2)).lookup (g a) = entries.lookup a := by
  induction entries with
  | nil => rfl
  | cons e entries ih =>
    rw [List.map_cons]
    by_cases heq : a = e.1
    · subst heq
      rw [List.lookup_cons_self, List.lookup_cons_self]
    · have hne : g a ≠ g e.1 := fun h => heq (hg h)
      rw [lookup_cons_of_ne heq, lookup_cons_of_ne (e := (g e.1, e.2)) hne, ih]

theorem lookup_setEntry_self : (setEntry k v entries).lookup k = some v := by
  induction entries with
  | nil => exact List.lookup_cons_self
  | cons e entries ih =>
    rw [setEntry]
    split
    · next heq =>
      rw [beq_iff_eq.1 heq]
      exact List.lookup_cons_self
    · next hne =>
      rw [← ih]
      exact lookup_cons_of_ne fun heq => hne (beq_iff_eq.2 heq.symm)

theorem lookup_setEntry_of_ne {a : α} (h : a ≠ k) :
    (setEntry k v entries).lookup a = entries.lookup a := by
  induction entries with
  | nil => exact lookup_cons_of_ne h
  | cons e entries ih =>
    rw [setEntry]
    split
    · next heq =>
      have hne : a ≠ e.1 := beq_iff_eq.1 heq ▸ h
      rw [lookup_cons_of_ne (e := e) hne, lookup_cons_of_ne (e := (e.1, v)) hne]
    · rw [List.lookup_cons, List.lookup_cons, ih]

theorem lookup_eq_none_iff_notMem {a : α} :
    entries.lookup a = none ↔ a ∉ entries.map Prod.fst := by
  simp only [List.lookup_eq_none_iff, bne_iff_ne, List.mem_map, not_exists, not_and]
  exact ⟨fun h e he heq => h e he heq.symm, fun h e he heq => h e he heq.symm⟩

theorem lookup_eq_some_iff_mem (h : (entries.map Prod.fst).Nodup) {a : α} {w : β} :
    entries.lookup a = some w ↔ (a, w) ∈ entries := by
  induction entries with
  | nil => exact ⟨nofun, nofun⟩
  | cons e entries ih =>
    obtain ⟨b, u⟩ := e
    obtain ⟨hnew, hrest⟩ := List.nodup_cons.1 h
    rw [List.mem_cons, Prod.mk.injEq]
    by_cases heq : a = b
    · subst heq
      have hnotMem : (a, w) ∉ entries := fun hmem => hnew (List.mem_map.2 ⟨_, hmem, rfl⟩)
      rw [List.lookup_cons_self, Option.some.injEq]
      exact ⟨fun he => .inl ⟨rfl, he.symm⟩, fun he => (he.resolve_right hnotMem).2.symm⟩
    · rw [lookup_cons_of_ne heq, ih hrest]
      exact ⟨.inr, fun he => he.resolve_left fun hmem => heq hmem.1⟩

theorem lookup_eq_of_perm {others : List (α × β)} (hperm : entries.Perm others)
    (h : (entries.map Prod.fst).Nodup) (a : α) : entries.lookup a = others.lookup a := by
  have hothers : (others.map Prod.fst).Nodup := (hperm.map Prod.fst).nodup h
  ext w
  rw [lookup_eq_some_iff_mem h, lookup_eq_some_iff_mem hothers, hperm.mem_iff]

theorem nodup_keys_foldl_setEntry (entries : List (α × β)) (h : (done.map Prod.fst).Nodup) :
    ((entries.foldl (fun done e => setEntry e.1 e.2 done) done).map Prod.fst).Nodup := by
  induction entries generalizing done with
  | nil => exact h
  | cons e entries ih => exact ih (nodup_keys_setEntry e.1 e.2 h)

theorem nodup_keys_mergeEntries (entries : List (α × β)) :
    ((mergeEntries entries).map Prod.fst).Nodup :=
  nodup_keys_foldl_setEntry entries List.nodup_nil

theorem lookup_foldl_setEntry (h : (entries.map Prod.fst).Nodup) (done : List (α × β)) (a : α) :
    (entries.foldl (fun done e => setEntry e.1 e.2 done) done).lookup a =
      (entries.lookup a).or (done.lookup a) := by
  induction entries generalizing done with
  | nil => rfl
  | cons e entries ih =>
    obtain ⟨hnew, hrest⟩ := List.nodup_cons.1 h
    rw [List.foldl_cons, ih hrest]
    by_cases heq : a = e.1
    · subst heq
      rw [lookup_eq_none_iff_notMem.2 hnew, lookup_setEntry_self, List.lookup_cons_self]
      rfl
    · rw [lookup_setEntry_of_ne heq, lookup_cons_of_ne heq]

section Update

variable {others : List (α × β)} (h : (entries.map Prod.fst).Nodup)
  (hothers : (others.map Prod.fst).Nodup)

include h hothers

/-- Entries that come later give the values. -/
theorem lookup_mergeEntries_append (a : α) :
    (mergeEntries (entries ++ others)).lookup a = (others.lookup a).or (entries.lookup a) := by
  have hmerge := mergeEntries_of_nodup h
  rw [mergeEntries] at hmerge
  rw [mergeEntries, List.foldl_append, hmerge, lookup_foldl_setEntry hothers]

theorem mem_or_mem_of_mem_mergeEntries {e : α × β} (he : e ∈ mergeEntries (entries ++ others)) :
    e ∈ entries ∨ e ∈ others := by
  rw [← lookup_eq_some_iff_mem (nodup_keys_mergeEntries _),
    lookup_mergeEntries_append h hothers, Option.or_eq_some_iff] at he
  rcases he with he | ⟨-, he⟩
  · exact .inr ((lookup_eq_some_iff_mem hothers).1 he)
  · exact .inl ((lookup_eq_some_iff_mem h).1 he)

end Update

end TreePath
