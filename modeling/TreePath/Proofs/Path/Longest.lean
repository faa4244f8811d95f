import TreePath.Proofs.Path.Grammar

namespace TreePath.Step

/-- The spellings of the steps, each the longest at the head of the text that is left, where `rest`
follows the last of them. -/
inductive Longest (rest : List Char) : List Step → List (List Char) → Prop
  | nil : Longest rest [] []
  | cons {s : Step} {sp : List Char} {steps : List Step} {parts : List (List Char)} :
    Spelling s sp →
    (∀ t u, Spelling t u → u <+: sp ++ (parts.flatten ++ rest) → u.length ≤ sp.length) →
    Longest rest steps parts → Longest rest (s :: steps) (sp :: parts)

variable {s t : Step} {sp u cs rest : List Char} {steps : List Step} {parts : List (List Char)}

theorem StopsAt.of_prefix {w : List Char} (h : s.StopsAt rest) (hw : w <+: rest) : s.StopsAt w := by
  intro c hc
  obtain ⟨ds, rfl⟩ := List.head?_eq_some_iff.1 hc
  obtain ⟨es, rfl⟩ := hw
  exact h c rfl

namespace Spelling

theorem ne_nil (h : Spelling s sp) : sp ≠ [] := by
  rintro rfl
  cases h.read?_eq

theorem unique (hs : Spelling s sp) (ht : Spelling t sp) : s = t := by
  have hread := hs.read?_eq
  rw [ht.read?_eq] at hread
  cases hread
  rfl

/-- If nothing carries a spelling on, no longer text at the same place spells a step. -/
theorem length_le_of_stopsAt (h : Spelling s sp) (hrest : s.StopsAt rest) (ht : Spelling t u)
    (hu : u <+: sp ++ rest) : u.length ≤ sp.length := by
  by_contra hlt
  have hle : sp.length ≤ u.length := by omega
  obtain ⟨w, rfl⟩ := List.prefix_of_prefix_length_le (List.prefix_append sp rest) hu hle
  rw [List.prefix_append_right_inj] at hu
  -- The longer text is read as the short spelling with something left, and as a whole.
  have hread := h.read?_append (hrest.of_prefix hu)
  rw [ht.read?_eq] at hread
  cases hread
  rw [List.append_nil] at hlt
  exact hlt (Nat.le_refl _)

theorem read?_of_longest (h : Spelling s sp)
    (hlongest : ∀ t u, Spelling t u → u <+: sp ++ rest → u.length ≤ sp.length) :
    read? (sp ++ rest) = some (s, rest) := by
  obtain ⟨t, left, hread⟩ := h.exists_read? rest
  obtain ⟨u, ht, he, hleft⟩ := read?_spelling hread
  have hle := hlongest t u ht (he ▸ List.prefix_append u left)
  have hge := ht.length_le_of_stopsAt hleft h (he ▸ List.prefix_append sp rest)
  obtain ⟨rfl, rfl⟩ := List.append_inj he (Nat.le_antisymm hge hle)
  rw [hread, h.unique ht]

end Spelling

namespace Longest

theorem of_prefix {w : List Char} (h : Longest rest steps parts) (hw : w <+: rest) :
    Longest w steps parts := by
  induction h with
  | nil => exact .nil
  | @cons s sp steps parts hsp hlongest _ ih =>
    refine .cons hsp (fun t u ht hu => hlongest t u ht ?_) ih
    have hparts := (List.prefix_append_right_inj parts.flatten).2 hw
    exact hu.trans ((List.prefix_append_right_inj sp).2 hparts)

theorem scan_eq (h : Longest rest steps parts) (hrest : read? rest = none) :
    scan (parts.flatten ++ rest) = (steps, rest) := by
  induction h with
  | nil => exact scan_of_none hrest
  | cons hsp hlongest _ ih =>
    rw [List.flatten_cons, List.append_assoc, scan_of_some (hsp.read?_of_longest hlongest), ih]

end Longest

theorem longest_scan (cs : List Char) :
    ∃ parts, Longest (scan cs).2 (scan cs).1 parts ∧ parts.flatten ++ (scan cs).2 = cs := by
  induction cs using scan_induction with
  | stop cs h =>
    rw [scan_of_none h]
    exact ⟨[], .nil, rfl⟩
  | go cs s rest h ih =>
    obtain ⟨sp, hsp, rfl, hstops⟩ := read?_spelling h
    obtain ⟨parts, hparts, hflat⟩ := ih
    rw [scan_of_some h]
    refine ⟨sp :: parts, .cons hsp (fun t u ht hu => ?_) hparts, ?_⟩
    · rw [hflat] at hu
      exact hsp.length_le_of_stopsAt hstops ht hu
    · rw [List.flatten_cons, List.append_assoc, hflat]

theorem read?_scan_snd (cs : List Char) : read? (scan cs).2 = none := by
  induction cs using scan_induction with
  | stop cs h => rwa [scan_of_none h]
  | go cs s rest h ih => rwa [scan_of_some h]

theorem not_spelling_of_read?_none (h : read? cs = none) (hu : u <+: cs) : ¬ Spelling s u := by
  intro hs
  obtain ⟨v, rfl⟩ := hu
  obtain ⟨t, left, hread⟩ := hs.exists_read? v
  cases h.symm.trans hread

/-- A text is read as steps by its division into spellings each of which is the longest where it
stands. A text that cannot be read is divided so up to the offset of the fault, where no spelling
begins. -/
theorem ofText_longest (text : String) :
    (∀ s sp, Spelling s sp → sp ≠ [] ∧ ∀ t, Spelling t sp → s = t) ∧
    (∀ steps, ofText text = .ok steps ↔
      ∃ parts, Longest [] steps parts ∧ parts.flatten = text.toList) ∧
    ∀ e, ofText text = .error e →
      (∃ steps parts, ofText (String.ofList (text.toList.take e.position)) = .ok steps ∧
        Longest (text.toList.drop e.position) steps parts ∧ Longest [] steps parts ∧
        parts.flatten = text.toList.take e.position) ∧
      ∀ s sp, sp <+: text.toList.drop e.position → ¬ Spelling s sp := by
  refine ⟨fun s sp h => ⟨h.ne_nil, fun t => h.unique⟩, fun steps => ?_, fun e he => ?_⟩
  · rw [ofText_eq_ok_iff]
    constructor
    · intro hscan
      obtain ⟨parts, hparts, hflat⟩ := longest_scan text.toList
      rw [hscan] at hparts hflat
      exact ⟨parts, hparts, by rwa [List.append_nil] at hflat⟩
    · rintro ⟨parts, hparts, hflat⟩
      have hscan := hparts.scan_eq rfl
      rwa [List.append_nil, hflat] at hscan
  · obtain ⟨_, rfl⟩ := ofText_eq_error he
    obtain ⟨parts, hparts, hflat⟩ := longest_scan text.toList
    have hnone := read?_scan_snd text.toList
    obtain ⟨htake, hdrop⟩ := split_at_position hflat
    rw [htake, hdrop]
    have hprefix := hparts.of_prefix List.nil_prefix
    have hscan := hprefix.scan_eq rfl
    rw [List.append_nil] at hscan
    refine ⟨⟨_, parts, ?_, hparts, hprefix, rfl⟩, fun s sp hsp => ?_⟩
    · rw [ofText_eq_ok_iff, String.toList_ofList, hscan]
    · exact not_spelling_of_read?_none hnone hsp

end TreePath.Step
