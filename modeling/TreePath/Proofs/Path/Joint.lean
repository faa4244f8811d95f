import TreePath.Proofs.Path.Grammar

namespace TreePath

namespace Step

variable {s : Step} {cs ds : List Char}

theorem StopsAt.append_of_ne_nil (h : s.StopsAt cs) (hne : cs ≠ []) : s.StopsAt (cs ++ ds) := by
  cases cs with
  | nil => exact (hne rfl).elim
  | cons c cs => exact h

theorem scan_append (hleft : (scan cs).2 = [])
    (hlast : ∀ s ∈ (scan cs).1.getLast?, s.StopsAt ds) :
    scan (cs ++ ds) = ((scan cs).1 ++ (scan ds).1, (scan ds).2) := by
  induction cs using scan_induction with
  | stop cs h =>
    rw [scan_of_none h] at hleft ⊢
    rw [show cs = [] from hleft]
    rfl
  | go cs s rest h ih =>
    obtain ⟨sp, hsp, rfl, hrest⟩ := read?_spelling h
    rw [scan_of_some h, List.getLast?_cons] at hlast
    rw [scan_of_some h] at hleft ⊢
    -- The next spelling stops this one, and if there is none, what follows the joint does.
    have hstop : s.StopsAt (rest ++ ds) := by
      by_cases hne : rest = []
      · subst hne
        exact hlast s (by rw [scan_of_none rfl]; rfl)
      · exact hrest.append_of_ne_nil hne
    have hread : read? (sp ++ rest ++ ds) = some (s, rest ++ ds) := by
      rw [List.append_assoc]
      exact hsp.read?_append hstop
    have hlater : ∀ t ∈ (scan rest).1.getLast?, t.StopsAt ds := fun t ht =>
      hlast t (by rw [Option.mem_def.1 ht]; rfl)
    rw [scan_of_some hread, ih hleft hlater]
    rfl

theorem stopsAt_slash (hs : s.kind ≠ .child) : s.StopsAt ('/' :: cs) := by
  rintro c ⟨⟩ hc
  unfold Extends at hc
  split at hc
  · exact absurd hc (by decide)
  · exact absurd hc (by decide)
  · next hkind => exact hs hkind
  · exact hc

theorem child_stopsAt (h : ∀ c ∈ cs.head?, c ≠ '/' ∧ c ≠ '.') : child.StopsAt cs :=
  fun c hc hext => hext.elim (h c hc).1 (h c hc).2

theorem scan_slash (h : ∀ c ∈ cs.head?, c ≠ '/' ∧ c ≠ '.') :
    scan ('/' :: cs) = (child :: (scan cs).1, (scan cs).2) :=
  scan_of_some (Spelling.slash.read?_append (child_stopsAt h))

theorem stopsAt_bracket (s : Step) : s.StopsAt ('[' :: cs) := by
  rintro c ⟨⟩ hc
  rw [Extends] at hc
  split at hc
  · exact absurd hc (by decide)
  · exact absurd hc (by decide)
  · exact absurd hc (by decide)
  · exact hc

theorem ofText_append_bracketed {e bracketed : String} {tokens : List Step} {sp : List Char}
    (h : ofText e = .ok tokens) (hsp : Spelling s ('[' :: sp))
    (htext : bracketed.toList = '[' :: sp) : ofText (e ++ bracketed) = .ok (tokens ++ [s]) := by
  rw [ofText_eq_ok_iff] at h ⊢
  have hscan : scan ('[' :: sp) = ([s], []) := by
    rw [scan_of_some hsp.read?_eq, scan_of_none rfl]
  rw [String.toList_append, htext, scan_append (by rw [h]) fun t _ => stopsAt_bracket t, h, hscan]

theorem ofText_of_isValid {t : String} (h : Name.isValid t = true) : ofText t = .ok [tag t] := by
  have hread := (Spelling.tag (Name.isName_of_isValid h)).read?_eq
  rw [String.ofList_toList] at hread
  rw [ofText_eq_ok_iff, scan_of_some hread, scan_of_none rfl]

variable {e₁ e₂ : String} {tokens₁ tokens₂ : List Step}

theorem ofText_join (h₁ : ofText e₁ = .ok tokens₁) (h₂ : ofText e₂ = .ok tokens₂)
    (hlast : ∀ s ∈ tokens₁.getLast?, s.kind ≠ .child)
    (hhead : ∀ c ∈ e₂.toList.head?, c ≠ '/' ∧ c ≠ '.') :
    ofText (e₁ ++ "/" ++ e₂) = .ok (tokens₁ ++ child :: tokens₂) := by
  rw [ofText_eq_ok_iff] at h₁ h₂ ⊢
  have hjoin : (e₁ ++ "/" ++ e₂).toList = e₁.toList ++ '/' :: e₂.toList := by
    rw [String.toList_append, String.toList_append, List.append_assoc]
    rfl
  have hstop : ∀ s ∈ (scan e₁.toList).1.getLast?, s.StopsAt ('/' :: e₂.toList) := by
    rw [h₁]
    exact fun s hs => stopsAt_slash (hlast s hs)
  rw [hjoin, scan_append (by rw [h₁]) hstop, scan_slash hhead, h₁, h₂]

/-- A slash and two dots behind a path text are read as one step. -/
theorem ofText_append_parent (h : ofText e₁ = .ok tokens₁)
    (hlast : ∀ s ∈ tokens₁.getLast?, s.kind ≠ .child) :
    ofText (e₁ ++ "/..") = .ok (tokens₁ ++ [parent]) := by
  rw [ofText_eq_ok_iff] at h ⊢
  have hstop : ∀ s ∈ (scan e₁.toList).1.getLast?, s.StopsAt ['/', '.', '.'] := by
    rw [h]
    exact fun s hs => stopsAt_slash (hlast s hs)
  have hup : scan ['/', '.', '.'] = ([parent], []) := by
    rw [scan_of_some Spelling.slashDots.read?_eq, scan_of_none rfl]
  have hjoin : (e₁ ++ "/..").toList = e₁.toList ++ ['/', '.', '.'] := String.toList_append
  rw [hjoin, scan_append (by rw [h]) hstop, h, hup]

end Step

theorem Name.head?_ne_of_isValid {t : String} (h : Name.isValid t = true) :
    ∀ c ∈ t.toList.head?, c ≠ '/' ∧ c ≠ '.' := by
  obtain ⟨d, cs, hcs, hd⟩ := (Name.isName_of_isValid h).exists_cons
  rw [hcs]
  rintro c ⟨⟩
  constructor
  · rintro rfl
    exact absurd hd (by decide)
  · rintro rfl
    exact absurd hd (by decide)

theorem Seed.ofText_append {e : String} (hne : e ≠ "") (e' : String) :
    Seed.ofText (e ++ e') = Seed.ofText e := by
  unfold Seed.ofText
  rw [String.toList_append]
  cases h : e.toList with
  | nil => exact (hne (String.toList_eq_nil_iff.1 h)).elim
  | cons c cs =>
    by_cases hslash : c = '/'
    · subst hslash
      rfl
    by_cases hdot : c = '.'
    · subst hdot
      rfl
    simp [hslash, hdot]

theorem Seed.ofText_append_bracketed {e bracketed : String} {sp : List Char}
    (htext : bracketed.toList = '[' :: sp) : Seed.ofText (e ++ bracketed) = Seed.ofText e := by
  by_cases hne : e = ""
  · subst hne
    rw [String.empty_append, Seed.ofText, htext]
    rfl
  · exact Seed.ofText_append hne bracketed

theorem Seed.ofText_of_head {e : String} (h : ∀ c ∈ e.toList.head?, c ≠ '/' ∧ c ≠ '.') :
    Seed.ofText e = .children := by
  unfold Seed.ofText
  split
  · next he => exact ((h '/' (by rw [he]; rfl)).1 rfl).elim
  · next he => exact ((h '.' (by rw [he]; rfl)).2 rfl).elim
  · rfl

end TreePath
