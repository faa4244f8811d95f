import TreePath.Proofs.Path.Joint

namespace TreePath

variable {u v : List Char}

theorem Name.IsName.append (h : IsName u) (hv : ∀ c ∈ v, Name.isPart c = true) :
    IsName (u ++ v) := by
  obtain ⟨c, cs, rfl, hc⟩ := h.exists_cons
  refine ⟨hc, fun d hd => ?_⟩
  rcases List.mem_append.1 hd with hd | hd
  · exact h.2 d hd
  · exact hv d hd

theorem IsPathText.concat (hu : IsPathText u) (hv : IsPathText v) : IsPathText (u ++ v) := by
  obtain ⟨parts, hparts, rfl⟩ := hu
  obtain ⟨others, hothers, rfl⟩ := hv
  refine ⟨parts ++ others, fun p hp => ?_, List.flatten_append⟩
  rcases List.mem_append.1 hp with hp | hp
  · exact hparts p hp
  · exact hothers p hp

namespace Step

variable {s : Step} {sp cs ds : List Char} {c : Char}

theorem extends_iff : s.Extends c ↔
    s.kind = .tag ∧ Name.isPart c = true ∨ s.kind = .self ∧ c = '.' ∨
      s.kind = .child ∧ (c = '/' ∨ c = '.') := by
  unfold Extends
  split <;> simp_all

theorem exists_read?_name {n : List Char} (hn : Name.IsName n) (hc : Name.isPart c = true)
    (ds : List Char) :
    ∃ more left, read? (n ++ c :: ds) = some (tag (String.ofList (n ++ c :: more)), left) := by
  have hmore : ∀ d ∈ c :: ds.takeWhile Name.isPart, Name.isPart d = true :=
    List.forall_mem_cons.2 ⟨hc, fun d hd => List.mem_takeWhile_imp hd⟩
  have hstop : ∀ name, (tag name).StopsAt (ds.dropWhile Name.isPart) := by
    intro name d hd
    have hnot := List.head?_dropWhile_not Name.isPart ds
    rw [Option.mem_def.1 hd] at hnot
    exact ne_true_of_eq_false hnot
  have hread := (Spelling.tag (hn.append hmore)).read?_append (hstop _)
  refine ⟨_, _, Eq.trans ?_ hread⟩
  rw [List.append_assoc, List.cons_append, List.takeWhile_append_dropWhile]

theorem Spelling.exists_read?_ne (h : Spelling s sp) (hc : s.Extends c) (ds : List Char) :
    ∃ t left, read? (sp ++ c :: ds) = some (t, left) ∧ t ≠ s := by
  cases h with
  | slashDot =>
    obtain rfl : c = '.' := hc
    exact ⟨parent, ds, rfl, by decide⟩
  | dot =>
    obtain rfl : c = '.' := hc
    exact ⟨parent, ds, rfl, by decide⟩
  | slash =>
    rcases hc with rfl | rfl
    · exact ⟨descendantOrSelf, ds, rfl, by decide⟩
    · cases ds with
      | nil => exact ⟨self, [], rfl, by decide⟩
      | cons d ds =>
        by_cases hd : d = '.'
        · subst hd
          exact ⟨parent, ds, rfl, by decide⟩
        · have hstop : self.StopsAt (d :: ds) := by
            rintro _ ⟨⟩
            exact hd
          exact ⟨self, d :: ds, Spelling.slashDot.read?_append hstop, by decide⟩
  | tag hn =>
    obtain ⟨more, left, hread⟩ := exists_read?_name hn hc ds
    refine ⟨_, left, hread, fun he => ?_⟩
    simp [Step.tag] at he
  | _ => exact hc.elim

theorem scan_snd_of_fst_eq_nil (h : (scan cs).1 = []) : (scan cs).2 = cs := by
  cases hread : read? cs with
  | none => rw [scan_of_none hread]
  | some r =>
    rw [scan_of_some hread] at h
    cases h

/-- What is read across the joint are the steps of both sides only if the joint carries on no
spelling. -/
theorem stopsAt_of_scan_append (hleft : (scan cs).2 = [])
    (h : (scan (cs ++ ds)).1 = (scan cs).1 ++ (scan ds).1) :
    ∀ s ∈ (scan cs).1.getLast?, s.StopsAt ds := by
  induction cs using scan_induction with
  | stop cs hread =>
    rw [scan_of_none hread]
    nofun
  | go cs s rest hread ih =>
    obtain ⟨sp, hsp, rfl, hrest⟩ := read?_spelling hread
    rw [scan_of_some hread] at hleft h ⊢
    by_cases hne : rest = []
    · subst hne
      have hlast : (scan []).1 = [] := by rw [scan_of_none rfl]
      rw [hlast]
      -- The only spelling ends at the joint. Carried on, it would be read as another step.
      rintro _ ⟨⟩ c hc hext
      obtain ⟨es, rfl⟩ := List.head?_eq_some_iff.1 hc
      obtain ⟨t, left, hother, hts⟩ := hsp.exists_read?_ne hext es
      rw [List.append_nil, scan_of_some hother] at h
      exact hts (List.cons.inj h).1
    · have hsame : read? (sp ++ rest ++ ds) = some (s, rest ++ ds) := by
        rw [List.append_assoc]
        exact hsp.read?_append (hrest.append_of_ne_nil hne)
      rw [scan_of_some hsame] at h
      have hlater := ih hleft (List.cons.inj h).2
      have hsteps : (scan rest).1 ≠ [] := by
        intro hnil
        rw [scan_snd_of_fst_eq_nil hnil] at hleft
        exact hne hleft
      rwa [List.getLast?_cons_of_ne_nil hsteps]

theorem scan_append_iff (hleft : (scan cs).2 = []) :
    (scan (cs ++ ds)).1 = (scan cs).1 ++ (scan ds).1 ↔
      ∀ s ∈ (scan cs).1.getLast?, s.StopsAt ds := by
  constructor
  · exact stopsAt_of_scan_append hleft
  · intro hlast
    rw [scan_append hleft hlast]

variable {e₁ e₂ : String} {tokens₁ tokens₂ : List Step}

/-- Two path texts put together are always read, and as the steps of both unless the last step of
the first is carried on: a test of tags by a character of a name, a dot by a dot, and a single slash
by a slash or a dot. -/
theorem ofText_concat (h₁ : ofText e₁ = .ok tokens₁) (h₂ : ofText e₂ = .ok tokens₂) :
    (Path.ofText (e₁ ++ e₂)).isOk = true ∧
    ∃ tokens, ofText (e₁ ++ e₂) = .ok tokens ∧
      (tokens = tokens₁ ++ tokens₂ ↔
        ¬ ∃ s ∈ tokens₁.getLast?, ∃ c ∈ e₂.toList.head?,
          s.kind = .tag ∧ Name.isPart c = true ∨ s.kind = .self ∧ c = '.' ∨
            s.kind = .child ∧ (c = '/' ∨ c = '.')) := by
  rw [ofText_eq_ok_iff] at h₁ h₂
  have hleft₁ : (scan e₁.toList).2 = [] := by rw [h₁]
  have hleft₂ : (scan e₂.toList).2 = [] := by rw [h₂]
  have hleft : (scan (e₁ ++ e₂).toList).2 = [] := by
    rw [scan_eq_nil_iff] at hleft₁ hleft₂ ⊢
    rw [String.toList_append]
    exact hleft₁.concat hleft₂
  refine ⟨Path.isOk_ofText.2 hleft, _, ofText_eq_ok_iff.2 (Prod.ext rfl hleft), ?_⟩
  have hjoint : (scan (e₁.toList ++ e₂.toList)).1 = _ ↔ _ := scan_append_iff hleft₁
  rw [h₁, h₂] at hjoint
  rw [String.toList_append, hjoint]
  simp only [StopsAt, extends_iff, not_exists, not_and]

/-- A slash between two steps stays what it is where a name follows, and not where another slash
does; two names become one. -/
theorem ofText_concat_slash :
    ofText "a/" = .ok [tag "a", child] ∧ ofText "b" = .ok [tag "b"] ∧
      ofText "/." = .ok [self] ∧
      ofText ("a/" ++ "b") = .ok [tag "a", child, tag "b"] ∧
      ofText ("a/" ++ "/.") ≠ .ok [tag "a", child, self] ∧
      ofText ("b" ++ "a/") ≠ .ok [tag "b", tag "a", child] := by
  have hreadA : read? "a/".toList = some (tag "a", "/".toList) := by decide
  have hreadSlash : read? "/".toList = some (child, []) := by decide
  have hreadB : read? "b".toList = some (tag "b", []) := by decide
  have hreadDot : read? "/.".toList = some (self, []) := by decide
  have ha : ofText "a/" = .ok [tag "a", child] := by
    rw [ofText_eq_ok_iff, scan_of_some hreadA, scan_of_some hreadSlash, scan_of_none rfl]
  have hb : ofText "b" = .ok [tag "b"] := by
    rw [ofText_eq_ok_iff, scan_of_some hreadB, scan_of_none rfl]
  have hdot : ofText "/." = .ok [self] := by
    rw [ofText_eq_ok_iff, scan_of_some hreadDot, scan_of_none rfl]
  refine ⟨ha, hb, hdot, ?_, fun hno => ?_, fun hno => ?_⟩
  · obtain ⟨-, tokens, htokens, hiff⟩ := ofText_concat ha hb
    rw [htokens, hiff.2 ?_]
    · rfl
    · rintro ⟨s, hs, c, hc, hext⟩
      cases hs
      cases hc
      revert hext
      decide
  · obtain ⟨-, tokens, htokens, hiff⟩ := ofText_concat ha hdot
    rw [htokens, Except.ok.injEq] at hno
    exact hiff.1 hno ⟨child, rfl, '/', rfl, by decide⟩
  · obtain ⟨-, tokens, htokens, hiff⟩ := ofText_concat hb ha
    rw [htokens, Except.ok.injEq] at hno
    exact hiff.1 hno ⟨tag "b", rfl, 'a', rfl, by decide⟩

end Step

end TreePath
