import TreePath.Proofs.Path.Spelling

namespace TreePath

open Step

def IsPathText (cs : List Char) : Prop :=
  ∃ parts : List (List Char), (∀ p ∈ parts, ∃ s, Spelling s p) ∧ parts.flatten = cs

variable {s : Step} {sp u v w cs rest : List Char}

namespace IsPathText

theorem nil : IsPathText [] :=
  ⟨[], nofun, rfl⟩

theorem append (hsp : Spelling s sp) (hw : IsPathText w) : IsPathText (sp ++ w) := by
  obtain ⟨parts, hparts, rfl⟩ := hw
  refine ⟨sp :: parts, fun p hp => ?_, rfl⟩
  rcases List.mem_cons.1 hp with rfl | hp
  · exact ⟨s, hsp⟩
  · exact hparts p hp

theorem exists_append (h : IsPathText cs) :
    cs = [] ∨ ∃ s sp w, Spelling s sp ∧ IsPathText w ∧ cs = sp ++ w := by
  obtain ⟨parts, hparts, rfl⟩ := h
  cases parts with
  | nil => exact .inl rfl
  | cons p parts =>
    obtain ⟨s, hs⟩ := hparts p List.mem_cons_self
    exact .inr ⟨s, p, _, hs, ⟨parts, fun q hq => hparts q (List.mem_cons_of_mem _ hq), rfl⟩, rfl⟩

theorem of_dot (h : IsPathText ('.' :: w)) : IsPathText w := by
  rcases h.exists_append with he | ⟨s, sp, u, hsp, hu, he⟩
  · cases he
  · cases hsp with
    | dots => cases he; exact append .dot hu
    | dot => cases he; exact hu
    | tag hn =>
      obtain ⟨c, cs, rfl, hc⟩ := hn.exists_cons
      cases he
      exact absurd hc (by decide)
    | _ => cases he

theorem of_slash (h : IsPathText ('/' :: w)) : IsPathText w := by
  rcases h.exists_append with he | ⟨s, sp, u, hsp, hu, he⟩
  · cases he
  · cases hsp with
    | slashDots => cases he; exact append .dots hu
    | slashDot => cases he; exact append .dot hu
    | slashes => cases he; exact append .slash hu
    | slash => cases he; exact hu
    | tag hn =>
      obtain ⟨c, cs, rfl, hc⟩ := hn.exists_cons
      cases he
      exact absurd hc (by decide)
    | _ => cases he

end IsPathText

/-- A spelling lies within names altogether, or it begins outside of them. -/
theorem Step.Spelling.isPart_or (h : Spelling s sp) :
    (∀ c ∈ sp, Name.isPart c = true) ∨ ∃ c cs, sp = c :: cs ∧ Name.isPart c = false := by
  have hdot : Name.isPart '.' = true := by decide
  cases h with
  | tag hn => exact .inl fun c hc => hn.isPart hc
  | dots => exact .inl (List.forall_mem_cons.2 ⟨hdot, List.forall_mem_singleton.2 hdot⟩)
  | dot => exact .inl (List.forall_mem_singleton.2 hdot)
  | _ => exact .inr ⟨_, _, rfl, rfl⟩

theorem IsPathText.dropWhile_isPart (h : IsPathText w) :
    IsPathText (w.dropWhile Name.isPart) := by
  obtain ⟨parts, hparts, rfl⟩ := h
  induction parts with
  | nil => exact .nil
  | cons p parts ih =>
    have ih := ih fun q hq => hparts q (List.mem_cons_of_mem _ hq)
    obtain ⟨s, hs⟩ := hparts p List.mem_cons_self
    rw [List.flatten_cons]
    rcases hs.isPart_or with hpart | ⟨c, cs, rfl, hc⟩
    · rwa [List.dropWhile_append_of_pos hpart]
    · rw [List.cons_append, List.dropWhile_cons_of_neg (by simp [hc]), ← List.cons_append]
      exact ⟨(c :: cs) :: parts, hparts, rfl⟩

theorem IsPathText.read?_of_closed {c : Char} (hc : c = '[' ∨ c = '*')
    (h : IsPathText (c :: w)) : ∃ s rest, read? (c :: w) = some (s, rest) ∧ IsPathText rest := by
  rcases h.exists_append with he | ⟨s, sp, u, hsp, hu, he⟩
  · cases he
  · have hstop : s.StopsAt u := by
      cases hsp with
      | star | hasChild _ | hasAttribute _ | attributeEq _ _ _ => exact fun d _ => id
      | tag hn =>
        obtain ⟨d, ds, rfl, hd⟩ := hn.exists_cons
        cases he
        rcases hc with rfl | rfl <;> exact absurd hd (by decide)
      | _ =>
        cases he
        rcases hc with hc | hc <;> cases hc
    exact ⟨s, u, by rw [he, hsp.read?_append hstop], hu⟩

/-- However a path text is divided, it is one still without a spelling at its head that nothing
carries on. -/
theorem IsPathText.of_append (hsp : Spelling s sp) (hrest : s.StopsAt (w ++ v))
    (h : IsPathText (sp ++ w)) : IsPathText w := by
  -- What is read of the whole text is the spelling itself where nothing can carry it on.
  have closed (hstop : s.StopsAt w) {c : Char} {cs : List Char} (he : sp = c :: cs)
      (hc : c = '[' ∨ c = '*') : IsPathText w := by
    subst he
    obtain ⟨t, rest, hread, hw⟩ := h.read?_of_closed hc
    cases (hsp.read?_append hstop).symm.trans hread
    exact hw
  cases hsp with
  | slashDots => exact h.of_slash.of_dot.of_dot
  | dots => exact h.of_dot.of_dot
  | slashDot => exact h.of_slash.of_dot
  | dot => exact h.of_dot
  | slashes => exact h.of_slash.of_slash
  | slash => exact h.of_slash
  | star => exact closed (fun d _ => id) rfl (.inr rfl)
  | hasChild _ => exact closed (fun d _ => id) rfl (.inl rfl)
  | hasAttribute _ => exact closed (fun d _ => id) rfl (.inl rfl)
  | attributeEq _ _ _ => exact closed (fun d _ => id) rfl (.inl rfl)
  | tag hn =>
    cases w with
    | nil => exact .nil
    | cons c w =>
      have hdrop := h.dropWhile_isPart
      rwa [List.dropWhile_append_of_pos fun d hd => hn.isPart hd,
        List.dropWhile_cons_of_neg (hrest c rfl)] at hdrop

theorem Step.Spelling.exists_read? (h : Spelling s sp) (v : List Char) :
    ∃ t rest, read? (sp ++ v) = some (t, rest) := by
  cases h with
  | hasChild hn => exact ⟨_, _, (Spelling.hasChild hn).read?_append fun d _ => id⟩
  | hasAttribute hn => exact ⟨_, _, (Spelling.hasAttribute hn).read?_append fun d _ => id⟩
  | attributeEq hn hq hv => exact ⟨_, _, (Spelling.attributeEq hn hq hv).read?_append fun d _ => id⟩
  | tag hn =>
    obtain ⟨c, cs, rfl, hc⟩ := hn.exists_cons
    rw [List.cons_append, read?_of_isStart hc, readTag, Name.split, if_pos hc]
    exact ⟨_, _, rfl⟩
  | _ => exact ⟨_, _, rfl⟩

/-- Where a path text begins, what is read leaves a path text or goes beyond it. -/
theorem IsPathText.read?_append (h : IsPathText u) (hne : u ≠ []) (v : List Char) :
    ∃ s u' v', read? (u ++ v) = some (s, u' ++ v') ∧ IsPathText u' ∧ v'.length ≤ v.length := by
  obtain ⟨s, rest, hread⟩ : ∃ s rest, read? (u ++ v) = some (s, rest) := by
    rcases h.exists_append with he | ⟨s, sp, w, hsp, _, rfl⟩
    · exact (hne he).elim
    · rw [List.append_assoc]
      exact hsp.exists_read? _
  obtain ⟨sp, hsp, he, hrest⟩ := read?_spelling hread
  rcases List.append_eq_append_iff.1 he with ⟨a, rfl, rfl⟩ | ⟨w, rfl, rfl⟩
  · exact ⟨s, [], rest, hread, .nil, by simp⟩
  · exact ⟨s, w, v, hread, h.of_append hsp hrest, Nat.le_refl _⟩

namespace Step

theorem scan_of_none (h : read? cs = none) : scan cs = ([], cs) := by
  rw [scan]
  split
  · rfl
  · next hsome =>
    rw [h] at hsome
    cases hsome

theorem scan_of_some (h : read? cs = some (s, rest)) :
    scan cs = (s :: (scan rest).1, (scan rest).2) := by
  rw [scan]
  split
  · next hnone =>
    rw [h] at hnone
    cases hnone
  · next hsome =>
    rw [h] at hsome
    cases hsome
    rfl

theorem scan_induction {motive : List Char → Prop} (stop : ∀ cs, read? cs = none → motive cs)
    (go : ∀ cs s rest, read? cs = some (s, rest) → motive rest → motive cs) (cs : List Char) :
    motive cs := by
  induction hl : cs.length using Nat.strongRecOn generalizing cs with
  | ind n ih =>
    cases h : read? cs with
    | none => exact stop cs h
    | some r => exact go cs r.1 r.2 h (ih _ (hl ▸ length_of_read? h) _ rfl)

theorem scan_sound (cs : List Char) : ∃ u, IsPathText u ∧ cs = u ++ (scan cs).2 := by
  induction cs using scan_induction with
  | stop cs h =>
    rw [scan_of_none h]
    exact ⟨[], .nil, rfl⟩
  | go cs s rest h ih =>
    obtain ⟨sp, hsp, he, _⟩ := read?_spelling h
    obtain ⟨u, hu, hrest⟩ := ih
    rw [scan_of_some h]
    refine ⟨sp ++ u, .append hsp hu, ?_⟩
    rw [List.append_assoc, ← hrest, he]

theorem exists_spelling_of_mem_scan (h : s ∈ (scan cs).1) : ∃ sp, Spelling s sp := by
  induction cs using scan_induction with
  | stop cs hread =>
    rw [scan_of_none hread] at h
    cases h
  | go cs t rest hread ih =>
    rw [scan_of_some hread] at h
    rcases List.mem_cons.1 h with rfl | h
    · obtain ⟨sp, hsp, -⟩ := read?_spelling hread
      exact ⟨sp, hsp⟩
    · exact ih h

theorem length_scan_le (cs : List Char) : (scan cs).2.length ≤ cs.length := by
  obtain ⟨u, _, he⟩ := scan_sound cs
  have hl := congrArg List.length he
  rw [List.length_append] at hl
  omega

/-- Reading gets at least as far as any path text at the head of the text. -/
theorem length_scan_append_le (hu : IsPathText u) (v : List Char) :
    (scan (u ++ v)).2.length ≤ v.length := by
  induction hl : (u ++ v).length using Nat.strongRecOn generalizing u v with
  | ind n ih =>
    by_cases hne : u = []
    · subst hne
      exact length_scan_le v
    · obtain ⟨s, u', v', hread, hu', hv'⟩ := hu.read?_append hne v
      have hlt := length_of_read? hread
      rw [scan_of_some hread]
      exact Nat.le_trans (ih _ (hl ▸ hlt) hu' v' rfl) hv'

theorem scan_eq_nil_iff : (scan cs).2 = [] ↔ IsPathText cs := by
  constructor
  · intro h
    obtain ⟨u, hu, he⟩ := scan_sound cs
    rw [h, List.append_nil] at he
    rwa [he]
  · intro h
    have hle := length_scan_append_le h []
    rw [List.append_nil] at hle
    exact List.eq_nil_of_length_eq_zero (Nat.le_zero.1 hle)

theorem ofText_eq_ok_iff {text : String} {steps : List Step} :
    ofText text = .ok steps ↔ scan text.toList = (steps, []) := by
  unfold ofText
  cases hscan : scan text.toList with
  | mk read left =>
    cases left with
    | nil => simp
    | cons c cs => simp

theorem exists_spelling_of_ofText {text : String} {steps : List Step}
    (h : ofText text = .ok steps) (hs : s ∈ steps) : ∃ sp, Spelling s sp := by
  rw [ofText_eq_ok_iff] at h
  have hmem : s ∈ (scan text.toList).1 := by rwa [h]
  exact exists_spelling_of_mem_scan hmem

theorem ofText_eq_error {text : String} {e : Path.Malformed} (h : ofText text = .error e) :
    (scan text.toList).2 ≠ [] ∧
      e = { expression := text, position := text.length - (scan text.toList).2.length } := by
  unfold ofText at h
  cases hscan : scan text.toList with
  | mk read left =>
    rw [hscan] at h
    cases left with
    | nil => cases h
    | cons c cs =>
      cases h
      exact ⟨List.cons_ne_nil c cs, rfl⟩

theorem split_at_position {text : String} (h : u ++ rest = text.toList) :
    text.toList.take (text.length - rest.length) = u ∧
      text.toList.drop (text.length - rest.length) = rest := by
  have hlength : text.length = u.length + rest.length := by
    rw [← String.length_toList, ← List.length_append, h]
  rw [hlength, Nat.add_sub_cancel, ← h]
  exact ⟨List.take_left, List.drop_left⟩

end Step

namespace Path

theorem ofText_eq_ok {text : String} {steps : List Step} (h : Step.ofText text = .ok steps) :
    ofText text = .ok { expression := text, seed := Seed.ofText text,
                        steps := steps.filter (!·.isNoOp) } := by
  rw [ofText, h]
  rfl

theorem ofText_eq_error {text : String} {e : Malformed} :
    ofText text = .error e ↔ Step.ofText text = .error e := by
  cases h : Step.ofText text with
  | ok steps =>
    rw [ofText_eq_ok h]
    exact ⟨nofun, nofun⟩
  | error d =>
    have hd : ofText text = .error d := by
      rw [ofText, h]
      rfl
    rw [hd, Except.error.injEq, Except.error.injEq]

theorem exists_steps_of_ofText {text : String} {p : Path} (h : ofText text = .ok p) :
    ∃ steps, Step.ofText text = .ok steps ∧
      p = { expression := text, seed := Seed.ofText text, steps := steps.filter (!·.isNoOp) } := by
  cases hsteps : Step.ofText text with
  | ok steps => exact ⟨steps, rfl, Except.ok.inj (h.symm.trans (ofText_eq_ok hsteps))⟩
  | error e => cases h.symm.trans (ofText_eq_error.2 hsteps)

theorem isOk_ofText {text : String} :
    (ofText text).isOk = true ↔ (scan text.toList).2 = [] := by
  cases h : Step.ofText text with
  | ok steps => simp [ofText_eq_ok h, Step.ofText_eq_ok_iff.1 h, Except.isOk, Except.toBool]
  | error e =>
    rw [ofText_eq_error.2 h]
    exact ⟨nofun, fun hnil => ((Step.ofText_eq_error h).1 hnil).elim⟩

theorem exists_steps_of_isOk {text : String} (h : (ofText text).isOk = true) :
    ∃ steps, Step.ofText text = .ok steps :=
  ⟨_, Step.ofText_eq_ok_iff.2 (Prod.ext rfl (isOk_ofText.1 h))⟩

theorem isOk_ofText_of_isName {text : String} (h : Name.IsName text.toList) :
    (ofText text).isOk = true := by
  rw [isOk_ofText, scan_eq_nil_iff, ← List.append_nil text.toList]
  exact .append (.tag h) .nil

/-- Exactly the path texts are read, and any other text is refused at the end of the longest path
text that it begins with. -/
theorem ofText_grammar (text : String) :
    ((ofText text).isOk = true ↔ IsPathText text.toList) ∧
    ∀ e, ofText text = .error e →
      e.expression = text ∧ e.position < text.length ∧
      IsPathText (text.toList.take e.position) ∧
      (∀ n ≤ text.length, IsPathText (text.toList.take n) → n ≤ e.position) ∧
      e.remainder = String.ofList (text.toList.drop e.position) := by
  refine ⟨isOk_ofText.trans scan_eq_nil_iff, fun e he => ?_⟩
  obtain ⟨hleft, rfl⟩ := Step.ofText_eq_error (ofText_eq_error.1 he)
  obtain ⟨u, hu, hsplit⟩ := scan_sound text.toList
  have hlength := length_scan_le text.toList
  rw [String.length_toList] at hlength
  have hpos := List.length_pos_iff.2 hleft
  have htake := (split_at_position hsplit.symm).1
  refine ⟨rfl, ?_, by rwa [htake], fun n hn hpath => ?_, rfl⟩
  · exact Nat.sub_lt (by omega) hpos
  have hle := length_scan_append_le hpath (text.toList.drop n)
  rw [List.take_append_drop, List.length_drop, String.length_toList] at hle
  show n ≤ text.length - _
  omega

end Path

end TreePath
