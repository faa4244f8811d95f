import TreePath.Proofs.Path.Longest

namespace TreePath.Step

/-- The value, if there is one, can stand between single quotes. -/
def FitsQuotes (s : Step) : Prop :=
  ∀ v ∈ s.value, '\x27' ∉ v.toList

instance : DecidablePred FitsQuotes :=
  fun s => inferInstanceAs (Decidable (∀ v ∈ s.value, '\x27' ∉ v.toList))

def quotedTest (q : Char) (name value : String) : String :=
  String.ofList ('[' :: '@' :: (name.toList ++ '=' :: q :: (value.toList ++ [q, ']'])))

variable {s : Step} {sp : List Char} {q r : Char} {text name value : String} {tokens : List Step}

theorem quotedTest_inj (h : quotedTest q name value = quotedTest r name value) : q = r := by
  rw [quotedTest, quotedTest, String.ofList_inj, List.cons.injEq, List.cons.injEq,
    List.append_cancel_left_eq] at h
  exact (List.cons.inj (List.cons.inj h.2.2).2).1

theorem render_attributeEq (name value : String) :
    (attributeEq name value).render = quotedTest '\x27' name value := by
  rw [← String.toList_inj]
  simp [render, attributeEq, nameText, quotedTest]

theorem fitsQuotes_attributeEq :
    (attributeEq name value).FitsQuotes ↔ '\x27' ∉ value.toList := by
  simp [FitsQuotes, attributeEq]

namespace Spelling

theorem attributeEq_iff :
    Spelling (Step.attributeEq name value) text.toList ↔ Name.IsName name.toList ∧
      ∃ q, (q = '\x27' ∨ q = '"') ∧ q ∉ value.toList ∧ text = quotedTest q name value := by
  constructor
  · intro h
    generalize ht : Step.attributeEq name value = t at h
    generalize hsp : text.toList = sp at h
    cases h with
    | @attributeEq n v q hn hq hv =>
      simp only [Step.attributeEq, Step.mk.injEq, true_and, Option.some.injEq] at ht
      obtain ⟨rfl, rfl⟩ := ht
      refine ⟨by rwa [String.toList_ofList], q, hq, by rwa [String.toList_ofList], ?_⟩
      rw [quotedTest, String.toList_ofList, String.toList_ofList, ← hsp, String.ofList_toList]
    | _ => cases ht
  · rintro ⟨hn, q, hq, hv, rfl⟩
    have h := attributeEq hn hq hv
    rw [String.ofList_toList, String.ofList_toList] at h
    rwa [quotedTest, String.toList_ofList]

theorem render_of_value_none (h : Spelling s sp) (hv : s.value = none) :
    Spelling s s.render.toList := by
  cases h with
  | slashDots | dots => exact .dots
  | slashDot | dot => exact .dot
  | slashes => exact .slashes
  | star => exact .star
  | slash => exact .slash
  | tag hn => simpa [render, Step.tag, nameText] using tag hn
  | hasChild hn => simpa [render, Step.hasChild, nameText] using hasChild hn
  | hasAttribute hn => simpa [render, Step.hasAttribute, nameText] using hasAttribute hn
  | attributeEq => cases hv

theorem eq_attributeEq_of_value (h : Spelling s sp) (hv : s.value = some value) :
    ∃ name, s = Step.attributeEq name value := by
  cases h with
  | attributeEq =>
    cases hv
    exact ⟨_, rfl⟩
  | _ => cases hv

/-- What is shown spells the step exactly if its value can stand between single quotes. -/
theorem render_iff (h : Spelling s sp) : Spelling s s.render.toList ↔ s.FitsQuotes := by
  cases hv : s.value with
  | none =>
    have hfits : s.FitsQuotes := by simp [FitsQuotes, hv]
    exact iff_of_true (h.render_of_value_none hv) hfits
  | some value =>
    obtain ⟨name, rfl⟩ := h.eq_attributeEq_of_value hv
    rw [attributeEq_iff, render_attributeEq, fitsQuotes_attributeEq]
    constructor
    · rintro ⟨-, q, -, hfree, hq⟩
      rwa [quotedTest_inj hq]
    · intro hfree
      exact ⟨h.isName rfl, '\x27', .inl rfl, hfree, rfl⟩

/-- A value with a single quote leaves only one spelling. -/
theorem attributeEq_iff_of_mem (h : Spelling (Step.attributeEq name value) sp)
    (hquote : '\x27' ∈ value.toList) :
    Spelling (Step.attributeEq name value) text.toList ↔ text = quotedTest '"' name value := by
  have double {q : Char} (hq : q = '\x27' ∨ q = '"') (hfree : q ∉ value.toList) : q = '"' := by
    rcases hq with rfl | rfl
    · exact (hfree hquote).elim
    · rfl
  rw [attributeEq_iff]
  constructor
  · rintro ⟨-, q, hq, hfree, rfl⟩
    rw [double hq hfree]
  · rintro rfl
    rw [← String.toList_ofList (l := sp), attributeEq_iff] at h
    obtain ⟨hname, q, hq, hfree, -⟩ := h
    exact ⟨hname, '"', .inr rfl, double hq hfree ▸ hfree, rfl⟩

end Spelling

theorem ofText_eq_singleton_iff : ofText text = .ok [s] ↔ Spelling s text.toList := by
  rw [ofText_eq_ok_iff]
  constructor
  · intro h
    obtain ⟨parts, hparts, hflat⟩ := longest_scan text.toList
    rw [h] at hparts hflat
    cases hparts with
    | cons hsp _ hrest =>
      cases hrest
      rw [List.flatten_singleton, List.append_nil] at hflat
      rwa [← hflat]
  · intro h
    rw [scan_of_some h.read?_eq, scan_of_none rfl]

/-- Each step of a text is shown as a text that is read as just this step, unless its value has a
single quote. Of such a step the text with double quotes is the only one that is read so. -/
theorem ofText_render (h : ofText text = .ok tokens) (hs : s ∈ tokens) :
    (ofText s.render = .ok [s] ↔ s.FitsQuotes) ∧
    (¬ s.FitsQuotes → ∃ name value, s = attributeEq name value ∧
      ∀ shown, ofText shown = .ok [s] ↔ shown = quotedTest '"' name value) := by
  obtain ⟨sp, hsp⟩ := exists_spelling_of_ofText h hs
  refine ⟨ofText_eq_singleton_iff.trans hsp.render_iff, fun hfits => ?_⟩
  cases hv : s.value with
  | none => simp [FitsQuotes, hv] at hfits
  | some value =>
    obtain ⟨name, rfl⟩ := hsp.eq_attributeEq_of_value hv
    rw [fitsQuotes_attributeEq, not_not] at hfits
    exact ⟨name, value, rfl, fun shown =>
      ofText_eq_singleton_iff.trans (hsp.attributeEq_iff_of_mem hfits)⟩

theorem ofText_render_bracket :
    let s := attributeEq "k" "]"
    ofText "a[@k=\"]\"]" = .ok [tag "a", s] ∧ s ∈ [tag "a", s] ∧ s.FitsQuotes ∧
      ofText "[@k=']']" = .ok [s] := by
  intro s
  have hread : read? "a[@k=\"]\"]".toList = some (tag "a", "[@k=\"]\"]".toList) := by decide
  have hrest : read? "[@k=\"]\"]".toList = some (s, []) := by decide
  have h : ofText "a[@k=\"]\"]" = .ok [tag "a", s] := by
    rw [ofText_eq_ok_iff, scan_of_some hread, scan_of_some hrest, scan_of_none rfl]
  have hmem : s ∈ [tag "a", s] := by decide
  have hfits : s.FitsQuotes := by decide
  exact ⟨h, hmem, hfits, (ofText_render h hmem).1.2 hfits⟩

/-- A value with an apostrophe is shown as a text that is refused, and one that looks like the end
of a test and the beginning of another is shown as a text that is read as four steps. -/
theorem ofText_render_apostrophe :
    let s := attributeEq "k" "it's"
    let t := attributeEq "k" "a']/b[@x='c"
    ofText "[@k=\"it's\"]" = .ok [s] ∧ s.render = "[@k='it's']" ∧
      ofText s.render = .error ⟨"[@k='it's']", 0⟩ ∧
    ofText "[@k=\"a']/b[@x='c\"]" = .ok [t] ∧
      ofText t.render = .ok [attributeEq "k" "a", child, tag "b", attributeEq "x" "c"] := by
  intro s t
  have hrender : s.render = "[@k='it's']" := rfl
  have hs : read? "[@k='it's']".toList = none := by decide
  have hreadS : read? "[@k=\"it's\"]".toList = some (s, []) := by decide
  have hreadT : read? "[@k=\"a']/b[@x='c\"]".toList = some (t, []) := by decide
  have h₁ : read? t.render.toList = some (attributeEq "k" "a", "/b[@x='c']".toList) := by decide
  have h₂ : read? "/b[@x='c']".toList = some (child, "b[@x='c']".toList) := by decide
  have h₃ : read? "b[@x='c']".toList = some (tag "b", "[@x='c']".toList) := by decide
  have h₄ : read? "[@x='c']".toList = some (attributeEq "x" "c", []) := by decide
  refine ⟨?_, hrender, ?_, ?_, ?_⟩
  · rw [ofText_eq_ok_iff, scan_of_some hreadS, scan_of_none rfl]
  · rw [hrender, ofText, scan_of_none hs]
    rfl
  · rw [ofText_eq_ok_iff, scan_of_some hreadT, scan_of_none rfl]
  · rw [ofText_eq_ok_iff, scan_of_some h₁, scan_of_some h₂, scan_of_some h₃, scan_of_some h₄,
      scan_of_none rfl]

end TreePath.Step
