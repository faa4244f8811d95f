import TreePath.Proofs.Lists
import TreePath.Proofs.Path.Rendering

namespace TreePath.Step

/-- The steps at the head of a text, each with the characters that it is read from. -/
def pieces (cs : List Char) : List (Step × List Char) :=
  match _h : read? cs with
  | none => []
  | some (s, rest) => (s, cs.take (cs.length - rest.length)) :: pieces rest
termination_by cs.length
decreasing_by exact length_of_read? _h

/-- The spellings of steps other than those in which they are shown. -/
inductive Alternative : Step → List Char → Prop
  | slashDots : Alternative parent ['/', '.', '.']
  | slashDot : Alternative self ['/', '.']
  | doubleQuoted (name value : String) :
    Alternative (attributeEq name value) (quotedTest '"' name value).toList

variable {s : Step} {sp cs rest : List Char} {text : String} {tokens : List Step}

theorem pieces_of_none (h : read? cs = none) : pieces cs = [] := by
  rw [pieces]
  split
  · rfl
  · next hsome => cases h.symm.trans hsome

theorem pieces_of_some (h : read? (sp ++ rest) = some (s, rest)) :
    pieces (sp ++ rest) = (s, sp) :: pieces rest := by
  rw [pieces]
  split
  · next hnone => cases h.symm.trans hnone
  · next hsome =>
    cases h.symm.trans hsome
    rw [List.length_append, Nat.add_sub_cancel, List.take_left]

/-- The pieces are those of the reading, each spells its step, and nothing lies between them. -/
theorem pieces_scan (cs : List Char) :
    (pieces cs).map Prod.fst = (scan cs).1 ∧
      ((pieces cs).map Prod.snd).flatten ++ (scan cs).2 = cs ∧
      ∀ p ∈ pieces cs, Spelling p.1 p.2 := by
  induction cs using scan_induction with
  | stop cs h =>
    rw [scan_of_none h, pieces_of_none h]
    exact ⟨rfl, rfl, nofun⟩
  | go cs s rest h ih =>
    obtain ⟨sp, hsp, rfl, -⟩ := read?_spelling h
    obtain ⟨hsteps, htext, hspelled⟩ := ih
    rw [scan_of_some h, pieces_of_some h]
    refine ⟨congrArg (s :: ·) hsteps, ?_, List.forall_mem_cons.2 ⟨hsp, hspelled⟩⟩
    rw [List.map_cons, List.flatten_cons, List.append_assoc, htext]

namespace Spelling

theorem length_render_le (h : Spelling s sp) : s.render.toList.length ≤ sp.length := by
  cases h with
  | tag hn => simp [render, Step.tag, nameText]
  | hasChild hn => simp [render, Step.hasChild, nameText]
  | hasAttribute hn => simp [render, Step.hasAttribute, nameText]
  | attributeEq hn hq hv => simp [render_attributeEq, quotedTest]
  | _ => decide

theorem render_eq_iff (h : Spelling s sp) : s.render.toList = sp ↔ ¬ Alternative s sp := by
  constructor
  · rintro he ⟨⟩
    · exact absurd he (by decide)
    · exact absurd he (by decide)
    · rw [render_attributeEq, String.toList_inj] at he
      exact absurd (quotedTest_inj he) (by decide)
  · intro hno
    cases h with
    | slashDots => exact (hno .slashDots).elim
    | slashDot => exact (hno .slashDot).elim
    | dots | dot | slashes | star | slash => rfl
    | tag hn => simp [render, Step.tag, nameText]
    | hasChild hn => simp [render, Step.hasChild, nameText]
    | hasAttribute hn => simp [render, Step.hasAttribute, nameText]
    | @attributeEq n v q hn hq hv =>
      rcases hq with rfl | rfl
      · simp [render_attributeEq, quotedTest]
      · refine (hno ?_).elim
        have hdouble := Alternative.doubleQuoted (String.ofList n) (String.ofList v)
        simpa only [quotedTest, String.toList_ofList] using hdouble

end Spelling

/-- All steps of a path text, shown one after the other, are the text exactly if each is read from
the spelling in which it is shown: none from a slash with dots, and no attribute value from between
double quotes. -/
theorem join_render_iff (h : ofText text = .ok tokens) :
    (pieces text.toList).map Prod.fst = tokens ∧
    ((pieces text.toList).map Prod.snd).flatten = text.toList ∧
    (String.join (tokens.map render) = text ↔ ∀ p ∈ pieces text.toList, ¬ Alternative p.1 p.2) := by
  rw [ofText_eq_ok_iff] at h
  obtain ⟨hsteps, htext, hspelled⟩ := pieces_scan text.toList
  rw [h] at hsteps htext
  dsimp only at hsteps htext
  rw [List.append_nil] at htext
  refine ⟨hsteps, htext, ?_⟩
  have hshown : (String.join (tokens.map render)).toList =
      (pieces text.toList).flatMap fun p => p.1.render.toList := by
    rw [String.toList_join, ← hsteps, List.map_map, List.flatMap_map]
    rfl
  have hread : text.toList = (pieces text.toList).flatMap Prod.snd := by
    rw [List.flatMap_def, htext]
  rw [← String.toList_inj, hshown]
  conv => lhs; rhs; rw [hread]
  rw [List.flatMap_eq_iff_of_length_le fun p hp => (hspelled p hp).length_render_le]
  exact forall₂_congr fun p hp => (hspelled p hp).render_eq_iff

/-- A slash with two dots is shown without the slash, and a value between double quotes between
single ones. -/
theorem join_render_slash_dots :
    let plain := [tag "a", child, attributeEq "k" "\"/..\""]
    let changed := [parent, attributeEq "k" "v"]
    ofText "a/[@k='\"/..\"']" = .ok plain ∧
      (∀ p ∈ pieces "a/[@k='\"/..\"']".toList, ¬ Alternative p.1 p.2) ∧
      String.join (plain.map render) = "a/[@k='\"/..\"']" ∧
    ofText "/..[@k=\"v\"]" = .ok changed ∧
      pieces "/..[@k=\"v\"]".toList =
        [(parent, "/..".toList), (attributeEq "k" "v", "[@k=\"v\"]".toList)] ∧
      String.join (changed.map render) ≠ "/..[@k=\"v\"]" := by
  intro plain changed
  have hreadTag : read? "a/[@k='\"/..\"']".toList = some (tag "a", "/[@k='\"/..\"']".toList) := by
    decide
  have hreadSlash : read? "/[@k='\"/..\"']".toList = some (child, "[@k='\"/..\"']".toList) := by
    decide
  have hreadTest : read? "[@k='\"/..\"']".toList = some (attributeEq "k" "\"/..\"", []) := by
    decide
  have hplain : ofText "a/[@k='\"/..\"']" = .ok plain := by
    rw [ofText_eq_ok_iff, scan_of_some hreadTag, scan_of_some hreadSlash, scan_of_some hreadTest,
      scan_of_none rfl]
  have hreadUp : read? ("/..".toList ++ "[@k=\"v\"]".toList) =
      some (parent, "[@k=\"v\"]".toList) := by
    decide
  have hreadValue : read? ("[@k=\"v\"]".toList ++ []) = some (attributeEq "k" "v", []) := by
    decide
  have hchanged : ofText "/..[@k=\"v\"]" = .ok changed := by
    rw [ofText_eq_ok_iff]
    refine (scan_of_some hreadUp).trans ?_
    rw [← List.append_nil "[@k=\"v\"]".toList, scan_of_some hreadValue, scan_of_none rfl]
  have hpieces : pieces "/..[@k=\"v\"]".toList =
      [(parent, "/..".toList), (attributeEq "k" "v", "[@k=\"v\"]".toList)] := by
    refine (pieces_of_some hreadUp).trans (congrArg (_ :: ·) ?_)
    exact (pieces_of_some hreadValue).trans (by rw [pieces_of_none rfl])
  have hsame : String.join (plain.map render) = "a/[@k='\"/..\"']" := by decide
  refine ⟨hplain, (join_render_iff hplain).2.2.1 hsame, hsame, hchanged, hpieces, fun hno => ?_⟩
  have hnone := (join_render_iff hchanged).2.2.1 hno
  rw [hpieces] at hnone
  exact hnone _ List.mem_cons_self .slashDots

end TreePath.Step
