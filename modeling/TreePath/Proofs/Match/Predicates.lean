import TreePath.Proofs.Match.Runs
import TreePath.Proofs.Path.Joint
import TreePath.Proofs.Workspace.Transparency

namespace TreePath

/-- A test of elements, as it is written in brackets. -/
inductive Test where
  | hasChild (name : String)
  | hasAttribute (name : String)
  | attributeEq (name : String) (quote : Char) (value : String)

namespace Test

def text : Test → String
  | hasChild t => "[" ++ t ++ "]"
  | hasAttribute k => "[@" ++ k ++ "]"
  | attributeEq k q v => "[@" ++ k ++ "=" ++ String.singleton q ++ v ++ String.singleton q ++ "]"

def step : Test → Step
  | hasChild t => .hasChild t
  | hasAttribute k => .hasAttribute k
  | attributeEq k _ v => .attributeEq k v

/-- The names are names, and the value does not contain the quote that it stands between. -/
def IsProper : Test → Prop
  | hasChild t => Name.isValid t = true
  | hasAttribute k => Name.isValid k = true
  | attributeEq k q v => Name.isValid k = true ∧ (q = '\x27' ∨ q = '"') ∧ q ∉ v.toList

def Holds (f : Forest) (x : ElementId) : Test → Prop
  | hasChild t => ∃ c ∈ f.children x, f.tag c = t
  | hasAttribute k => f.attribute? x k ≠ none
  | attributeEq k _ v => f.attribute? x k = some v

instance (f : Forest) (x : ElementId) : DecidablePred (Holds f x)
  | hasChild t => inferInstanceAs (Decidable (∃ c ∈ f.children x, f.tag c = t))
  | hasAttribute k => inferInstanceAs (Decidable (f.attribute? x k ≠ none))
  | attributeEq k _ v => inferInstanceAs (Decidable (f.attribute? x k = some v))

variable {t : Test}

theorem spelling (h : t.IsProper) :
    ∃ sp, t.text.toList = '[' :: sp ∧ Step.Spelling t.step ('[' :: sp) := by
  cases t with
  | hasChild t =>
    have hsp := Step.Spelling.hasChild (Name.isName_of_isValid h)
    rw [String.ofList_toList] at hsp
    exact ⟨_, by simp [text], hsp⟩
  | hasAttribute k =>
    have hsp := Step.Spelling.hasAttribute (Name.isName_of_isValid h)
    rw [String.ofList_toList] at hsp
    exact ⟨_, by simp [text], hsp⟩
  | attributeEq k q v =>
    obtain ⟨hk, hq, hv⟩ := h
    have hsp := Step.Spelling.attributeEq (Name.isName_of_isValid hk) hq hv
    rw [String.ofList_toList, String.ofList_toList] at hsp
    exact ⟨_, by simp [text], hsp⟩

end Test

namespace Step

/-- The way down to the children with a tag and back up. -/
def detour (t : String) : List Step :=
  [child, tag t, parent]

theorem ofText_detour {e t : String} {tokens : List Step} (he : ofText e = .ok tokens)
    (hlast : ∀ s ∈ tokens.getLast?, s.kind ≠ .child) (ht : Name.isValid t = true) :
    ofText (e ++ "/" ++ t ++ "/..") = .ok (tokens ++ detour t) := by
  have hdown := ofText_join he (ofText_of_isValid ht) hlast (Name.head?_ne_of_isValid ht)
  have htag : ∀ s ∈ (tokens ++ [child, tag t]).getLast?, s.kind ≠ .child := by
    rw [List.getLast?_append]
    rintro s ⟨⟩
    exact nofun
  have hup := ofText_append_parent hdown htag
  rwa [List.append_assoc] at hup

end Step

namespace Forest

theorem results_hasChild (f : Forest) (t : String) (x : ElementId) :
    f.results (.hasChild t) x = if ∃ c ∈ f.children x, f.tag c = t then [x] else [] := by
  have htest : ((f.children x).any fun c => some t == some (f.tag c)) =
      decide (∃ c ∈ f.children x, f.tag c = t) := by
    rw [Bool.eq_iff_iff, List.any_eq_true, decide_eq_true_iff]
    simp only [beq_iff_eq, Option.some.injEq, @eq_comm _ t]
  show (if ((f.children x).any fun c => some t == some (f.tag c)) = true then _ else _) = _
  simp only [htest, decide_eq_true_iff]

theorem results_tag (f : Forest) (t : String) (x : ElementId) :
    f.results (.tag t) x = if f.tag x = t then [x] else [] := by
  show (if (some t == some (f.tag x)) = true then _ else _) = _
  simp only [beq_iff_eq, Option.some.injEq, @eq_comm _ t]

theorem results_hasAttribute (f : Forest) (k : String) (x : ElementId) :
    f.results (.hasAttribute k) x = if f.attribute? x k ≠ none then [x] else [] := by
  cases h : f.attribute? x k with
  | none => simp [results, Step.hasAttribute, h]
  | some actual => simp [results, Step.hasAttribute, h]

theorem results_attributeEq (f : Forest) (k v : String) (x : ElementId) :
    f.results (.attributeEq k v) x = if f.attribute? x k = some v then [x] else [] := by
  cases h : f.attribute? x k with
  | none => simp [results, Step.attributeEq, h]
  | some actual => simp [results, Step.attributeEq, h, @eq_comm _ v]

theorem results_test (f : Forest) (t : Test) (x : ElementId) :
    f.results t.step x = if t.Holds f x then [x] else [] := by
  cases t with
  | hasChild t => exact f.results_hasChild t x
  | hasAttribute k => exact f.results_hasAttribute k x
  | attributeEq k q v => exact f.results_attributeEq k v x

theorem flatMap_test (f : Forest) (t : Test) (members : List ElementId) :
    members.flatMap (f.results t.step) = members.filter fun x => t.Holds f x := by
  apply List.flatMap_eq_filter
  intro x
  rw [results_test]
  simp only [decide_eq_true_iff]

/-- Behind any path text, the empty one included, a test drops the elements that fail it and changes
nothing else. So it is for every matcher, whatever was done before. -/
theorem findAll_test (f : Forest) (n : ElementId) {e : String} {t : Test}
    (he : (Path.ofText e).isOk = true) (ht : t.IsProper) :
    ∃ xs, f.findAll e n = .ok xs ∧ xs.Nodup ∧
      f.findAll (e ++ t.text) n = .ok (xs.filter fun x => t.Holds f x) ∧
      ∀ w, Workspace.Reached f w → ∀ via text,
        (w.findAllBy via n (.text text)).1 = f.findAll text n := by
  obtain ⟨sp, htext, hsp⟩ := t.spelling ht
  cases hp : Path.ofText e with
  | error m =>
    rw [hp] at he
    cases he
  | ok p =>
    obtain ⟨tokens, htokens, -⟩ := Path.exists_steps_of_ofText hp
    have hall := Step.ofText_append_bracketed htokens hsp htext
    refine ⟨_, findAll_of_ofText htokens n, List.nodup_eraseDups, ?_, ?_⟩
    · rw [findAll_of_ofText hall, Seed.ofText_append_bracketed htext, flow_append, flow_cons,
        flatMap_test]
      exact congrArg Except.ok (List.eraseDups_filter _)
    · intro w hw via text
      exact hw.serves.findAllBy_text text

/-- A value that spells the end of its test and a step is a value all the same. -/
theorem findAll_test_grove :
    let f := grove.modifyContent ⟨1⟩ (·.setAttribute "k" "]/b")
    let t := Test.attributeEq "k" '"' "]/b"
    let u := Test.attributeEq "k" '\x27' ""
    (Path.ofText "").isOk = true ∧ t.IsProper ∧ u.IsProper ∧
      f.findAll ("" ++ t.text) ⟨0⟩ = .ok [⟨1⟩] ∧ f.findAll ("" ++ u.text) ⟨0⟩ = .ok [] := by
  intro f t u
  have hempty : Step.ofText "" = .ok [] := by
    rw [Step.ofText_eq_ok_iff, Step.scan_of_none rfl]
    rfl
  have hok : (Path.ofText "").isOk = true := by
    rw [Path.ofText_eq_ok hempty]
    rfl
  have ht : t.IsProper := ⟨by decide, by decide, by decide⟩
  have hu : u.IsProper := ⟨by decide, by decide, by decide⟩
  have hchildren : f.findAll "" ⟨0⟩ = .ok [⟨1⟩] := findAll_of_ofText hempty ⟨0⟩
  obtain ⟨xs, hxs, -, hkept, -⟩ := f.findAll_test ⟨0⟩ hok ht
  obtain ⟨ys, hys, -, hdropped, -⟩ := f.findAll_test ⟨0⟩ hok hu
  cases hxs.symm.trans hchildren
  cases hys.symm.trans hchildren
  exact ⟨hok, ht, hu, hkept, hdropped⟩

/-- The way down and back up ends where it began, once for each child with the tag. -/
theorem WellFormed.mem_flow_detour {f : Forest} (h : f.WellFormed) {t : String} {x y : ElementId} :
    y ∈ f.flow (Step.detour t) [x] ↔ y = x ∧ ∃ c ∈ f.children x, f.tag c = t := by
  have hflow : f.flow (Step.detour t) [x] =
      ((f.children x).flatMap (f.results (.tag t))).flatMap (f.results .parent) := by
    rw [Step.detour, flow_cons, flow_cons, flow_cons, List.flatMap_singleton]
    rfl
  rw [hflow, List.mem_flatMap]
  constructor
  · rintro ⟨c, hc, hy⟩
    obtain ⟨d, hd, hc⟩ := List.mem_flatMap.1 hc
    rw [results_tag] at hc
    split at hc
    · next htag =>
      obtain rfl := List.mem_singleton.1 hc
      rw [results_parent rfl, Option.mem_toList] at hy
      have hup : f.Up c y := hy
      exact ⟨hup.unique (h.up_iff.2 hd), c, hd, htag⟩
    · cases hc
  · rintro ⟨rfl, c, hc, htag⟩
    have hdown : c ∈ (f.children y).flatMap (f.results (.tag t)) := by
      refine List.mem_flatMap.2 ⟨c, hc, ?_⟩
      rw [results_tag, if_pos htag]
      exact List.mem_singleton_self c
    refine ⟨c, hdown, ?_⟩
    rw [results_parent rfl, Option.mem_toList]
    exact h.up_iff.2 hc

theorem WellFormed.eraseDups_flow_detour {f : Forest} (h : f.WellFormed) (t : String)
    (members : List ElementId) :
    (f.flow (Step.detour t) members).eraseDups =
      (members.flatMap (f.results (.hasChild t))).eraseDups := by
  have hsplit : f.flow (Step.detour t) members =
      members.flatMap fun x => f.flow (Step.detour t) [x] := by
    rw [← flow_flatMap, List.flatMap_singleton']
  rw [hsplit]
  refine List.eraseDups_flatMap_congr members fun x _ => ?_
  rw [results_hasChild]
  split
  · next hchild =>
    refine List.eraseDups_eq_singleton (List.ne_nil_of_mem (h.mem_flow_detour.2 ⟨rfl, hchild⟩)) ?_
    exact fun y hy => (h.mem_flow_detour.1 hy).1
  · next hno =>
    rw [List.eq_nil_iff_forall_not_mem.2 fun y hy => hno (h.mem_flow_detour.1 hy).2]

/-- A test for a child keeps what the way down to such children and back up ends with, in the same
order. So it is for every matcher, whatever was done before. -/
theorem WellFormed.findAll_hasChild {f : Forest} (h : f.WellFormed) (n : ElementId) {e t : String}
    {tokens : List Step} (hne : e ≠ "") (he : Step.ofText e = .ok tokens)
    (hlast : ∀ s ∈ tokens.getLast?, s.kind ≠ .child) (ht : Name.isValid t = true) :
    (∃ xs, f.findAll (e ++ "[" ++ t ++ "]") n = .ok xs ∧
      f.findAll (e ++ "/" ++ t ++ "/..") n = .ok xs) ∧
    ∀ w, Workspace.Reached f w → ∀ via text,
      (w.findAllBy via n (.text text)).1 = f.findAll text n := by
  have hdetour := findAll_of_ofText (f := f) (Step.ofText_detour he hlast ht) n
  refine ⟨⟨_, ?_, hdetour⟩, fun w hw via text => ?_⟩
  · have hproper : (Test.hasChild t).IsProper := ht
    obtain ⟨sp, htext, hsp⟩ := Test.spelling hproper
    have hbracket : e ++ "[" ++ t ++ "]" = e ++ (Test.hasChild t).text := by
      rw [Test.text, String.append_assoc, String.append_assoc, String.append_assoc]
    rw [hbracket, findAll_of_ofText (Step.ofText_append_bracketed he hsp htext),
      Seed.ofText_append_bracketed htext, String.append_assoc, String.append_assoc,
      Seed.ofText_append hne, flow_append, flow_append, h.eraseDups_flow_detour]
    rfl
  · exact hw.serves.findAllBy_text text

/-- Two children of `a` are called `b`, and so is a child of one of them: the way back up leads to
`a` twice. -/
theorem WellFormed.findAll_hasChild_nested :
    let f := (grove.edit (.createChild ⟨1⟩ (.str "b") [] .null)).edit
      (.createChild ⟨0⟩ (.str "b") [] .null)
    f.WellFormed ∧ Step.ofText "//" = .ok [.descendantOrSelf] ∧ Name.isValid "b" = true ∧
      f.flow [.descendantOrSelf, .child, .tag "b", .parent] [⟨0⟩] = [⟨0⟩, ⟨0⟩, ⟨1⟩] ∧
      f.findAll ("//" ++ "[" ++ "b" ++ "]") ⟨3⟩ = .ok [⟨0⟩, ⟨1⟩] ∧
      ∀ via, (Workspace.findAllBy { forest := f } via ⟨3⟩ (.text ("//" ++ "/" ++ "b" ++ "/.."))).1 =
        .ok [⟨0⟩, ⟨1⟩] := by
  intro f
  have hreach : f.Reachable := (reachable_grove.edit (by decide) id).edit (by decide) id
  have hdown : Step.ofText "//" = .ok [.descendantOrSelf] := by
    rw [Step.ofText_eq_ok_iff, Step.scan_of_some rfl, Step.scan_of_none rfl]
  have hname : Name.isValid "b" = true := by decide
  have hlast : ∀ s ∈ [Step.descendantOrSelf].getLast?, s.kind ≠ .child := by
    rintro s ⟨⟩
    exact nofun
  have hback : f.findAll ("//" ++ "/" ++ "b" ++ "/..") ⟨3⟩ = .ok [⟨0⟩, ⟨1⟩] := by
    rw [findAll_of_ofText (Step.ofText_detour hdown hlast hname)]
    decide
  obtain ⟨⟨xs, htest, hdetour⟩, hmatchers⟩ :=
    hreach.wellFormed.findAll_hasChild ⟨3⟩ (by decide) hdown hlast hname
  cases hdetour.symm.trans hback
  refine ⟨hreach.wellFormed, hdown, hname, by decide, htest, fun via => ?_⟩
  exact (hmatchers _ (.start { last := 0 }) via _).trans hback

end Forest

end TreePath
