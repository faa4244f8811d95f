import TreePath.Proofs.Match.Confinement

namespace TreePath

namespace Selection

def map (φ : ElementId → ElementId) (sel : Selection) : Selection :=
  { members := sel.members.map φ, yielded := sel.yielded }

end Selection

namespace Forest

variable {f g : Forest} {r s x y : ElementId} {φ : ElementId → ElementId} {t : Step}
  {sel next : Selection}

namespace Corresponds

variable (h : f.Corresponds g r s φ) (hf : f.IsTree r) (hg : g.IsTree s)

include h hf hg

omit hg in
theorem children_tags (hx : f.Within x r) :
    (g.children (φ x)).map g.tag = (f.children x).map f.tag := by
  rw [h.children_eq x hx, List.map_map]
  exact List.map_congr_left fun c hc => h.tag_eq c (hf.child_within hx hc)

theorem results_map (t : Step) (hx : f.Within x r) :
    g.results t (φ x) = (f.results t x).map φ := by
  have htest (b : Bool) : (if b then [φ x] else []) = (if b then [x] else []).map φ := by
    cases b <;> rfl
  unfold results
  split
  · exact h.children_eq x hx
  · exact h.preorder_map hf hg hx
  · rw [h.parent?_map hf hg hx]
    exact Option.toList_map
  · rw [h.tag_eq x hx]
    exact htest _
  · have hactual : t.name.bind (g.attribute? (φ x)) = t.name.bind (f.attribute? x) := by
      rw [funext (h.attribute?_eq x hx)]
    rw [hactual]
    split
    · rfl
    · exact htest _
  · have hany (f : Forest) (x : ElementId) :
        ((f.children x).any fun c => t.name == some (f.tag c)) =
          ((f.children x).map f.tag).any fun name => t.name == some name := by
      rw [List.any_map]
      rfl
    rw [hany f x, hany g (φ x), h.children_tags hf hx]
    exact htest _
  · rfl
  · rfl
  · rfl

theorem seedMembers_map (seed : Seed) (hx : f.Within x r) :
    g.seedMembers seed (φ x) = (f.seedMembers seed x).map φ := by
  cases seed with
  | root => exact congrArg (fun y => [y]) (h.root_map hf hg hx)
  | self => rfl
  | children => exact h.children_eq x hx

theorem flatMap_results_map (t : Step) {members : List ElementId}
    (hm : ∀ y ∈ members, f.Within y r) :
    (members.map φ).flatMap (g.results t) = (members.flatMap (f.results t)).map φ := by
  rw [List.flatMap_map, List.map_flatMap]
  exact List.flatMap_congr fun y hy => h.results_map hf hg t (hm y hy)

omit hf hg in
theorem eraseDups_map {members : List ElementId} (hm : ∀ y ∈ members, f.Within y r) :
    (members.map φ).eraseDups = members.eraseDups.map φ :=
  List.eraseDups_map_of_injOn fun _ ha _ hb => h.bijOn.injOn (hm _ ha) (hm _ hb)

theorem advance_map (t : Step) (hm : ∀ y ∈ sel.members, f.Within y r) :
    g.advance (sel.map φ) t = (f.advance sel t).map (Selection.map φ) := by
  by_cases ht : t.IsKnown ∨ sel.members = []
  · have hmap : t.IsKnown ∨ (sel.map φ).members = [] := ht.imp_right fun he => by
      rw [Selection.map, he]
      rfl
    have hyield := h.flatMap_results_map hf hg t hm
    rw [advance_eq ht, advance_eq hmap]
    simp only [Selection.map, Except.map, hyield, List.length_map,
      h.eraseDups_map (hf.flatMap_results_within hm)]
  · obtain ⟨label, hlabel, hne⟩ := exists_other ht
    have hmap : (sel.map φ).members ≠ [] := mt List.map_eq_nil_iff.1 hne
    rw [advance_of_other hlabel hne, advance_of_other hlabel hmap]
    rfl

theorem foldlM_advance_map (steps : List Step) (sel : Selection)
    (hm : ∀ y ∈ sel.members, f.Within y r) :
    steps.foldlM g.advance (sel.map φ) = (steps.foldlM f.advance sel).map (Selection.map φ) := by
  induction steps generalizing sel with
  | nil => rfl
  | cons t steps ih =>
    rw [List.foldlM_cons, List.foldlM_cons, h.advance_map hf hg t hm]
    -- The members stay in the tree, so the next step meets corresponding members again.
    cases hnext : f.advance sel t with
    | error e => rfl
    | ok next => exact ih next (hf.advance_within hm hnext)

/-- Corresponding elements select corresponding elements, in the same order. The steps yield equally
many before repetitions are dropped, and a step of an unknown kind is a fault in both trees. -/
theorem select_map (p : Path) (hx : f.Within x r) :
    g.select p (φ x) = (f.select p x).map (Selection.map φ) := by
  have hseeds := fun y hy => hf.seedMembers_within (y := y) p.seed hx hy
  rw [select_eq, select_eq, h.seedMembers_map hf hg p.seed hx, h.eraseDups_map hseeds]
  have hmem : ∀ y ∈ (f.seedMembers p.seed x).eraseDups, f.Within y r := by
    intro y hy
    exact hseeds y (List.mem_eraseDups.1 hy)
  exact h.foldlM_advance_map hf hg p.steps { members := _ } hmem

end Corresponds

/-- An element with two attributes and two children of one tag. -/
def twins : Forest :=
  [Edit.make (.str "a") [(.str "k", .str "1"), (.str "l", .str "2")] (.str "t") .null,
    .createChild ⟨0⟩ (.str "b") [] .null, .createChild ⟨0⟩ (.str "b") [] .null].foldl edit {}

/-- The same but for the texts, with a child made first and the attributes set the other way
round. -/
def twinsFromBelow : Forest :=
  [Edit.make (.str "b") [] .null (.str "t"),
    .make (.str "a") [(.str "l", .str "2"), (.str "k", .str "1")] .null .null,
    .addChild ⟨1⟩ (some ⟨0⟩) .null, .createChild ⟨1⟩ (.str "b") [] (.str "u")].foldl edit {}

theorem isTree_twins : twins.IsTree ⟨0⟩ := by
  have h₁ : Reachable (({} : Forest).edit (.make (.str "a") [(.str "k", .str "1"),
      (.str "l", .str "2")] (.str "t") .null)) := .edit .empty nofun id
  have h₂ := h₁.edit (e := .createChild ⟨0⟩ (.str "b") [] .null) (by decide) id
  have h₃ : twins.Reachable := h₂.edit (e := .createChild ⟨0⟩ (.str "b") [] .null) (by decide) id
  exact ⟨h₃.wellFormed, by decide, by decide⟩

theorem isTree_twinsFromBelow : twinsFromBelow.IsTree ⟨1⟩ := by
  have h₁ : Reachable (({} : Forest).edit (.make (.str "b") [] .null (.str "t"))) :=
    .edit .empty nofun id
  have h₂ := h₁.edit (e := .make (.str "a") [(.str "l", .str "2"), (.str "k", .str "1")] .null
    .null) nofun id
  have h₃ := h₂.edit (e := .addChild ⟨1⟩ (some ⟨0⟩) .null) (by decide) id
  have h₄ : twinsFromBelow.Reachable :=
    h₃.edit (e := .createChild ⟨1⟩ (.str "b") [] (.str "u")) (by decide) id
  exact ⟨h₄.wellFormed, by decide, by decide⟩

theorem Corresponds.select_map_twins :
    let p : Path :=
      ⟨"///b/..[@k]", .root, [.descendantOrSelf, .tag "b", .parent, .hasAttribute "k"]⟩
    let φ : ElementId → ElementId := fun
      | ⟨0⟩ => ⟨1⟩
      | ⟨1⟩ => ⟨0⟩
      | x => x
    twins.IsTree ⟨0⟩ ∧ twinsFromBelow.IsTree ⟨1⟩ ∧ twins.Corresponds twinsFromBelow ⟨0⟩ ⟨1⟩ φ ∧
      twins.Within ⟨1⟩ ⟨0⟩ ∧ twinsFromBelow.select p ⟨0⟩ = .ok ⟨[⟨1⟩], 8⟩ := by
  intro p φ
  have hroot (name : String) : List.lookup name [("l", "2"), ("k", "1")] =
      List.lookup name [("k", "1"), ("l", "2")] := by
    by_cases hk : name = "k"
    · subst hk
      rfl
    · have hne : (name == "k") = false := beq_false_of_ne hk
      simp only [List.lookup_cons, hne]
  have hattribute : ∀ x ∈ twins.preorder ⟨0⟩, ∀ name,
      twinsFromBelow.attribute? (φ x) name = twins.attribute? x name := by
    have hwalk : twins.preorder ⟨0⟩ = [⟨0⟩, ⟨1⟩, ⟨2⟩] := by decide
    intro x hx name
    rw [hwalk] at hx
    rcases List.mem_cons.1 hx with rfl | hx
    · exact hroot name
    · rcases List.mem_pair.1 hx with rfl | rfl <;> rfl
  have h : twins.Corresponds twinsFromBelow ⟨0⟩ ⟨1⟩ φ :=
    corresponds_of_preorder isTree_twins isTree_twinsFromBelow (by decide) (by decide) (by decide)
      hattribute
  have hx : twins.Within ⟨1⟩ ⟨0⟩ := .single rfl
  have hknown : ∀ s ∈ p.steps, s.IsKnown := by
    intro s hs label hkind
    simp only [p, List.mem_cons, List.not_mem_nil, or_false] at hs
    rcases hs with rfl | rfl | rfl | rfl <;> cases hkind
  have hselect : twins.select p ⟨1⟩ = .ok ⟨[⟨0⟩], 8⟩ := by
    rw [select_eq_of_isKnown hknown]
    rfl
  have himage := h.select_map isTree_twins isTree_twinsFromBelow p hx
  rw [hselect] at himage
  exact ⟨isTree_twins, isTree_twinsFromBelow, h, hx, himage⟩

end Forest

end TreePath
