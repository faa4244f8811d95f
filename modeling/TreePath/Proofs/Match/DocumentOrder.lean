import Mathlib.Data.List.Flatten
import TreePath.Proofs.Forest.Navigation
import TreePath.Proofs.Match.Runs

namespace List

variable {α : Type} [BEq α] [LawfulBEq α]

theorem eraseDups_append_eq_filter {as bs cs ds : List α} {a : α} (hnodup : as.Nodup)
    (ha : a ∈ as) (hsplit : a :: ds = as ++ cs) (hcs : ∀ c ∈ cs, c ∉ as)
    (hbs : bs.eraseDups = ds.filter (· ∈ bs)) :
    (as ++ bs).eraseDups = (a :: ds).filter (· ∈ as ++ bs) := by
  have hrest : (bs.removeAll as).eraseDups = cs.filter (· ∈ bs) := by
    calc (bs.removeAll as).eraseDups
      _ = ds.filter fun b => !as.elem b && decide (b ∈ bs) := by
        rw [removeAll, eraseDups_filter, hbs, filter_filter]
      _ = (a :: ds).filter fun b => !as.elem b && decide (b ∈ bs) :=
        (filter_cons_of_neg (by simp [ha])).symm
      _ = cs.filter fun b => !as.elem b && decide (b ∈ bs) := by
        rw [hsplit, filter_append, filter_eq_nil_iff.2 fun b hb => by simp [hb], nil_append]
      _ = cs.filter (· ∈ bs) := filter_congr fun c hc => by simp [hcs c hc]
  have hleft : as.filter (· ∈ as ++ bs) = as := filter_eq_self.2 fun b hb => by simp [hb]
  have hright : cs.filter (· ∈ as ++ bs) = cs.filter (· ∈ bs) :=
    filter_congr fun c hc => by simp [hcs c hc]
  rw [eraseDups_append, eraseDups_of_nodup hnodup, hrest, hsplit, filter_append, hleft, hright]

end List

namespace TreePath.Forest

variable {f : Forest} {n r x y : ElementId} {us ws vs xs : List ElementId} {s : Step}
  {steps : List Step}

theorem Walks.exists_append (h : f.Walks (us ++ ws) vs) :
    ∃ as bs, vs = as ++ bs ∧ f.Walks us as ∧ f.Walks ws bs := by
  generalize hall : us ++ ws = all at h
  induction h generalizing us with
  | done =>
    obtain ⟨rfl, rfl⟩ := List.append_eq_nil_iff.1 hall
    exact ⟨[], [], rfl, .done, .done⟩
  | @visit x rest vs hvs ih =>
    cases us with
    | nil =>
      rw [List.nil_append] at hall
      subst hall
      exact ⟨[], x :: vs, rfl, .done, .visit hvs⟩
    | cons u us =>
      obtain ⟨rfl, rfl⟩ := List.cons.inj hall
      obtain ⟨as, bs, rfl, has, hbs⟩ := ih (List.append_assoc _ us ws)
      exact ⟨u :: as, bs, rfl, .visit has, hbs⟩

namespace WellFormed

variable (h : f.WellFormed)

include h

theorem mem_flatMap_preorder (hxs : ∀ x ∈ xs, x ∈ f) :
    y ∈ xs.flatMap f.preorder ↔ ∃ x ∈ xs, f.Within y x := by
  rw [List.mem_flatMap]
  exact exists_congr fun x => and_congr_right fun hx => h.mem_preorder (hxs x hx)

theorem exists_preorder_append (hvs : f.Walks (f.children x ++ ws) vs) (hx : x ∈ f)
    (apart : (x :: ws).Pairwise f.Apart) :
    ∃ bs, x :: vs = f.preorder x ++ bs ∧ ∀ y ∈ bs, y ∉ f.preorder x := by
  obtain ⟨as, bs, rfl, has, hbs⟩ := hvs.exists_append
  have hpreorder : f.preorder x = x :: as := by
    refine (h.walks_preorder hx).unique (.visit ?_)
    rwa [List.append_nil]
  refine ⟨bs, by rw [hpreorder, List.cons_append], fun y hy hyx => ?_⟩
  obtain ⟨w, hw, hyw⟩ := (hbs.mem_iff h).1 hy
  exact (List.pairwise_cons.1 apart).1 w hw y ((h.mem_preorder hx).1 hyx) hyw

/-- What is within some of the elements on a walk, in the order in which it is first found from one
of these elements after the other, is what the walk visits of it. -/
theorem eraseDups_flatMap_preorder (hvs : f.Walks ws vs) (apart : ws.Pairwise f.Apart)
    (hws : ∀ w ∈ ws, w ∈ f) (hxs : xs.Sublist vs) :
    (xs.flatMap f.preorder).eraseDups = vs.filter (· ∈ xs.flatMap f.preorder) := by
  induction hvs generalizing xs with
  | done =>
    rw [List.sublist_nil.1 hxs]
    rfl
  | @visit x ws vs hvs ih =>
    have hx := hws x List.mem_cons_self
    have hlater : ∀ w ∈ f.children x ++ ws, w ∈ f := by
      intro w hw
      rcases List.mem_append.1 hw with hw | hw
      · exact h.mem_children hw
      · exact hws w (List.mem_cons_of_mem x hw)
    have hsame {xs : List ElementId} (hxs : xs.Sublist vs) :=
      ih (h.apart_children apart) hlater hxs
    -- Either the element visited first is within none of them, or all within it comes first.
    rcases List.sublist_cons_iff.1 hxs with hxs | ⟨rest, rfl, hrest⟩
    · have hnot : x ∉ xs.flatMap f.preorder := by
        rw [h.mem_flatMap_preorder fun y hy => hvs.mem h hlater (hxs.subset hy)]
        rintro ⟨y, hy, hxy⟩
        obtain ⟨w, hw, hyw⟩ := (hvs.mem_iff h).1 (hxs.subset hy)
        exact h.not_within_children apart w hw (hxy.trans hyw)
      rw [hsame hxs, List.filter_cons_of_neg (by simpa using hnot)]
    · obtain ⟨bs, hsplit, hbs⟩ := h.exists_preorder_append hvs hx apart
      rw [List.flatMap_cons]
      exact List.eraseDups_append_eq_filter (h.nodup_preorder hx) ((h.mem_preorder hx).2 .refl)
        hsplit hbs (hsame hrest)

theorem flatMap_preorder_sublist (hr : r ∈ f) (hxs : xs.Sublist (f.preorder r)) :
    (xs.flatMap f.preorder).eraseDups.Sublist (f.preorder r) := by
  have hone : ∀ w ∈ [r], w ∈ f := List.forall_mem_singleton.2 hr
  rw [h.eraseDups_flatMap_preorder (h.walks_preorder hr) (List.pairwise_singleton _ r) hone hxs]
  exact List.filter_sublist

/-- Children of elements in document order are in document order, if these elements are apart. -/
theorem flatMap_children_sublist (hr : r ∈ f) (hxs : xs.Sublist (f.preorder r))
    (hapart : xs.Pairwise f.Apart) : (xs.flatMap f.children).Sublist (f.preorder r) := by
  have hmem : ∀ x ∈ xs, x ∈ f := fun x hx => h.linked.mem_of_mem_preorder hr (hxs.subset hx)
  have hwalk : f.Walks xs (xs.flatMap f.preorder) :=
    .flatMap fun x hx => h.walks_preorder (hmem x hx)
  have hwhole := h.flatMap_preorder_sublist hr hxs
  rw [List.eraseDups_of_nodup (hwalk.nodup h hapart)] at hwhole
  refine List.Sublist.trans (List.Sublist.flatMap_right xs fun x hx => ?_) hwhole
  have hheads : ((f.children x).flatMap fun c => [c]).Sublist
      ((f.children x).flatMap f.preorder) := by
    refine List.Sublist.flatMap_right _ fun c hc => ?_
    exact List.singleton_sublist.2 ((h.mem_preorder (h.mem_children hc)).2 .refl)
  rw [List.flatMap_singleton'] at hheads
  rw [h.preorder_eq (hmem x hx)]
  exact hheads.cons x

theorem pairwise_flatMap_children (hapart : xs.Pairwise f.Apart) :
    (xs.flatMap f.children).Pairwise f.Apart := by
  induction xs with
  | nil => exact .nil
  | cons x xs ih =>
    obtain ⟨hx, hxs⟩ := List.pairwise_cons.1 hapart
    -- The children of the first element are apart from the others, so from their children too.
    obtain ⟨hchildren, -, hjoin⟩ := List.pairwise_append.1 (h.apart_children hapart)
    refine List.pairwise_append.2 ⟨hchildren, ih hxs, fun c hc d hd => ?_⟩
    obtain ⟨w, hw, hdw⟩ := List.mem_flatMap.1 hd
    intro y hyc hyd
    exact hjoin c hc w hw y hyc (hyd.tail (h.up_iff.2 hdw))

end WellFormed

theorem exists_flatMap_eq_filter (f : Forest) (hchild : s.kind ≠ .child)
    (hdown : s.kind ≠ .descendantOrSelf) (hparent : s.kind ≠ .parent) :
    ∃ P : ElementId → Bool, ∀ members : List ElementId,
      members.flatMap (f.results s) = members.filter P := by
  refine ⟨fun x => !(f.results s x).isEmpty, List.flatMap_eq_filter fun x => ?_⟩
  rcases f.results_test_cases hchild hdown hparent x with he | he
  · rw [he]
    rfl
  · rw [he]
    rfl

namespace WellFormed

variable (h : f.WellFormed) (hr : r ∈ f)

include h hr

/-- From the first step to descendants on, members that are found again are dropped. -/
theorem flow_sublist_of_eraseDups (hparent : ∀ s ∈ steps, s.kind ≠ .parent)
    (hchild : ∀ s ∈ steps, s.kind ≠ .child) (hxs : xs.eraseDups.Sublist (f.preorder r)) :
    (f.flow steps xs).eraseDups.Sublist (f.preorder r) := by
  induction steps generalizing xs with
  | nil => exact hxs
  | cons s steps ih =>
    rw [flow_cons]
    apply ih (fun t ht => hparent t (List.mem_cons_of_mem s ht))
      (fun t ht => hchild t (List.mem_cons_of_mem s ht))
    by_cases hdown : s.kind = .descendantOrSelf
    · rw [results_descendantOrSelf hdown, ← List.eraseDups_flatMap_eraseDups]
      exact h.flatMap_preorder_sublist hr hxs
    · obtain ⟨P, hP⟩ := f.exists_flatMap_eq_filter (hchild s List.mem_cons_self) hdown
        (hparent s List.mem_cons_self)
      rw [hP, List.eraseDups_filter]
      exact List.filter_sublist.trans hxs

/-- Before the first step to descendants, no member is within another one. -/
theorem flow_sublist (hparent : ∀ s ∈ steps, s.kind ≠ .parent)
    (horder : steps.Pairwise fun s t => s.kind = .descendantOrSelf → t.kind ≠ .child)
    (hxs : xs.Sublist (f.preorder r)) (hapart : xs.Pairwise f.Apart) :
    (f.flow steps xs).eraseDups.Sublist (f.preorder r) := by
  induction steps generalizing xs with
  | nil =>
    have hnodup := (h.nodup_preorder hr).sublist hxs
    show xs.eraseDups.Sublist _
    rwa [List.eraseDups_of_nodup hnodup]
  | cons s steps ih =>
    obtain ⟨hfirst, horder⟩ := List.pairwise_cons.1 horder
    have hlater : ∀ t ∈ steps, t.kind ≠ .parent := fun t ht =>
      hparent t (List.mem_cons_of_mem s ht)
    rw [flow_cons]
    by_cases hdown : s.kind = .descendantOrSelf
    · rw [results_descendantOrSelf hdown]
      exact h.flow_sublist_of_eraseDups hr hlater (fun t ht => hfirst t ht hdown)
        (h.flatMap_preorder_sublist hr hxs)
    · by_cases hchild : s.kind = .child
      · rw [results_child hchild]
        exact ih hlater horder (h.flatMap_children_sublist hr hxs hapart)
          (h.pairwise_flatMap_children hapart)
      · obtain ⟨P, hP⟩ := f.exists_flatMap_eq_filter hchild hdown (hparent s List.mem_cons_self)
        rw [hP]
        exact ih hlater horder (List.filter_sublist.trans hxs) (hapart.sublist List.filter_sublist)

end WellFormed

theorem WellFormed.seedMembers_sublist (h : f.WellFormed) (hn : n ∈ f) (seed : Seed) :
    (f.seedMembers seed n).Sublist (f.preorder (f.root n)) ∧
      (f.seedMembers seed n).Pairwise f.Apart := by
  have hr := h.root_mem hn
  have hn' : [n].Sublist (f.preorder (f.root n)) :=
    List.singleton_sublist.2 ((h.mem_preorder hr).2 (h.within_root n))
  have hone := List.pairwise_singleton f.Apart n
  cases seed with
  | root =>
    exact ⟨List.singleton_sublist.2 ((h.mem_preorder hr).2 .refl), List.pairwise_singleton _ _⟩
  | self => exact ⟨hn', hone⟩
  | children =>
    have hsub := h.flatMap_children_sublist hr hn' hone
    have hpairwise := h.pairwise_flatMap_children hone
    rw [List.flatMap_singleton] at hsub hpairwise
    exact ⟨hsub, hpairwise⟩

/-- A path without steps to parents, and without a step to children after one to descendants, finds
elements in document order, each once. -/
theorem WellFormed.select_sublist (h : f.WellFormed) (hn : n ∈ f) {p : Path}
    (hknown : ∀ s ∈ p.steps, s.IsKnown) (hparent : ∀ s ∈ p.steps, s.kind ≠ .parent)
    (horder : p.steps.Pairwise fun s t => s.kind = .descendantOrSelf → t.kind ≠ .child) :
    ∃ found, f.select p n = .ok found ∧
      found.members.Sublist (f.preorder (f.root n)) ∧ found.members.Nodup := by
  obtain ⟨found, hfound, hmembers⟩ := f.select_of_isKnown hknown n
  obtain ⟨hseeds, hapart⟩ := h.seedMembers_sublist hn p.seed
  have hsub := h.flow_sublist (h.root_mem hn) hparent horder hseeds hapart
  rw [← hmembers] at hsub
  exact ⟨found, hfound, hsub, (h.nodup_preorder (h.root_mem hn)).sublist hsub⟩

theorem WellFormed.select_sublist_row :
    let f := grove.edit (.addChild ⟨0⟩ (some ⟨2⟩) .null)
    let p : Path := ⟨"/*////*", .root, [.child, .descendantOrSelf, .descendantOrSelf]⟩
    f.WellFormed ∧ ⟨1⟩ ∈ f ∧ f.preorder (f.root ⟨1⟩) = [⟨0⟩, ⟨1⟩, ⟨2⟩] ∧
      ∃ found, f.select p ⟨1⟩ = .ok found ∧ found.members.Sublist [⟨0⟩, ⟨1⟩, ⟨2⟩] ∧
        found.members = [⟨1⟩, ⟨2⟩] := by
  intro f p
  have hreach : f.Reachable := reachable_grove.edit (by decide) id
  have hn : ⟨1⟩ ∈ f := by decide
  have hpreorder : f.preorder (f.root ⟨1⟩) = [⟨0⟩, ⟨1⟩, ⟨2⟩] := by decide
  have hkinds : ∀ s ∈ p.steps, s.kind = .child ∨ s.kind = .descendantOrSelf := by decide
  have hknown : ∀ s ∈ p.steps, s.IsKnown := by
    intro s hs label hlabel
    rcases hkinds s hs with hk | hk <;> cases hk.symm.trans hlabel
  have hparent : ∀ s ∈ p.steps, s.kind ≠ .parent := by decide
  obtain ⟨found, hfound, hsub, -⟩ :=
    hreach.wellFormed.select_sublist hn hknown hparent (by decide)
  rw [hpreorder] at hsub
  refine ⟨hreach.wellFormed, hn, hpreorder, found, hfound, hsub, ?_⟩
  rw [f.select_eq_of_isKnown hknown] at hfound
  cases hfound
  decide

end TreePath.Forest
