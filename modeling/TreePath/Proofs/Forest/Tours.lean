import TreePath.Proofs.Forest.Navigation
import TreePath.Proofs.Forest.Partings

namespace TreePath

/-- The elements whose subtrees a cursor has still to walk. -/
def Cursor.stack (k : Cursor) (g : Forest) : List ElementId :=
  (k.visited.map g.children).getD [] ++ k.waiting

theorem Cursor.next_of_some {g : Forest} {k k' : Cursor} {y : ElementId}
    (h : k.next g = (some y, k')) :
    k'.visited = some y ∧ k.stack g = y :: k'.waiting := by
  unfold next at h
  split at h
  · cases h
  · next hstack =>
    cases h
    exact ⟨rfl, hstack⟩

theorem Cursor.next_of_none {g : Forest} {k k' : Cursor} (h : k.next g = (none, k')) :
    k' = { waiting := [] } ∧ k.stack g = [] := by
  unfold next at h
  split at h
  · next hstack =>
    cases h
    exact ⟨rfl, hstack⟩
  · cases h

namespace Forest

variable {f g g' : Forest} {c p v w x y : ElementId} {k : Cursor} {ws vs : List ElementId}

/-- A walk from `x` under way, which was begun in `f`: the forest now, the cursor and what has been
visited. -/
inductive Tour (f : Forest) (x : ElementId) : Forest → Cursor → List ElementId → Prop
  | start : Tour f x f (.start x) []
  | visit {g : Forest} {k k' : Cursor} {vs : List ElementId} {y : ElementId} :
    Tour f x g k vs → k.next g = (some y, k') → Tour f x g k' (vs ++ [y])
  | stop {g : Forest} {k k' : Cursor} {vs : List ElementId} :
    Tour f x g k vs → k.next g = (none, k') → Tour f x g k' vs
  | createChild {g : Forest} {k : Cursor} {vs : List ElementId} {p : ElementId}
    {tag : Json} {attributes : List (Json × Json)} {text : Json} :
    Tour f x g k vs → p ∈ g → Tour f x (g.edit (.createChild p tag attributes text)) k vs
  | removeChild {g : Forest} {k : Cursor} {vs : List ElementId} {p : ElementId}
    {offered : Option ElementId} :
    Tour f x g k vs → p ∈ g → (∀ c ∈ offered, c ∈ g) →
      Tour f x (g.edit (.removeChild p offered)) k vs

/-- The element is `x` or beneath it, in both forests. -/
def Stays (f g : Forest) (x y : ElementId) : Prop :=
  (y = x ∨ f.isAncestorOf x y = true) ∧ (y = x ∨ g.isAncestorOf x y = true)

instance (f g : Forest) (x : ElementId) : DecidablePred (f.Stays g x) :=
  fun _ => inferInstanceAs (Decidable (_ ∧ _))

theorem stays_iff (hf : f.WellFormed) (hg : g.WellFormed) :
    f.Stays g x y ↔ f.Within y x ∧ g.Within y x := by
  have key {f : Forest} (hf : f.WellFormed) :
      (y = x ∨ f.isAncestorOf x y = true) ↔ f.Within y x := by
    rw [hf.isAncestorOf_iff]
    constructor
    · rintro (rfl | hb)
      · exact .refl
      · exact hb.to_reflTransGen
    · exact Within.eq_or_below
  rw [Stays, key hf, key hg]

/-- A walk that was begun at `x` in `f` has visited `vs` and what is beneath them, apart from the
elements `ws` that wait. -/
structure Pending (f : Forest) (x : ElementId) (g : Forest) (vs ws : List ElementId) : Prop where
  wellFormed : g.WellFormed
  mem : ∀ y ∈ f, y ∈ g
  visited_mem : ∀ v ∈ vs, v ∈ g
  waiting_mem : ∀ w ∈ ws, w ∈ g
  nodup : vs.Nodup
  apart : ws.Pairwise g.Apart
  fresh : ∀ v ∈ vs, ∀ w ∈ ws, ¬ g.Within v w
  above : ∀ w ∈ ws, ¬ g.Below x w
  filter_eq :
    (vs ++ ws.flatMap g.preorder).filter (f.Stays g x) = (f.preorder x).filter (f.Stays g x)

namespace Pending

theorem start (hf : f.WellFormed) (hx : x ∈ f) : f.Pending x f [] [x] where
  wellFormed := hf
  mem _ hy := hy
  visited_mem := nofun
  waiting_mem w hw := List.mem_singleton.1 hw ▸ hx
  nodup := .nil
  apart := List.pairwise_singleton _ _
  fresh := nofun
  above w hw := List.mem_singleton.1 hw ▸ hf.acyclic x
  filter_eq := by simp

theorem visit (h : f.Pending x g vs (v :: ws)) :
    f.Pending x g (vs ++ [v]) (g.children v ++ ws) := by
  have hg := h.wellFormed
  have hv := h.waiting_mem v List.mem_cons_self
  have hmem : ∀ w ∈ g.children v ++ ws, w ∈ g ∧ ∃ u ∈ v :: ws, g.Within w u := by
    intro w hw
    rcases List.mem_append.1 hw with hc | hw
    · exact ⟨hg.mem_children hc, v, List.mem_cons_self, .single (hg.up_iff.2 hc)⟩
    · have hw := List.mem_cons_of_mem v hw
      exact ⟨h.waiting_mem w hw, w, hw, .refl⟩
  refine ⟨hg, h.mem, ?_, fun w hw => (hmem w hw).1, ?_, hg.apart_children h.apart, ?_, ?_, ?_⟩
  · intro u hu
    rcases List.mem_append.1 hu with hu | hu
    · exact h.visited_mem u hu
    · rwa [List.mem_singleton.1 hu]
  · have hnew : v ∉ vs := fun hvs => h.fresh v hvs v List.mem_cons_self .refl
    rw [← List.concat_eq_append, List.nodup_concat]
    exact ⟨hnew, h.nodup⟩
  · intro u hu w hw huw
    rcases List.mem_append.1 hu with hu | hu
    · obtain ⟨t, ht, hwt⟩ := (hmem w hw).2
      exact h.fresh u hu t ht (huw.trans hwt)
    · rw [List.mem_singleton.1 hu] at huw
      exact hg.not_within_children h.apart w hw huw
  · intro w hw hxw
    obtain ⟨t, ht, hwt⟩ := (hmem w hw).2
    exact h.above t ht (.trans_left hxw hwt)
  · have hwalk : vs ++ [v] ++ (g.children v ++ ws).flatMap g.preorder =
        vs ++ (v :: ws).flatMap g.preorder := by
      rw [List.flatMap_cons, hg.preorder_eq hv, List.flatMap_append]
      simp
    rw [hwalk]
    exact h.filter_eq

section

variable (h : f.Pending x g vs ws) (hf : f.WellFormed) (hx : x ∈ f) (hparts : g.Parts g' c)
  (hg' : g'.WellFormed)

include h hf hx hg'

theorem mem_of_stays (hy : f.Stays g' x y) : y ∈ g ∧ g'.Within y x := by
  obtain ⟨hfx, hgx⟩ := (stays_iff hf hg').1 hy
  refine ⟨?_, hgx⟩
  rcases hfx.eq_or_below with rfl | hb
  · exact h.mem y hx
  · exact h.mem y hb.mem

include hparts

theorem stays_of_parts (hy : f.Stays g' x y) : f.Stays g x y := by
  obtain ⟨hyg, hgx⟩ := h.mem_of_stays hf hx hg' hy
  rw [stays_iff hf h.wellFormed]
  exact ⟨((stays_iff hf hg').1 hy).1, hparts.within h.wellFormed hyg hgx⟩

/-- If `x` parts too, nothing that waits is above; else nothing that parts stays. -/
theorem filter_preorder_parts (hw : w ∈ ws) :
    (g'.preorder w).filter (f.Stays g' x) = (g.preorder w).filter (f.Stays g' x) := by
  have hg := h.wellFormed
  have hwg := h.waiting_mem w hw
  by_cases hxc : g.Within x c
  · have hc : c ∈ g := by
      rcases hxc.eq_or_below with rfl | hb
      · exact h.mem x hx
      · exact hg.below_mem hb
    have hcw : ¬ g.Below c w := fun hb => h.above w hw (.trans_right hxc hb)
    rw [hparts.preorder_eq hg hg' hc hwg hcw]
  · have hparted (y : ElementId) (hy : g.Within y c) : ¬ f.Stays g' x y := by
      intro hstays
      obtain ⟨hyg, hgx⟩ := h.mem_of_stays hf hx hg' hstays
      exact hparts.not_within_parted hg (h.mem x hx) hxc hyg hgx hy
    have hparted' (y : ElementId) (hy : g'.Within y c) : ¬ f.Stays g' x y := by
      intro hstays
      obtain ⟨hyg, _⟩ := h.mem_of_stays hf hx hg' hstays
      exact hparted y (hparts.within hg hyg hy) hstays
    exact hparts.filter_preorder hg hg' (fun y hy => decide_eq_false (hparted y hy))
      (fun y hy => decide_eq_false (hparted' y hy)) hwg

theorem parts : f.Pending x g' vs ws := by
  have hg := h.wellFormed
  have hwithin {y z : ElementId} (hy : y ∈ g) (hw : g'.Within y z) : g.Within y z :=
    hparts.within hg hy hw
  have hthin (us : List ElementId) :
      (us.filter (f.Stays g x)).filter (f.Stays g' x) = us.filter (f.Stays g' x) := by
    rw [List.filter_filter]
    apply List.filter_congr
    intro y _
    rw [Bool.and_eq_left_iff_imp]
    simpa using h.stays_of_parts hf hx hparts hg'
  have hwaiting : (ws.flatMap g'.preorder).filter (f.Stays g' x) =
      (ws.flatMap g.preorder).filter (f.Stays g' x) := by
    rw [List.filter_flatMap, List.filter_flatMap]
    apply List.flatMap_congr
    intro w hw
    exact h.filter_preorder_parts hf hx hparts hg' hw
  refine ⟨hg', fun y hy => hparts.mem y (h.mem y hy), fun v hv => hparts.mem v (h.visited_mem v hv),
    fun w hw => hparts.mem w (h.waiting_mem w hw), h.nodup, ?_, ?_, ?_, ?_⟩
  · apply h.apart.imp_of_mem
    intro a b ha hb hab
    rw [apart_iff] at hab ⊢
    exact ⟨fun hw => hab.1 (hwithin (h.waiting_mem a ha) hw),
      fun hw => hab.2 (hwithin (h.waiting_mem b hb) hw)⟩
  · intro v hv w hw hvw
    exact h.fresh v hv w hw (hwithin (h.visited_mem v hv) hvw)
  · intro w hw hb
    exact h.above w hw (hparts.below hg (h.mem x hx) hb)
  · rw [List.filter_append, hwaiting, ← List.filter_append, ← hthin, h.filter_eq, hthin]

end

theorem edit (h : f.Pending x g vs ws) (hf : f.WellFormed) (hx : x ∈ f) {e : Edit}
    (he : ∀ y ∈ e.elements, y ∈ g) (hplace : ¬ g.Misplaces e)
    (hcases : g.edit e = g ∨ ∃ c, g.Parts (g.edit e) c) : f.Pending x (g.edit e) vs ws := by
  rcases hcases with hsame | ⟨c, hparts⟩
  · rwa [hsame]
  · exact h.parts hf hx hparts (h.wellFormed.edit he hplace)

/-- The element visited last counts as visited once its children are looked up. -/
theorem look (h : f.Pending x g vs (k.visited.toList ++ k.waiting)) :
    f.Pending x g (vs ++ k.visited.toList) (k.stack g) := by
  obtain ⟨visited, waiting⟩ := k
  cases visited with
  | none =>
    rw [Option.toList_none, List.append_nil]
    exact h
  | some v => exact h.visit

end Pending

theorem edit_createChild_cases (hg : g.WellFormed) (hp : p ∈ g) (tag : Json)
    (attributes : List (Json × Json)) (text : Json) :
    g.edit (.createChild p tag attributes text) = g ∨
      ∃ c, g.Parts (g.edit (.createChild p tag attributes text)) c := by
  simp only [edit]
  split
  · exact .inr ⟨_, hg.parts_createChild hp _⟩
  · exact .inl rfl

theorem edit_removeChild_cases (hg : g.WellFormed) (p : ElementId) (offered : Option ElementId) :
    g.edit (.removeChild p offered) = g ∨ ∃ c, g.Parts (g.edit (.removeChild p offered)) c := by
  simp only [edit, removeChild?]
  split
  · exact .inl rfl
  · split
    · exact .inr ⟨_, hg.parts_detach _⟩
    · exact .inl rfl

namespace Tour

/-- What waits is beneath the element visited last, or was already waiting. -/
theorem pending (ht : f.Tour x g k vs) (hf : f.WellFormed) (hx : x ∈ f) :
    ∃ us, vs = us ++ k.visited.toList ∧ f.Pending x g us (k.visited.toList ++ k.waiting) := by
  induction ht with
  | start => exact ⟨[], rfl, .start hf hx⟩
  | visit _ hnext ih =>
    obtain ⟨us, rfl, h⟩ := ih
    obtain ⟨hvisited, hstack⟩ := Cursor.next_of_some hnext
    have hlook := h.look
    rw [hstack] at hlook
    rw [hvisited]
    exact ⟨_, rfl, hlook⟩
  | stop _ hnext ih =>
    obtain ⟨us, rfl, h⟩ := ih
    obtain ⟨rfl, hstack⟩ := Cursor.next_of_none hnext
    have hlook := h.look
    rw [hstack] at hlook
    exact ⟨_, (List.append_nil _).symm, hlook⟩
  | createChild _ hp ih =>
    obtain ⟨us, rfl, h⟩ := ih
    refine ⟨us, rfl, h.edit hf hx ?_ id (edit_createChild_cases h.wellFormed hp _ _ _)⟩
    simpa [Edit.elements] using hp
  | removeChild _ hp hoffered ih =>
    obtain ⟨us, rfl, h⟩ := ih
    refine ⟨us, rfl, h.edit hf hx ?_ id (edit_removeChild_cases h.wellFormed _ _)⟩
    simpa [Edit.elements, hp] using hoffered

end Tour

/-- A walk visits no element twice, whatever children are made and removed on the way. When it finds
no more, it has visited the elements that have stayed beneath its start once each, in the order that
they had when it began. -/
theorem Reachable.tour_keeps (h : f.Reachable) (hx : x ∈ f) (ht : f.Tour x g k vs) :
    vs.Nodup ∧ ((k.next g).1 = none →
      (∀ y, (y = x ∨ f.isAncestorOf x y = true) → (y = x ∨ g.isAncestorOf x y = true) →
        vs.count y = 1) ∧
      vs.filter (f.Stays g x) = (f.preorder x).filter (f.Stays g x)) := by
  have hf := h.wellFormed
  obtain ⟨us, rfl, hpending⟩ := ht.pending hf hx
  have hlook := hpending.look
  refine ⟨hlook.nodup, ?_⟩
  intro hend
  obtain ⟨_, hstack⟩ := Cursor.next_of_none (Prod.ext hend rfl)
  have horder := hlook.filter_eq
  rw [hstack, List.flatMap_nil, List.append_nil] at horder
  refine ⟨?_, horder⟩
  intro y hstart hnow
  have hstays : f.Stays g x y := ⟨hstart, hnow⟩
  have hwithin := ((stays_iff hf hlook.wellFormed).1 hstays).1
  have hmem : y ∈ (f.preorder x).filter (f.Stays g x) :=
    List.mem_filter.2 ⟨(hf.mem_preorder hx).2 hwithin, decide_eq_true hstays⟩
  rw [← horder] at hmem
  exact List.count_eq_one_of_mem hlook.nodup (List.mem_of_mem_filter hmem)

/-- The child `b` of `a` is removed when it has just been visited, and gets a child of its own,
which is visited too. The other child stays. -/
theorem Reachable.tour_keeps_grove :
    let f := grove.edit (.addChild ⟨0⟩ (some ⟨2⟩) .null)
    let g := (f.edit (.removeChild ⟨0⟩ (some ⟨1⟩))).edit (.createChild ⟨1⟩ (.str "d") [] .null)
    let vs : List ElementId := [⟨0⟩, ⟨1⟩, ⟨3⟩, ⟨2⟩]
    f.Reachable ∧ ⟨0⟩ ∈ f ∧ f.Tour ⟨0⟩ g ⟨some ⟨2⟩, []⟩ vs ∧
      (Cursor.next ⟨some ⟨2⟩, []⟩ g).1 = none ∧
      vs.Nodup ∧ vs.count ⟨2⟩ = 1 ∧ vs.filter (f.Stays g ⟨0⟩) = [⟨0⟩, ⟨2⟩] := by
  intro f g vs
  have h : f.Reachable := reachable_grove.edit (by decide) id
  have hx : (⟨0⟩ : ElementId) ∈ f := by decide
  have hfirst : f.Tour ⟨0⟩ f ⟨some ⟨0⟩, []⟩ ([] ++ [⟨0⟩]) := .visit .start (by decide)
  have hsecond : f.Tour ⟨0⟩ f ⟨some ⟨1⟩, [⟨2⟩]⟩ ([] ++ [⟨0⟩] ++ [⟨1⟩]) := .visit hfirst (by decide)
  have hedits : f.Tour ⟨0⟩ g ⟨some ⟨1⟩, [⟨2⟩]⟩ ([] ++ [⟨0⟩] ++ [⟨1⟩]) :=
    .createChild (.removeChild hsecond (by decide) (by decide)) (by decide)
  have hthird : f.Tour ⟨0⟩ g ⟨some ⟨3⟩, [⟨2⟩]⟩ ([] ++ [⟨0⟩] ++ [⟨1⟩] ++ [⟨3⟩]) :=
    .visit hedits (by decide)
  have ht : f.Tour ⟨0⟩ g ⟨some ⟨2⟩, []⟩ vs := .visit hthird (by decide)
  have hend : (Cursor.next ⟨some ⟨2⟩, []⟩ g).1 = none := by decide
  obtain ⟨hnodup, hkept⟩ := h.tour_keeps hx ht
  obtain ⟨hcount, horder⟩ := hkept hend
  refine ⟨h, hx, ht, hend, hnodup, hcount ⟨2⟩ (by decide) (by decide), ?_⟩
  rw [horder]
  decide

end Forest

end TreePath
