import TreePath.Proofs.Forest.Edits

namespace TreePath

namespace Forest

/-- The element that is so many links further up. -/
def above? (f : Forest) : Nat → ElementId → Option ElementId
  | 0, x => some x
  | n + 1, x => (f.parent? x).bind (f.above? n)

variable {f : Forest} {c : Cursor} {p r x y : ElementId} {ws vs vs' : List ElementId} {n : Nat}

theorem visits_unique (h : c.Visits f vs) (h' : c.Visits f vs') : vs = vs' := by
  induction h generalizing vs' with
  | done hnext =>
    cases h' with
    | done => rfl
    | visit hnext' _ =>
      rw [hnext] at hnext'
      cases hnext'
  | visit hnext _ ih =>
    cases h' with
    | done hnext' =>
      rw [hnext] at hnext'
      cases hnext'
    | visit hnext' h' =>
      rw [hnext] at hnext'
      cases hnext'
      rw [ih h']

theorem above?_of_up (hp : f.Up x p) (n : Nat) : f.above? (n + 1) x = f.above? n p := by
  rw [Up] at hp
  rw [above?, hp, Option.bind_some]

theorem root_of_parent?_none (hx : f.parent? x = none) : f.root x = x := by
  rw [root, ancestors, ancestorsWithin_of_root hx]
  rfl

namespace Linked

variable (h : f.Linked)

include h

theorem within_root (x : ElementId) : f.Within x (f.root x) := by
  induction x using h.parent_induction with
  | step x ih =>
    cases hx : f.parent? x with
    | none =>
      rw [root_of_parent?_none hx]
    | some p =>
      rw [h.root_of_up hx]
      exact (ih p hx).head hx

theorem root_mem (hx : x ∈ f) : f.root x ∈ f := by
  rcases (h.within_root x).eq_or_below with he | hb
  · rwa [← he]
  · exact h.below_mem hb

theorem root_of_within (hy : f.Within y x) : f.root y = f.root x := by
  induction hy using Relation.ReflTransGen.head_induction_on with
  | refl => rfl
  | head hp _ ih =>
    rw [h.root_of_up hp, ih]

end Linked

namespace WellFormed

variable (h : f.WellFormed)

include h

theorem visits_preorder (hx : x ∈ f) : (Cursor.start x).Visits f (f.preorder x) :=
  (h.walks_preorder hx).visits rfl

theorem within_root (x : ElementId) : f.Within x (f.root x) :=
  h.linked.within_root x

theorem root_mem (hx : x ∈ f) : f.root x ∈ f :=
  h.linked.root_mem hx

theorem root_of_within (hy : f.Within y x) : f.root y = f.root x :=
  h.linked.root_of_within hy

theorem within_iff_eq_root (hr : f.parent? r = none) : f.Within x r ↔ r = f.root x := by
  constructor
  · intro hx
    rw [h.root_of_within hx, root_of_parent?_none hr]
  · intro he
    rw [he]
    exact h.within_root x

theorem count_preorder (hr : r ∈ f) (hroot : f.parent? r = none) (x : ElementId) :
    (f.preorder r).count x = if r = f.root x then 1 else 0 := by
  have hmem : x ∈ f.preorder r ↔ r = f.root x := by
    rw [h.mem_preorder hr, h.within_iff_eq_root hroot]
  split
  · next he => exact List.count_eq_one_of_mem (h.nodup_preorder hr) (hmem.2 he)
  · next he => exact List.count_eq_zero_of_not_mem (mt hmem.1 he)

theorem depth_lt_of_below (hb : f.Below y x) : f.depth x < f.depth y := by
  induction hb with
  | single hp =>
    rw [h.depth_of_up hp]
    exact Nat.lt_succ_self _
  | tail _ hp ih =>
    rw [h.depth_of_up hp] at ih
    exact Nat.lt_of_succ_lt ih

theorem depth_le_of_within (hy : f.Within y x) : f.depth x ≤ f.depth y := by
  rcases hy.eq_or_below with rfl | hb
  · exact Nat.le_refl _
  · exact Nat.le_of_lt (h.depth_lt_of_below hb)

/-- Climbing meets an element above exactly once: when the difference of the depths is used up. -/
theorem above?_eq_some_iff : f.above? n y = some x ↔ f.Within y x ∧ f.depth y = f.depth x + n := by
  induction n generalizing y with
  | zero =>
    constructor
    · intro he
      cases he
      exact ⟨.refl, rfl⟩
    · rintro ⟨hy, hd⟩
      rcases hy.eq_or_below with rfl | hb
      · rfl
      · have hlt := h.depth_lt_of_below hb
        omega
  | succ n ih =>
    constructor
    · intro hn
      cases hy : f.parent? y with
      | none =>
        rw [above?, hy] at hn
        cases hn
      | some p =>
        rw [above?_of_up hy, ih] at hn
        obtain ⟨hp, hd⟩ := hn
        refine ⟨hp.head hy, ?_⟩
        rw [h.depth_of_up hy, hd]
        rfl
    · rintro ⟨hy, hd⟩
      rcases Relation.ReflTransGen.cases_head hy with rfl | ⟨p, hp, hpx⟩
      · omega
      · rw [h.depth_of_up hp] at hd
        rw [above?_of_up hp, ih]
        exact ⟨hpx, by omega⟩

theorem climb_of_within (hy : f.Within y x) :
    ∃ n, f.depth y = f.depth x + n ∧ ∀ m, f.above? m y = some x ↔ m = n := by
  have hle := h.depth_le_of_within hy
  refine ⟨f.depth y - f.depth x, by omega, fun m => ?_⟩
  rw [h.above?_eq_some_iff]
  constructor
  · rintro ⟨_, hd⟩
    omega
  · intro hm
    exact ⟨hy, by omega⟩

end WellFormed

/-- A walk to the end visits an element and then, child by child, what is beneath it: each element
once, and just those that climb to where the walk began, in as many links as they are deeper. Each
element is visited from its root and from no other element without a parent. -/
theorem Reachable.navigation_agrees (h : f.Reachable) (hx : x ∈ f) :
    (∀ vs, (Cursor.start x).Visits f vs ↔ vs = f.preorder x) ∧
    f.preorder x = x :: (f.children x).flatMap f.preorder ∧
    (f.preorder x).Nodup ∧
    (∀ y, y ∈ f.preorder x ↔ y = x ∨ f.isAncestorOf x y = true) ∧
    (∀ y ∈ f.preorder x,
      (∃ n, f.depth y = f.depth x + n ∧ ∀ m, f.above? m y = some x ↔ m = n) ∧
      f.root y = f.root x) ∧
    (f.root x ∈ f ∧ f.parent? (f.root x) = none ∧
      ∀ r ∈ f, f.parent? r = none → (f.preorder r).count x = if r = f.root x then 1 else 0) := by
  have hf := h.wellFormed
  have hvisits := hf.visits_preorder hx
  have hmem (y : ElementId) : y ∈ f.preorder x ↔ y = x ∨ f.isAncestorOf x y = true := by
    rw [hf.mem_preorder hx, hf.isAncestorOf_iff]
    constructor
    · exact Within.eq_or_below
    · rintro (rfl | hb)
      · exact .refl
      · exact hb.to_reflTransGen
  have hclimb : ∀ y ∈ f.preorder x,
      (∃ n, f.depth y = f.depth x + n ∧ ∀ m, f.above? m y = some x ↔ m = n) ∧
      f.root y = f.root x := by
    intro y hy
    rw [hf.mem_preorder hx] at hy
    exact ⟨hf.climb_of_within hy, hf.root_of_within hy⟩
  have honce : ∀ r ∈ f, f.parent? r = none →
      (f.preorder r).count x = if r = f.root x then 1 else 0 := by
    intro r hr hroot
    exact hf.count_preorder hr hroot x
  have hwalk (vs : List ElementId) : (Cursor.start x).Visits f vs ↔ vs = f.preorder x := by
    constructor
    · intro hvs
      exact visits_unique hvs hvisits
    · rintro rfl
      exact hvisits
  exact ⟨hwalk, hf.preorder_eq hx, hf.nodup_preorder hx, hmem, hclimb, hf.root_mem hx,
    hf.parent?_root x, honce⟩

theorem Reachable.navigation_agrees_grove :
    let f := grove.edit (.addChild ⟨2⟩ (some ⟨0⟩) .null)
    f.Reachable ∧ ⟨2⟩ ∈ f ∧ (Cursor.start ⟨2⟩).Visits f [⟨2⟩, ⟨0⟩, ⟨1⟩] ∧
      f.isAncestorOf ⟨2⟩ ⟨1⟩ = true ∧ f.above? 2 ⟨1⟩ = some ⟨2⟩ ∧ f.root ⟨1⟩ = f.root ⟨2⟩ ∧
      (f.preorder ⟨2⟩).count ⟨2⟩ = 1 := by
  intro f
  have h : f.Reachable := reachable_grove.edit (by decide) id
  have hx : (⟨2⟩ : ElementId) ∈ f := by decide
  obtain ⟨hwalk, -, -, hmem, hclimb, -, -, honce⟩ := h.navigation_agrees hx
  have hpre : f.preorder ⟨2⟩ = [⟨2⟩, ⟨0⟩, ⟨1⟩] := by decide
  have hb : (⟨1⟩ : ElementId) ∈ f.preorder ⟨2⟩ := by decide
  obtain ⟨⟨n, hn, hlinks⟩, hroot⟩ := hclimb ⟨1⟩ hb
  have htwo : n = 2 := by
    have hdeep : f.depth ⟨1⟩ = 2 := by decide
    have htop : f.depth ⟨2⟩ = 0 := by decide
    omega
  have hcount := honce ⟨2⟩ hx (by decide)
  refine ⟨h, hx, (hwalk _).2 hpre.symm, ?_, (hlinks 2).2 htwo.symm, hroot, ?_⟩
  · exact ((hmem ⟨1⟩).1 hb).resolve_left (by decide)
  · rw [hcount]
    decide

end Forest

end TreePath
