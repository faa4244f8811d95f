import TreePath.Forest.Walk
import TreePath.Proofs.Forest.Ancestors

namespace TreePath.Forest

/-- A walk that goes on until no element waits. -/
inductive Walks (f : Forest) : List ElementId → List ElementId → Prop
  | done : Walks f [] []
  | visit {x : ElementId} {ws vs : List ElementId} :
    Walks f (f.children x ++ ws) vs → Walks f (x :: ws) (x :: vs)

/-- No element is within both. -/
def Apart (f : Forest) (a b : ElementId) : Prop :=
  ∀ y, f.Within y a → ¬ f.Within y b

variable {f g : Forest} {a b c x y : ElementId} {ws ws' vs vs' : List ElementId} {n : Nat}

theorem apart_iff : f.Apart a b ↔ ¬ f.Within a b ∧ ¬ f.Within b a := by
  constructor
  · intro h
    exact ⟨h a .refl, fun hba => h b hba .refl⟩
  · rintro ⟨hab, hba⟩ y hya hyb
    rcases hya.total hyb with hw | hw
    · exact hab hw
    · exact hba hw

theorem walk_congr (hchildren : ∀ x, g.children x = f.children x) (n : Nat)
    (ws : List ElementId) : g.walk n ws = f.walk n ws := by
  induction n generalizing ws with
  | zero => rfl
  | succ n ih =>
    cases ws with
    | nil => rfl
    | cons w ws => rw [walk, walk, hchildren, ih]

theorem preorder_eq_of_children_eq (hsize : g.size = f.size)
    (hchildren : ∀ x, g.children x = f.children x) (x : ElementId) :
    g.preorder x = f.preorder x := by
  rw [preorder, hsize, walk_congr hchildren, preorder]

namespace WellFormed

/-- Elements that wait stay apart when the first of them makes room for its children. -/
theorem apart_children (h : f.WellFormed) (apart : (x :: ws).Pairwise f.Apart) :
    (f.children x ++ ws).Pairwise f.Apart := by
  obtain ⟨hx, hws⟩ := List.pairwise_cons.1 apart
  have hchildren : (f.children x).Pairwise f.Apart :=
    (h.nodup_children x).imp_of_mem fun ha hb hne y => h.siblings_apart ha hb hne
  have hjoin : ∀ c ∈ f.children x, ∀ w ∈ ws, f.Apart c w := by
    intro c hc w hw y hy
    exact hx w hw y (hy.tail (h.up_iff.2 hc))
  exact List.pairwise_append.2 ⟨hchildren, hws, hjoin⟩

theorem not_within_children (h : f.WellFormed) (apart : (x :: ws).Pairwise f.Apart) :
    ∀ w ∈ f.children x ++ ws, ¬ f.Within x w := by
  intro w hw
  rcases List.mem_append.1 hw with hc | hw
  · exact h.not_within_of_up (h.up_iff.2 hc)
  · exact (List.pairwise_cons.1 apart).1 w hw x .refl

end WellFormed

namespace Walks

theorem append (h : f.Walks ws vs) (h' : f.Walks ws' vs') :
    f.Walks (ws ++ ws') (vs ++ vs') := by
  induction h with
  | done => exact h'
  | visit _ ih =>
    rw [List.append_assoc] at ih
    exact .visit ih

theorem flatMap {g : ElementId → List ElementId} (h : ∀ w ∈ ws, f.Walks [w] (g w)) :
    f.Walks ws (ws.flatMap g) := by
  induction ws with
  | nil => exact .done
  | cons w ws ih =>
    rw [List.flatMap_cons]
    exact (h w List.mem_cons_self).append (ih fun v hv => h v (List.mem_cons_of_mem _ hv))

theorem unique (h : f.Walks ws vs) (h' : f.Walks ws vs') : vs = vs' := by
  induction h generalizing vs' with
  | done =>
    cases h'
    rfl
  | visit _ ih =>
    cases h' with
    | visit h' => rw [ih h']

theorem walk_eq (h : f.Walks ws vs) (hn : vs.length ≤ n) : f.walk n ws = vs := by
  induction h generalizing n with
  | done => cases n <;> rfl
  | visit _ ih =>
    cases n with
    | zero => cases hn
    | succ n => rw [walk, ih (Nat.le_of_succ_le_succ hn)]

theorem mem_iff (h : f.Walks ws vs) (hf : f.WellFormed) :
    y ∈ vs ↔ ∃ w ∈ ws, f.Within y w := by
  induction h with
  | done => simp
  | @visit x ws vs _ ih =>
    rw [List.mem_cons, ih]
    constructor
    · rintro (rfl | ⟨w, hw, hy⟩)
      · exact ⟨y, List.mem_cons_self, .refl⟩
      · rcases List.mem_append.1 hw with hc | hw
        · exact ⟨x, List.mem_cons_self, hy.tail (hf.up_iff.2 hc)⟩
        · exact ⟨w, List.mem_cons_of_mem _ hw, hy⟩
    · rintro ⟨w, hw, hy⟩
      rcases List.mem_cons.1 hw with rfl | hw
      · rcases hf.within_iff.1 hy with he | ⟨c, hc, hy⟩
        · exact .inl he
        · exact .inr ⟨c, List.mem_append_left _ hc, hy⟩
      · exact .inr ⟨w, List.mem_append_right _ hw, hy⟩

theorem mem (h : f.Walks ws vs) (hf : f.WellFormed) (hws : ∀ w ∈ ws, w ∈ f) (hy : y ∈ vs) :
    y ∈ f := by
  obtain ⟨w, hw, hyw⟩ := (h.mem_iff hf).1 hy
  rcases hyw.eq_or_below with rfl | hb
  · exact hws y hw
  · exact hb.mem

theorem nodup (h : f.Walks ws vs) (hf : f.WellFormed) (apart : ws.Pairwise f.Apart) :
    vs.Nodup := by
  induction h with
  | done => exact .nil
  | @visit x ws vs hvs ih =>
    have hnotMem : x ∉ vs := by
      rw [hvs.mem_iff hf]
      rintro ⟨w, hw, hxw⟩
      exact hf.not_within_children apart w hw hxw
    exact List.nodup_cons.2 ⟨hnotMem, ih (hf.apart_children apart)⟩

theorem map {φ : ElementId → ElementId} (h : f.Walks ws vs) (hf : f.WellFormed)
    (hchildren : ∀ w ∈ ws, ∀ y, f.Within y w → g.children (φ y) = (f.children y).map φ) :
    g.Walks (ws.map φ) (vs.map φ) := by
  induction h with
  | done => exact .done
  | @visit x ws vs _ ih =>
    apply visit
    rw [hchildren x List.mem_cons_self x .refl, ← List.map_append]
    apply ih
    intro w hw y hy
    rcases List.mem_append.1 hw with hc | hw
    · exact hchildren x List.mem_cons_self y (hy.tail (hf.up_iff.2 hc))
    · exact hchildren w (List.mem_cons_of_mem x hw) y hy

end Walks

namespace WellFormed

variable (h : f.WellFormed)

include h

theorem exists_walks (x : ElementId) : ∃ vs, f.Walks [x] vs := by
  induction x using h.child_induction with
  | step x ih =>
    have hchildren : ∀ ws : List ElementId, (∀ w ∈ ws, ∃ vs, f.Walks [w] vs) →
        ∃ vs, f.Walks ws vs := by
      intro ws hws
      induction ws with
      | nil => exact ⟨[], .done⟩
      | cons w ws ih =>
        obtain ⟨vs, hvs⟩ := hws w List.mem_cons_self
        obtain ⟨us, hus⟩ := ih fun v hv => hws v (List.mem_cons_of_mem _ hv)
        exact ⟨vs ++ us, hvs.append hus⟩
    obtain ⟨vs, hvs⟩ := hchildren _ ih
    exact ⟨x :: vs, .visit (by rwa [List.append_nil])⟩

theorem length_le_size_of_walks (hx : x ∈ f) (hvs : f.Walks [x] vs) : vs.length ≤ f.size := by
  have hone : ∀ w ∈ [x], w ∈ f := List.forall_mem_singleton.2 hx
  exact length_le_size (hvs.nodup h (List.pairwise_singleton _ _)) fun y => hvs.mem h hone

theorem walks_preorder (hx : x ∈ f) : f.Walks [x] (f.preorder x) := by
  obtain ⟨vs, hvs⟩ := h.exists_walks x
  rwa [preorder, hvs.walk_eq (h.length_le_size_of_walks hx hvs)]

theorem walk_eq_preorder (hx : x ∈ f) (hn : f.size ≤ n) : f.walk n [x] = f.preorder x := by
  have hvs := h.walks_preorder hx
  exact hvs.walk_eq (Nat.le_trans (h.length_le_size_of_walks hx hvs) hn)

theorem preorder_eq (hx : x ∈ f) :
    f.preorder x = x :: (f.children x).flatMap f.preorder := by
  refine (h.walks_preorder hx).unique (.visit ?_)
  rw [List.append_nil]
  exact .flatMap fun c hc => h.walks_preorder (h.mem_children hc)

theorem mem_preorder (hx : x ∈ f) : y ∈ f.preorder x ↔ f.Within y x := by
  rw [(h.walks_preorder hx).mem_iff h]
  simp

theorem preorder_congr (hg : g.WellFormed) (hx : x ∈ f) (hxg : x ∈ g)
    (hchildren : ∀ y, f.Within y x → g.children y = f.children y) :
    g.preorder x = f.preorder x := by
  have hsame : ∀ w ∈ [x], ∀ y, f.Within y w → g.children (id y) = (f.children y).map id := by
    intro w hw y hy
    rw [List.map_id]
    rw [List.mem_singleton.1 hw] at hy
    exact hchildren y hy
  have hwalk := (h.walks_preorder hx).map h hsame
  rw [List.map_id, List.map_id] at hwalk
  exact (hg.walks_preorder hxg).unique hwalk

theorem nodup_preorder (hx : x ∈ f) : (f.preorder x).Nodup :=
  (h.walks_preorder hx).nodup h (List.pairwise_singleton _ _)

end WellFormed

end TreePath.Forest
