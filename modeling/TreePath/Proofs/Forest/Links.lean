import Mathlib.Data.List.Nodup
import Mathlib.Logic.Relation
import TreePath.Forest.Basic

namespace TreePath.Forest

variable {f : Forest} {a b c p q x y : ElementId}

def Up (f : Forest) (x p : ElementId) : Prop :=
  f.parent? x = some p

/-- `a` is a proper ancestor of `x`. -/
abbrev Below (f : Forest) : ElementId → ElementId → Prop :=
  Relation.TransGen f.Up

/-- `a` is `x` or a proper ancestor of it. -/
abbrev Within (f : Forest) : ElementId → ElementId → Prop :=
  Relation.ReflTransGen f.Up

structure WellFormed (f : Forest) : Prop where
  up_iff : ∀ {x p}, f.Up x p ↔ x ∈ f.children p
  nodup_children : ∀ p, (f.children p).Nodup
  acyclic : ∀ x, ¬ f.Below x x

structure Linked (f : Forest) : Prop where
  up_of_mem : ∀ {c p}, c ∈ f.children p → f.Up c p
  up_mem : ∀ {x p}, f.Up x p → p ∈ f
  nodup_children : ∀ p, (f.children p).Nodup
  acyclic : ∀ x, ¬ f.Below x x

theorem element_of_notMem (h : x ∉ f) : f.element x = default := by
  have hx : f.elements.size ≤ x.index := Nat.le_of_not_lt h
  simp [element, get?, hx]

theorem children_of_notMem (h : x ∉ f) : f.children x = [] := by
  rw [children, element_of_notMem h]
  rfl

theorem mem_of_mem_children (h : c ∈ f.children p) : p ∈ f := by
  by_contra hp
  rw [children_of_notMem hp] at h
  cases h

theorem Up.mem (h : f.Up x p) : x ∈ f := by
  by_contra hx
  rw [Up, parent?, element_of_notMem hx] at h
  cases h

theorem Up.unique (hp : f.Up x p) (hq : f.Up x q) : p = q :=
  Option.some.inj (hp.symm.trans hq)

theorem Below.mem (h : f.Below x a) : x ∈ f := by
  obtain ⟨p, hp, _⟩ := Relation.TransGen.head'_iff.1 h
  exact hp.mem

/-- Links that lead from elements of a kind to elements of this kind may be followed elsewhere. -/
theorem Below.of_closed {g : Forest} {S : ElementId → Prop} (hx : S x)
    (hup : ∀ {y p}, S y → g.Up y p → f.Up y p ∧ S p) (hb : g.Below x a) : f.Below x a := by
  have hstrong : f.Below x a ∧ S a := by
    induction hb with
    | single hp => exact ⟨.single (hup hx hp).1, (hup hx hp).2⟩
    | tail _ hp ih => exact ⟨ih.1.tail (hup ih.2 hp).1, (hup ih.2 hp).2⟩
  exact hstrong.1

/-- The elements above one element form a chain. -/
theorem Within.total (ha : f.Within x a) (hb : f.Within x b) : f.Within a b ∨ f.Within b a :=
  Relation.ReflTransGen.total_of_right_unique (fun _ _ _ hp hq => hp.unique hq) ha hb

theorem Within.eq_or_below (h : f.Within x a) : x = a ∨ f.Below x a := by
  rcases Relation.reflTransGen_iff_eq_or_transGen.1 h with h | h
  · exact .inl h.symm
  · exact .inr h

theorem Below.parent_within (h : f.Below x a) (hp : f.Up x p) : f.Within p a := by
  obtain ⟨q, hq, hqa⟩ := Relation.TransGen.head'_iff.1 h
  rwa [hp.unique hq]

theorem Linked.below_mem (h : f.Linked) (hb : f.Below x a) : a ∈ f := by
  cases hb with
  | single hp => exact h.up_mem hp
  | tail _ hp => exact h.up_mem hp

theorem Linked.wellFormed (h : f.Linked) (hlisted : ∀ {x p}, f.Up x p → x ∈ f.children p) :
    f.WellFormed :=
  ⟨⟨hlisted, h.up_of_mem⟩, h.nodup_children, h.acyclic⟩

namespace WellFormed

variable (h : f.WellFormed)

include h

theorem up_mem (hp : f.Up x p) : p ∈ f :=
  mem_of_mem_children (h.up_iff.1 hp)

theorem linked : f.Linked :=
  ⟨h.up_iff.2, h.up_mem, h.nodup_children, h.acyclic⟩

theorem mem_children (hc : c ∈ f.children p) : c ∈ f :=
  (h.up_iff.2 hc).mem

theorem below_mem (hb : f.Below x a) : a ∈ f :=
  h.linked.below_mem hb

theorem parent_unique (hp : c ∈ f.children p) (hq : c ∈ f.children q) : p = q :=
  (h.up_iff.2 hp).unique (h.up_iff.2 hq)

theorem not_within_of_up (hp : f.Up x p) : ¬ f.Within p x := by
  intro hb
  exact h.acyclic x (.head' hp hb)

theorem siblings_apart (ha : a ∈ f.children p) (hb : b ∈ f.children p) (hne : a ≠ b)
    (hxa : f.Within x a) : ¬ f.Within x b := by
  have key {a b : ElementId} (ha : f.Up a p) (hb : f.Up b p) (hne : a ≠ b) : ¬ f.Within a b := by
    intro hab
    rcases hab.eq_or_below with he | hab
    · exact hne he
    · exact h.not_within_of_up hb (hab.parent_within ha)
  intro hxb
  rcases hxa.total hxb with hab | hba
  · exact key (h.up_iff.2 ha) (h.up_iff.2 hb) hne hab
  · exact key (h.up_iff.2 hb) (h.up_iff.2 ha) hne.symm hba

theorem within_iff : f.Within y x ↔ y = x ∨ ∃ c ∈ f.children x, f.Within y c := by
  constructor
  · intro hy
    rcases Relation.ReflTransGen.cases_tail hy with he | ⟨c, hc, hx⟩
    · exact .inl he.symm
    · exact .inr ⟨c, h.up_iff.1 hx, hc⟩
  · rintro (rfl | ⟨c, hc, hy⟩)
    · exact .refl
    · exact hy.tail (h.up_iff.2 hc)

end WellFormed

end TreePath.Forest
