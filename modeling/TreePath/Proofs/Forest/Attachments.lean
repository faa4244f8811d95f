import TreePath.Proofs.Forest.Attained

namespace TreePath.Forest

/-- The children of `x` other than `c`. -/
def others (f : Forest) (x c : ElementId) : List ElementId :=
  (f.children x).filter (· != c)

/-- The place that a position names among the children, which is none for null. -/
inductive NamesPlace : Json → Option Int → Prop
  | last : NamesPlace .null none
  | index {position : Json} {i : Int} : position.number? = some (.int i) → NamesPlace position i

/-- The place is neither among the other children nor right behind them. -/
def OutOfRange (place : Option Int) (n : Int) : Prop :=
  ∃ i, place = some i ∧ ¬ (0 ≤ i ∧ i ≤ n)

theorem outOfRange_some {i n : Int} : OutOfRange (some i) n ↔ ¬ (0 ≤ i ∧ i ≤ n) := by
  constructor
  · rintro ⟨j, ⟨⟩, hj⟩
    exact hj
  · intro hi
    exact ⟨i, rfl, hi⟩

/-- `c` has moved beneath `p`, to position `i` among the other children. All else is as before. -/
structure Moved (f g : Forest) (p c : ElementId) (i : Nat) : Prop where
  size_eq : g.size = f.size
  content_eq : ∀ x, (g.element x).toContent = (f.element x).toContent
  parent?_eq : ∀ x, g.parent? x = if x = c then some p else f.parent? x
  children_eq : ∀ x, g.children x =
    if x = p then (f.others p c).insertIdx i c
    else if f.parent? c = some x then f.others x c
    else f.children x
  le_length : i ≤ (f.others p c).length

variable {f : Forest} {c p x : ElementId} {i : Nat} {position : Json} {place : Option Int}

theorem size_detach (f : Forest) (c : ElementId) : (f.detach c).size = f.size := by
  unfold detach
  split
  · rfl
  · rw [size_modify, size_modify]

theorem size_attach (f : Forest) (p c : ElementId) (i : Nat) : (f.attach p c i).size = f.size := by
  rw [attach, size_modify, size_modify, size_detach]

theorem addChildAt_eq_outcome (hplace : NamesPlace position place) :
    f.addChildAt p (some c) position =
      addChildAt.outcome f position (f.addChild p (some c) place) := by
  cases hplace with
  | last => rfl
  | index hi =>
    cases position with
    | bool b =>
      cases hi
      rfl
    | num n =>
      cases hi
      rfl
    | null => cases hi
    | str s => cases hi
    | arr items => cases hi
    | obj fields => cases hi

namespace Linked

variable (h : f.Linked)

include h

theorem children_detach_eq_others (c x : ElementId) : (f.detach c).children x = f.others x c := by
  rw [h.children_detach_eq_erase, (h.nodup_children x).erase_eq_filter]
  rfl

theorem moved_attach (hp : p ∈ f) (hc : c ∈ f) (hi : i ≤ (f.others p c).length) :
    f.Moved (f.attach p c i) p c i where
  size_eq := size_attach f p c i
  content_eq := toContent_attach f p c i
  parent?_eq := parent?_attach hc
  children_eq x := by
    rw [children_attach hp, h.children_detach_eq_others, ← h.children_detach_eq_others c x]
    by_cases hup : f.parent? c = some x
    · rw [if_pos hup]
    · rw [if_neg hup, children_detach, if_neg hup]
  le_length := hi

theorem room_eq_length (hlisted : f.Up c p → c ∈ f.children p) :
    f.room p c = (f.others p c).length := by
  rw [h.room_eq hlisted, ← h.children_detach_eq_erase, h.children_detach_eq_others]

theorem le_length_others (hin : ¬ OutOfRange place (f.room p c)) :
    (place.map Int.toNat).getD (f.others p c).length ≤ (f.others p c).length := by
  cases place with
  | none => exact Nat.le_refl _
  | some i =>
    have hi := not_not.1 (mt outOfRange_some.2 hin)
    have hroom := f.room_le p c
    rw [h.children_detach_eq_others] at hroom
    show i.toNat ≤ _
    omega

end Linked

theorem addChildAt_of_outOfRange (hplace : NamesPlace position place)
    (hout : OutOfRange place (f.room p c)) :
    f.addChildAt p (some c) position =
      (some (.positionOutOfRange position (f.room p c)), f) := by
  obtain ⟨i, rfl, hi⟩ := hout
  rw [addChildAt_eq_outcome hplace, addChild_at, if_neg hi]
  rfl

theorem addChildAt_of_cyclic (hplace : NamesPlace position place)
    (hout : ¬ OutOfRange place (f.room p c)) (hcycle : c = p ∨ f.isAncestorOf c p = true) :
    f.addChildAt p (some c) position = (some (.cycle (f.tag c) (f.tag p)), f) := by
  rw [addChildAt_eq_outcome hplace]
  cases place with
  | none =>
    rw [addChild_last, if_pos hcycle]
    rfl
  | some i =>
    have hi := not_not.1 (mt outOfRange_some.2 hout)
    rw [addChild_at, if_pos hi, if_pos hcycle]
    rfl

theorem addChildAt_of_free (hplace : NamesPlace position place)
    (hout : ¬ OutOfRange place (f.room p c)) (hcycle : ¬ (c = p ∨ f.isAncestorOf c p = true)) :
    f.addChildAt p (some c) position = (none, f.attach p c
      ((place.map Int.toNat).getD ((f.children p).erase c).length)) := by
  rw [addChildAt_eq_outcome hplace]
  cases place with
  | none =>
    rw [addChild_last, if_neg hcycle]
    rfl
  | some i =>
    have hi := not_not.1 (mt outOfRange_some.2 hout)
    rw [addChild_at, if_pos hi, if_neg hcycle]
    rfl

/-- An element that is offered as a child, at the end or at an integer position, is refused if the
position is out of range, and else if a cycle would arise. Where it is refused all stays as it is,
and else it moves. -/
theorem Reachable.addChild_contract (h : f.Reachable) (hp : p ∈ f) (hc : c ∈ f)
    (hplace : NamesPlace position place) :
    let n : Int := (f.others p c).length
    let cyclic := c = p ∨ f.Below p c
    let refusal := (f.addChildAt p (some c) position).1
    let g := (f.addChildAt p (some c) position).2
    (cyclic ↔ p ∈ f.preorder c) ∧
    (refusal = some (.positionOutOfRange position n) ↔ OutOfRange place n) ∧
    (refusal = some (.cycle (f.tag c) (f.tag p)) ↔ ¬ OutOfRange place n ∧ cyclic) ∧
    (refusal = none ↔ ¬ OutOfRange place n ∧ ¬ cyclic) ∧
    (refusal ≠ none → g = f) ∧
    (refusal = none → f.Moved g p c ((place.map Int.toNat).getD (f.others p c).length)) := by
  intro n cyclic refusal g
  have hwf := h.wellFormed
  have hf := hwf.linked
  have hroom : f.room p c = n := hf.room_eq_length hwf.up_iff.1
  have hcyclic : (c = p ∨ f.isAncestorOf c p = true) ↔ cyclic := by
    rw [hf.isAncestorOf_iff]
  have hmem : cyclic ↔ p ∈ f.preorder c := by
    rw [hwf.mem_preorder hc]
    constructor
    · rintro (rfl | hb)
      · exact .refl
      · exact hb.to_reflTransGen
    · intro hw
      exact hw.eq_or_below.imp_left Eq.symm
  refine ⟨hmem, ?_⟩
  by_cases hout : OutOfRange place n
  · have hresult := addChildAt_of_outOfRange (f := f) (c := c) hplace (hroom.symm ▸ hout)
    simp [refusal, g, hresult, hroom, hout]
  · have hin : ¬ OutOfRange place (f.room p c) := hroom.symm ▸ hout
    by_cases hcycle : cyclic
    · have hresult := addChildAt_of_cyclic hplace hin (hcyclic.2 hcycle)
      simp [refusal, g, hresult, hout, hcycle]
    · have hresult := addChildAt_of_free hplace hin (mt hcyclic.1 hcycle)
      rw [← hf.children_detach_eq_erase, hf.children_detach_eq_others] at hresult
      have hmoved := hf.moved_attach hp hc (hf.le_length_others hin)
      simp [refusal, g, hresult, hout, hcycle, hmoved]

theorem Reachable.addChild_contract_row :
    let f := grove.edit (.addChild ⟨0⟩ (some ⟨2⟩) .null)
    let g := (f.addChildAt ⟨0⟩ (some ⟨1⟩) (.int 1)).2
    f.Reachable ∧ f.children ⟨0⟩ = [⟨1⟩, ⟨2⟩] ∧ NamesPlace (.int 1) (some 1) ∧
      g.children ⟨0⟩ = [⟨2⟩, ⟨1⟩] ∧ g.parent? ⟨1⟩ = some ⟨0⟩ := by
  intro f g
  have h : f.Reachable := reachable_grove.edit (by decide) id
  have hplace : NamesPlace (.int 1) (some 1) := .index rfl
  have hchildren : f.children ⟨0⟩ = [⟨1⟩, ⟨2⟩] := by decide
  obtain ⟨_, _, _, _, _, hmoves⟩ :=
    h.addChild_contract (p := ⟨0⟩) (c := ⟨1⟩) (by decide) (by decide) hplace
  have hmoved := hmoves (by decide)
  refine ⟨h, hchildren, hplace, ?_, hmoved.parent?_eq ⟨1⟩⟩
  rw [hmoved.children_eq, if_pos rfl, others, hchildren]
  rfl

end TreePath.Forest
