import TreePath.Proofs.Forest.Contents
import TreePath.Proofs.Forest.Loops

namespace TreePath.Forest

/-- What may be done to a forest. To declare a namespace is to set an attribute. -/
inductive Edit where
  | make (tag : Json) (attributes : List (Json × Json)) (text tail : Json)
  | addChild (p : ElementId) (offered : Option ElementId) (position : Json)
  | createChild (p : ElementId) (tag : Json) (attributes : List (Json × Json)) (text : Json)
  | removeChild (p : ElementId) (offered : Option ElementId)
  | clone (x : ElementId)
  | setAttribute (x : ElementId) (name value : Json)
  | removeAttribute (x : ElementId) (name : Json)
  | setText (x : ElementId) (text : Json)
  | setTail (x : ElementId) (tail : Json)

def Edit.elements : Edit → List ElementId
  | make .. => []
  | addChild p offered _ | removeChild p offered => p :: offered.toList
  | createChild x .. | clone x | setAttribute x .. | removeAttribute x _ | setText x _ |
    setTail x _ => [x]

/-- The forest after an edit, also after one that is refused. -/
def edit (f : Forest) : Edit → Forest
  | .make tag attributes text tail =>
    match Content.ofValues tag attributes text tail with
    | .ok c => (f.create c).2
    | .error _ => f
  | .addChild p offered position => (f.addChildAt p offered position).2
  | .createChild p tag attributes text =>
    match Content.ofValues tag attributes text .null with
    | .ok c => (f.createChild p c).2
    | .error _ => f
  | .removeChild p offered => (f.removeChild? p offered).getD f
  | .clone x => (f.clone x).2
  | .setAttribute x name value =>
    match (f.element x).toContent.setValue name value with
    | .ok c => f.modifyContent x fun _ => c
    | .error _ => f
  | .removeAttribute x name =>
    match (f.element x).toContent.removeValue name with
    | .ok (_, c) => f.modifyContent x fun _ => c
    | .error _ => f
  | .setText x text => f.modifyContent x fun c => { c with text }
  | .setTail x tail => f.modifyContent x fun c => { c with tail }

/-- The position passes every check although it is no integer. -/
def Misplaces (f : Forest) : Edit → Prop
  | .addChild p (some c) (.num (.float i)) =>
    (0 ≤ i ∧ i ≤ Float.ofNat ((f.children p).erase c).length) ∧
      ¬ (c = p ∨ f.isAncestorOf c p = true)
  | _ => False

/-- The forests that edits of elements that are there lead to, if none of them misplaces one. -/
inductive Reachable : Forest → Prop
  | empty : Reachable {}
  | edit {f : Forest} {e : Edit} :
    Reachable f → (∀ x ∈ e.elements, x ∈ f) → ¬ f.Misplaces e → Reachable (f.edit e)

/-- The ways in which a forest changes by an edit. -/
inductive Change (f : Forest) (e : Edit) : Forest → Prop
  | keep : Change f e f
  | create {k : Content} : k.IsProper → Change f e (f.create k).2
  | createChild {p : ElementId} {k : Content} :
    p ∈ e.elements → k.IsProper → Change f e (f.createChild p k).2
  | attach {p c : ElementId} {i : Nat} : p ∈ e.elements → c ∈ e.elements →
    ¬ (c = p ∨ f.isAncestorOf c p = true) → i ≤ ((f.detach c).children p).length →
      Change f e (f.attach p c i)
  | misplace {p c : ElementId} {i : Float} : e = .addChild p (some c) (.num (.float i)) →
    (0 ≤ i ∧ i ≤ Float.ofInt (f.room p c)) → ¬ (c = p ∨ f.isAncestorOf c p = true) →
      Change f e ((f.detach c).modify c fun e => { e with parent := some p })
  | detach {c : ElementId} : c ∈ e.elements → Change f e (f.detach c)
  | clone {x : ElementId} : x ∈ e.elements → Change f e (f.clone x).2
  | write {x : ElementId} {k : Content → Content} : x ∈ e.elements →
    ((f.element x).toContent.IsProper → (k (f.element x).toContent).IsProper) →
      Change f e (f.modifyContent x k)

variable {f g : Forest} {c p x : ElementId} {e : Edit}

theorem length_erase_le (f : Forest) (p c : ElementId) :
    ((f.children p).erase c).length ≤ ((f.detach c).children p).length := by
  rw [children_detach]
  split
  · exact Nat.le_refl _
  · exact List.length_erase_le

theorem room_le (f : Forest) (p c : ElementId) :
    f.room p c ≤ ((f.detach c).children p).length := by
  rw [room, children_detach]
  split
  · have hle := List.le_length_erase (a := c) (l := f.children p)
    omega
  · omega

theorem addChild_last (f : Forest) (p c : ElementId) :
    f.addChild p (some c) none =
      if c = p ∨ f.isAncestorOf c p = true then .error (.cycle (f.tag c) (f.tag p))
      else .ok (f.attach p c ((f.children p).erase c).length) :=
  rfl

theorem addChild_at (f : Forest) (p c : ElementId) (i : Int) :
    f.addChild p (some c) (some i) =
      if 0 ≤ i ∧ i ≤ f.room p c then
        if c = p ∨ f.isAncestorOf c p = true then .error (.cycle (f.tag c) (f.tag p))
        else .ok (f.attach p c i.toNat)
      else .error (.positionOutOfRange (.int i) (f.room p c)) := by
  simp only [addChild]
  split <;> rfl

theorem addChild_eq_ok {offered : Option ElementId} {position : Option Int}
    (h : f.addChild p offered position = .ok g) :
    ∃ c i, offered = some c ∧ i ≤ ((f.detach c).children p).length ∧
      ¬ (c = p ∨ f.isAncestorOf c p = true) ∧ g = f.attach p c i := by
  cases offered with
  | none => cases h
  | some c =>
    cases position with
    | none =>
      rw [addChild_last] at h
      split at h
      · cases h
      · next hcycle =>
        cases h
        exact ⟨c, _, rfl, length_erase_le f p c, hcycle, rfl⟩
    | some i =>
      rw [addChild_at] at h
      split at h
      · next hi =>
        split at h
        · cases h
        · next hcycle =>
          cases h
          have hroom := f.room_le p c
          exact ⟨c, _, rfl, by omega, hcycle, rfl⟩
      · cases h

theorem addChildAt_float (f : Forest) (p c : ElementId) (i : Float) :
    (f.addChildAt p (some c) (.num (.float i))).2 =
      if (0 ≤ i ∧ i ≤ Float.ofInt (f.room p c)) ∧ ¬ (c = p ∨ f.isAncestorOf c p = true) then
        (f.detach c).modify c fun e => { e with parent := p }
      else f := by
  have hunfold : f.addChildAt p (some c) (.num (.float i)) =
      if !(0 ≤ i ∧ i ≤ Float.ofInt (f.room p c)) then
        (some (.positionOutOfRange (.num (.float i)) (f.room p c)), f)
      else if c = p ∨ f.isAncestorOf c p then (some (.cycle (f.tag c) (f.tag p)), f)
      else (some .indexNotInteger, (f.detach c).modify c fun e => { e with parent := p }) := rfl
  rw [hunfold]
  by_cases hrange : 0 ≤ i ∧ i ≤ Float.ofInt (f.room p c)
  · by_cases hcycle : c = p ∨ f.isAncestorOf c p = true
    · rw [if_neg (by simp [hrange]), if_pos hcycle, if_neg (fun hno => hno.2 hcycle)]
    · rw [if_neg (by simp [hrange]), if_neg hcycle, if_pos ⟨hrange, hcycle⟩]
  · rw [if_pos (by simp [hrange]), if_neg (fun hno => hrange hno.1)]

theorem change_addChildAt (f : Forest) (p : ElementId) (offered : Option ElementId)
    (position : Json) :
    f.Change (.addChild p offered position) (f.addChildAt p offered position).2 := by
  have hint (i : Option Int) : f.Change (.addChild p offered position)
      (addChildAt.outcome f position (f.addChild p offered i)).2 := by
    cases hresult : f.addChild p offered i with
    | error fault => cases fault <;> exact .keep
    | ok g =>
      obtain ⟨c, i, rfl, hi, hcycle, rfl⟩ := addChild_eq_ok hresult
      exact .attach List.mem_cons_self (List.mem_cons_of_mem _ List.mem_cons_self) hcycle hi
  cases offered with
  | none => exact .keep
  | some c =>
    cases position with
    | null => exact hint none
    | bool b => exact hint _
    | num n =>
      cases n with
      | int i => exact hint i
      | float i =>
        rw [addChildAt_float]
        split
        · next hpassed => exact .misplace rfl hpassed.1 hpassed.2
        · exact .keep
    | str s => exact .keep
    | arr items => exact .keep
    | obj fields => exact .keep

theorem change_edit (f : Forest) (e : Edit) : f.Change e (f.edit e) := by
  cases e with
  | make tag attributes text tail =>
    simp only [edit]
    split
    · next hk => exact .create (Content.isProper_of_ofValues hk)
    · exact .keep
  | addChild p offered position => exact f.change_addChildAt p offered position
  | createChild p tag attributes text =>
    simp only [edit]
    split
    · next hk => exact .createChild List.mem_cons_self (Content.isProper_of_ofValues hk)
    · exact .keep
  | removeChild p offered =>
    simp only [edit, removeChild?]
    split
    · exact .keep
    · split
      · exact .detach (List.mem_cons_of_mem _ List.mem_cons_self)
      · exact .keep
  | clone x => exact .clone List.mem_cons_self
  | setAttribute x name value =>
    simp only [edit]
    split
    · next hk => exact .write List.mem_cons_self fun hproper => hproper.setValue hk
    · exact .keep
  | removeAttribute x name =>
    simp only [edit]
    split
    · next hk => exact .write List.mem_cons_self fun hproper => hproper.removeValue hk
    · exact .keep
  | setText x text =>
    exact .write (k := fun c => { c with text }) List.mem_cons_self fun h => ⟨h.1, h.2⟩
  | setTail x tail =>
    exact .write (k := fun c => { c with tail }) List.mem_cons_self fun h => ⟨h.1, h.2⟩

theorem Linked.not_within_create (h : f.Linked) (hp : p ∈ f) (k : Content) :
    ¬ (f.create k).2.Within p (f.create k).1 := by
  intro hw
  rcases hw.eq_or_below with he | hb
  · exact create_notMem f k (he ▸ hp)
  · refine create_notMem f k (h.below_mem (hb.of_closed (S := fun _ => True) trivial ?_))
    intro y q _ hq
    rw [Up, (element_create_links f k y).1] at hq
    exact ⟨hq, trivial⟩

namespace Linked

variable (h : f.Linked)

include h

/-- What counts as the number of other children is this number, unless `c` is not listed where it
should be. -/
theorem room_eq (hlisted : f.Up c p → c ∈ f.children p) :
    f.room p c = ((f.children p).erase c).length := by
  rw [room]
  by_cases hc : c ∈ f.children p
  · have hup : f.parent? c = some p := h.up_of_mem hc
    have hpos := List.length_pos_of_mem hc
    rw [if_pos hup, List.length_erase_of_mem hc]
    omega
  · have hup : ¬ f.parent? c = some p := mt hlisted hc
    rw [if_neg hup, List.erase_of_not_mem hc, Int.sub_zero]

theorem not_within_checked (hcycle : ¬ (c = p ∨ f.isAncestorOf c p = true)) : ¬ f.Within p c := by
  intro hw
  rcases hw.eq_or_below with he | hb
  · exact hcycle (.inl he.symm)
  · exact hcycle (.inr (h.isAncestorOf_iff.2 hb))

theorem createChild (hp : p ∈ f) (k : Content) : (f.createChild p k).2.Linked := by
  rw [createChild_eq]
  apply (h.create k).attach
  · exact mem_create.2 (.inl hp)
  · exact mem_create.2 (.inr rfl)
  · exact h.not_within_create hp k
  · exact Nat.le_of_eq (by rw [detach_of_root (parent?_create_new f k)])

theorem change (he : ∀ x ∈ e.elements, x ∈ f) (hg : f.Change e g) : g.Linked := by
  cases hg with
  | keep => exact h
  | create _ => exact h.create _
  | createChild hp _ => exact h.createChild (he _ hp) _
  | attach hp hc hcycle hi => exact h.attach (he _ hp) (he _ hc) (h.not_within_checked hcycle) hi
  | misplace hedit _ hcycle =>
    subst hedit
    have hp := he _ List.mem_cons_self
    have hc := he _ (List.mem_cons_of_mem _ List.mem_cons_self)
    exact h.misplace hp hc (h.not_within_checked hcycle)
  | detach _ => exact h.detach _
  | clone hx => exact h.clone (he _ hx)
  | write _ _ => exact h.modifyContent _ _

end Linked

namespace WellFormed

variable (h : f.WellFormed)

include h

theorem ofInt_room (p c : ElementId) :
    Float.ofInt (f.room p c) = Float.ofNat ((f.children p).erase c).length := by
  rw [h.linked.room_eq h.up_iff.1]
  rfl

theorem createChild (hp : p ∈ f) (k : Content) : (f.createChild p k).2.WellFormed := by
  rw [createChild_eq]
  apply (h.create k).attach
  · exact mem_create.2 (.inl hp)
  · exact mem_create.2 (.inr rfl)
  · exact h.linked.not_within_create hp k
  · exact Nat.le_of_eq (by rw [detach_of_root (parent?_create_new f k)])

theorem change (he : ∀ x ∈ e.elements, x ∈ f) (hplace : ¬ f.Misplaces e) (hg : f.Change e g) :
    g.WellFormed := by
  cases hg with
  | keep => exact h
  | create _ => exact h.create _
  | createChild hp _ => exact h.createChild (he _ hp) _
  | attach hp hc hcycle hi =>
    exact h.attach (he _ hp) (he _ hc) (h.linked.not_within_checked hcycle) hi
  | misplace hedit hrange hcycle =>
    subst hedit
    rw [h.ofInt_room] at hrange
    exact (hplace ⟨hrange, hcycle⟩).elim
  | detach _ => exact h.detach _
  | clone hx => exact h.clone (he _ hx)
  | write _ _ => exact h.modifyContent _ _

theorem edit (he : ∀ x ∈ e.elements, x ∈ f) (hplace : ¬ f.Misplaces e) : (f.edit e).WellFormed :=
  h.change he hplace (f.change_edit e)

/-- A misplaced element names a parent that does not list it. -/
theorem not_wellFormed_of_misplaces (he : ∀ x ∈ e.elements, x ∈ f)
    (hplace : f.Misplaces e) : ¬ (f.edit e).WellFormed := by
  have key (p c : ElementId) (hc : c ∈ f) :
      ¬ ((f.detach c).modify c fun e => { e with parent := some p }).WellFormed := by
    intro hno
    have hup : ((f.detach c).modify c fun e => { e with parent := some p }).Up c p := by
      rw [Up, parent?, element_modify, if_pos ⟨rfl, mem_detach.2 hc⟩]
    have hchildren : ((f.detach c).modify c fun e => { e with parent := some p }).children p =
        (f.children p).erase c := by
      rw [← h.linked.children_detach_eq_erase, children_modify_parent]
    rw [hno.up_iff, hchildren, (h.nodup_children p).mem_erase_iff] at hup
    exact hup.1 rfl
  unfold Misplaces at hplace
  split at hplace
  · next p c i =>
    have hc : c ∈ f := he c (List.mem_cons_of_mem _ List.mem_cons_self)
    have hpassed := hplace
    rw [← h.ofInt_room] at hpassed
    simp only [Forest.edit, addChildAt_float]
    rw [if_pos hpassed]
    exact key p c hc
  · exact hplace.elim

end WellFormed

theorem wellFormed_empty : WellFormed {} := by
  have hempty (x : ElementId) : x ∉ ({} : Forest) := Nat.not_lt_zero _
  refine ⟨fun {x p} => ?_, fun p => ?_, fun x hx => hempty x hx.mem⟩
  · rw [children_of_notMem (hempty p)]
    exact ⟨fun hx => (hempty x hx.mem).elim, nofun⟩
  · rw [children_of_notMem (hempty p)]
    exact .nil

theorem Reachable.wellFormed (h : f.Reachable) : f.WellFormed := by
  induction h with
  | empty => exact wellFormed_empty
  | edit _ he hplace ih => exact ih.edit he hplace

/-- The two directions of links agree, no element is listed twice or is above itself, and so all
loops along the links end: those up, the walk down, and the one that copies. The bounds of
`ancestors`, `preorder` and `clone` leave them room. One more edit keeps all this exactly if it
misplaces no element. -/
theorem Reachable.forest_invariant (h : f.Reachable) :
    (∀ p c, f.parent? c = some p ↔ c ∈ f.children p) ∧
    (∀ p, (f.children p).Nodup) ∧
    (∀ p q c, c ∈ f.children p → c ∈ f.children q → p = q) ∧
    (∀ x, ¬ f.Below x x) ∧
    (∀ x, Ends f.parent? x ∧ f.parent? (f.root x) = none) ∧
    (∀ x ∈ f, Ends (Cursor.after? f) (Cursor.start x) ∧ Ends Copying.next? (f.startCopying x)) ∧
    (∀ x ∈ f, ∀ n, f.size ≤ n → f.ancestorsWithin n x = f.ancestors x ∧
      f.walk n [x] = f.preorder x ∧ ((f.startCopying x).run n).forest = (f.clone x).2) ∧
    (∀ e : Edit, (∀ x ∈ e.elements, x ∈ f) → ((f.edit e).WellFormed ↔ ¬ f.Misplaces e)) := by
  have hf := h.wellFormed
  refine ⟨fun p c => hf.up_iff, hf.nodup_children, fun p q c => hf.parent_unique, hf.acyclic,
    fun x => ⟨hf.ends_parent? x, hf.parent?_root x⟩, fun x hx => ⟨?_, ?_⟩,
    fun x hx n hn => ⟨hf.ancestorsWithin_eq hn x, hf.walk_eq_preorder hx hn, ?_⟩,
    fun e he => ⟨fun hedit hplace => hf.not_wellFormed_of_misplaces he hplace hedit, hf.edit he⟩⟩
  · exact ((hf.walks_preorder hx).visits rfl).ends
  · exact Copying.ends_of_run (hf.linked.waiting_run hx)
  · rw [Copying.run_stable (hf.linked.waiting_run hx) hn, clone]

/-- An element with one child, and an element beside it. -/
def grove : Forest :=
  [Edit.make (.str "a") [] .null .null, .createChild ⟨0⟩ (.str "b") [] .null,
    .make (.str "c") [] .null .null].foldl edit {}

theorem reachable_grove : grove.Reachable := by
  have h₁ : Reachable (({} : Forest).edit (.make (.str "a") [] .null .null)) :=
    .edit .empty nofun id
  have h₂ := h₁.edit (e := .createChild ⟨0⟩ (.str "b") [] .null) (by decide) id
  exact h₂.edit (e := .make (.str "c") [] .null .null) nofun id

theorem Reachable.forest_invariant_grove :
    let f := grove.edit (.addChild ⟨2⟩ (some ⟨1⟩) .null)
    f.Reachable ∧ f.parent? ⟨1⟩ = some ⟨2⟩ ∧ ⟨1⟩ ∈ f.children ⟨2⟩ ∧ ⟨1⟩ ∉ f.children ⟨0⟩ ∧
      Ends f.parent? ⟨1⟩ ∧ Ends Copying.next? (f.startCopying ⟨2⟩) ∧
      f.walk 7 [⟨2⟩] = f.preorder ⟨2⟩ := by
  intro f
  have h : f.Reachable := reachable_grove.edit (by decide) id
  obtain ⟨hlinks, _, hone, _, hup, hdown, hbound, _⟩ := h.forest_invariant
  have hparent : f.parent? ⟨1⟩ = some ⟨2⟩ := by decide
  have hchild := (hlinks ⟨2⟩ ⟨1⟩).1 hparent
  refine ⟨h, hparent, hchild, fun hc => ?_, (hup ⟨1⟩).1, (hdown ⟨2⟩ (by decide)).2,
    (hbound ⟨2⟩ (by decide) 7 (by decide)).2.1⟩
  cases hone ⟨2⟩ ⟨0⟩ ⟨1⟩ hchild hc

/-- `c` is offered to `a` at the position 0.5: it names `a` as its parent and is not listed. -/
theorem links_disagree_after_fraction :
    let e := Edit.addChild ⟨0⟩ (some ⟨2⟩) (.float 0.5)
    grove.Reachable ∧ (∀ x ∈ e.elements, x ∈ grove) ∧
      ¬ ((grove.edit e).parent? ⟨2⟩ = some ⟨0⟩ ↔ ⟨2⟩ ∈ (grove.edit e).children ⟨0⟩) := by
  refine ⟨reachable_grove, by decide, by decide⟩

end TreePath.Forest
