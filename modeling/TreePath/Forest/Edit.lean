import TreePath.Forest.Basic

/-!
# Attaching and detaching

An element is attached beneath another one at a position among its children, and leaves its old
place. All conditions are checked before anything is changed, if the position is an integer.
`createChildren_append` and `createChildren_singleton` say that several children may be made at
once.
-/

namespace TreePath.Forest

def detach (f : Forest) (x : ElementId) : Forest :=
  match f.parent? x with
  | none => f
  | some p =>
    (f.modify p fun e => { e with children := e.children.erase x }).modify x
      fun e => { e with parent := none }

/-- Moves `c` beneath `p`, in front of the children from position `i` on. -/
def attach (f : Forest) (p c : ElementId) (i : Nat) : Forest :=
  let f := f.detach c
  (f.modify p fun e => { e with children := e.children.insertIdx i c }).modify c
    fun e => { e with parent := p }

/-- The last position that `c` may take among the children of `p`. If `c` names `p` as its parent it
counts as one of these children, also where it is not listed. -/
def room (f : Forest) (p c : ElementId) : Int :=
  (f.children p).length - if f.parent? c = some p then 1 else 0

/-- Moves an element beneath `p`, to the end or to a position among the other children. What is no
element is offered as `none`. -/
def addChild (f : Forest) (p : ElementId) (offered : Option ElementId) (position : Option Int) :
    Except Element.Fault Forest := do
  let some c := offered | throw .childNotElement
  let room := f.room p c
  let i ← match position with
    | none => pure ((f.children p).erase c).length
    | some i => if 0 ≤ i ∧ i ≤ room then pure i.toNat else throw (.positionOutOfRange (.int i) room)
  if c = p ∨ f.isAncestorOf c p then throw (.cycle (f.tag c) (f.tag p))
  return f.attach p c i

/-- Moves an element beneath `p` to a position of any kind, null for the end. A number that is no
integer is only refused when `c` has left its old place for `p`, though not yet for the children of
`p`. -/
def addChildAt (f : Forest) (p : ElementId) (offered : Option ElementId) (position : Json) :
    Option Element.Fault × Forest :=
  match offered, position, position.number? with
  | none, _, _ => (some .childNotElement, f)
  | _, .null, _ => outcome (f.addChild p offered none)
  | _, _, some (.int i) => outcome (f.addChild p offered i)
  | some c, _, some (.float i) =>
    let room := f.room p c
    if !(0 ≤ i ∧ i ≤ Float.ofInt room) then (some (.positionOutOfRange position room), f)
    else if c = p ∨ f.isAncestorOf c p then (some (.cycle (f.tag c) (f.tag p)), f)
    else (some .indexNotInteger, (f.detach c).modify c fun e => { e with parent := p })
  | _, _, none => (some .indexNotInteger, f)
where
  /-- A position out of range is named as it was given. -/
  outcome : Except Element.Fault Forest → Option Element.Fault × Forest
    | .ok f => (none, f)
    | .error (.positionOutOfRange _ room) => (some (.positionOutOfRange position room), f)
    | .error e => (some e, f)

def createChild (f : Forest) (p : ElementId) (c : Content) : ElementId × Forest :=
  let (x, f) := f.create c
  (x, f.attach p x (f.children p).length)

/-- Makes new elements, the last children of `p` in the order of their contents. -/
def createChildren (f : Forest) (p : ElementId) (contents : List Content) : Forest :=
  let made := contents.map fun c => { toContent := c, parent := some p : Element }
  let places := (List.range' f.size contents.length).map ElementId.mk
  let grown : Forest := { elements := f.elements ++ made.toArray }
  grown.modify p fun e => { e with children := e.children ++ places }

theorem createChildren_singleton {f : Forest} {p : ElementId} (h : p ∈ f) (c : Content) :
    f.createChildren p [c] = (f.createChild p c).2 := by
  have hp : p.index < f.elements.size := h
  have hne : f.elements.size ≠ p.index := by omega
  simp only [createChild, createChildren, create, attach, detach, children, parent?, element, get?,
    size, modify, Array.getElem?_push_size, Option.getD_some]
  congr 1
  ext1
  · simp
  · rename_i i h₁ h₂
    simp at h₁
    simp only [Array.getElem_modify, Array.getElem_push]
    by_cases hi : i = f.elements.size
    · simp [hi, hne.symm]
    · by_cases hpi : p.index = i
      · subst hpi
        simp [hp, hne, Array.getElem?_push, Array.getElem_push, hne.symm]
      · simp [hpi, Ne.symm hi, Array.getElem_push, show i < f.elements.size by omega]

/-- So children made at once are those made one after the other. -/
theorem createChildren_append {f : Forest} {p : ElementId} (h : p ∈ f) (cs ds : List Content) :
    f.createChildren p (cs ++ ds) = (f.createChildren p cs).createChildren p ds := by
  have hp : p.index < f.elements.size := h
  simp only [createChildren, modify, size]
  congr 1
  ext1
  · simp [Nat.add_assoc]
  · rename_i i h₁ h₂
    simp only [Array.getElem_modify, Array.getElem_append, Array.size_modify, Array.size_append]
    by_cases hpi : p.index = i
    · subst hpi
      simp [hp, show p.index < f.elements.size + cs.length by omega, ← List.range'_append_1]
    · simp only [hpi, if_false, List.size_toArray, List.length_map, List.getElem_toArray,
        List.getElem_map, List.getElem_append, Nat.sub_add_eq]
      by_cases hold : i < f.elements.size
      · simp [hold, Nat.lt_add_right cs.length hold]
      · by_cases hcs : i < f.elements.size + cs.length
        · simp [hold, hcs, show i - f.elements.size < cs.length by omega]
        · simp [hold, hcs, show ¬ i - f.elements.size < cs.length by omega]

/-- The forest without the link from `p` to a child, or nothing if what is offered is no child of
`p`. -/
def removeChild? (f : Forest) (p : ElementId) (offered : Option ElementId) : Option Forest :=
  match offered with
  | none => none
  | some c => if f.parent? c = some p then some (f.detach c) else none

end TreePath.Forest
