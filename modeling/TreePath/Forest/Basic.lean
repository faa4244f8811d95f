import TreePath.Forest.Element

/-!
# Forests

A forest holds every element ever made, each under its number, with links in both directions:
an element names its parent, and the parent lists it among its children. This file holds the
forest, its reading functions and the ways up from an element.
-/

namespace TreePath

structure Forest where
  elements : Array Element := #[]
  deriving DecidableEq, Inhabited

namespace Forest

def size (f : Forest) : Nat :=
  f.elements.size

def get? (f : Forest) (x : ElementId) : Option Element :=
  f.elements[x.index]?

instance : Membership ElementId Forest where
  mem f x := x.index < f.size

instance (f : Forest) (x : ElementId) : Decidable (x ∈ f) :=
  inferInstanceAs (Decidable (x.index < f.size))

/-- The element under a number. Numbers outside the forest show an empty element. -/
def element (f : Forest) (x : ElementId) : Element :=
  (f.get? x).getD default

def tag (f : Forest) (x : ElementId) : String :=
  (f.element x).tag

def attribute? (f : Forest) (x : ElementId) (name : String) : Option String :=
  (f.element x).attribute? name

def parent? (f : Forest) (x : ElementId) : Option ElementId :=
  (f.element x).parent

def children (f : Forest) (x : ElementId) : List ElementId :=
  (f.element x).children

def modify (f : Forest) (x : ElementId) (g : Element → Element) : Forest :=
  { elements := f.elements.modify x.index g }

/-- Changes what an element holds and keeps its links. -/
def modifyContent (f : Forest) (x : ElementId) (g : Content → Content) : Forest :=
  f.modify x fun e => { e with toContent := g e.toContent }

def create (f : Forest) (c : Content) : ElementId × Forest :=
  (⟨f.size⟩, { elements := f.elements.push { toContent := c } })

/-- The child at an index. Negative indices count from the end. -/
def child (f : Forest) (x : ElementId) (index : Int) : Except Element.Fault ElementId :=
  let children := f.children x
  let place := if index < 0 then index + children.length else index
  match if place < 0 then none else children[place.toNat]? with
  | some c => .ok c
  | none => .error (.childOutOfRange (.int index) children.length)

/-- The child at an index of any kind. A number that is no integer is an index of no child, even
where it is in range. -/
def childAt (f : Forest) (x : ElementId) (index : Json) : Except Element.Fault ElementId :=
  let size := (f.children x).length
  match index.number? with
  | none => .error .indexNotInteger
  | some (.int i) => (f.child x i).mapError fun _ => .childOutOfRange index size
  | some (.float i) =>
    let place := if i < 0 then i + Float.ofNat size else i
    if 0 ≤ place ∧ place < Float.ofNat size then .error .indexNotInteger
    else .error (.childOutOfRange index size)

/-- The first links up from an element, at most as many as given. -/
def ancestorsWithin (f : Forest) : Nat → ElementId → List ElementId
  | 0, _ => []
  | n + 1, x =>
    match f.parent? x with
    | none => []
    | some p => p :: f.ancestorsWithin n p

/-- The parent, its parent, and so on up to the root. Without a cycle among the links no way up is
longer than the forest is large. -/
def ancestors (f : Forest) (x : ElementId) : List ElementId :=
  f.ancestorsWithin f.size x

def root (f : Forest) (x : ElementId) : ElementId :=
  (f.ancestors x).getLast?.getD x

def depth (f : Forest) (x : ElementId) : Nat :=
  (f.ancestors x).length

/-- Whether `a` is an ancestor of `x` other than `x` itself. -/
def isAncestorOf (f : Forest) (a x : ElementId) : Bool :=
  (f.ancestors x).contains a

end Forest

end TreePath
