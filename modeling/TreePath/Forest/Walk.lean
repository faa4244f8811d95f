import TreePath.Forest.Basic

namespace TreePath

namespace Forest

/-- Visits the elements that wait and what is beneath them, at most as many as given. -/
def walk (f : Forest) : Nat → List ElementId → List ElementId
  | 0, _ => []
  | _, [] => []
  | n + 1, x :: waiting => x :: f.walk n (f.children x ++ waiting)

def preorder (f : Forest) (x : ElementId) : List ElementId :=
  f.walk f.size [x]

end Forest

/-- A walk under way. The children of the element visited last are looked up when the next one is
asked for, and not before. -/
structure Cursor where
  visited : Option ElementId := none
  waiting : List ElementId
  deriving DecidableEq, Repr

namespace Cursor

def start (x : ElementId) : Cursor :=
  { waiting := [x] }

/-- The next element, if there is one, and the walk after it. A walk that has ended stays so. -/
def next (c : Cursor) (f : Forest) : Option ElementId × Cursor :=
  match (c.visited.map f.children).getD [] ++ c.waiting with
  | [] => (none, { waiting := [] })
  | x :: waiting => (some x, { visited := x, waiting })

end Cursor

end TreePath
