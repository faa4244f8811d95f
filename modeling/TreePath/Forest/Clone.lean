import TreePath.Forest.Edit

namespace TreePath

/-- A new element without links that holds what `x` holds. -/
def Forest.copyNode (f : Forest) (x : ElementId) : ElementId × Forest :=
  f.create (f.element x).toContent

/-- Copying under way: the forest so far, and the elements whose children are still to be copied,
each with its copy. The pair that was put there last is the first. -/
structure Copying where
  forest : Forest
  waiting : List (ElementId × ElementId)

namespace Copying

/-- Copies the children of `source` beneath its copy `target`, in their order. To append the copies
one by one would copy the list of `target` each time, so this is done at once; `clone_eq_oneByOne`
says that it makes no difference. -/
def copyChildren (source target : ElementId) (s : Copying) : Copying :=
  let children := s.forest.children source
  let copies := (List.range' s.forest.size children.length).map ElementId.mk
  let contents := children.map fun c => (s.forest.element c).toContent
  { forest := s.forest.createChildren target contents
    waiting := (children.zip copies).reverse ++ s.waiting }

/-- Rounds until no element waits, at most as many as given. -/
def run : Nat → Copying → Copying
  | n + 1, { forest, waiting := (source, target) :: waiting } =>
    (copyChildren source target { forest, waiting }).run n
  | _, s => s

end Copying

namespace Forest

def startCopying (f : Forest) (x : ElementId) : Copying :=
  let (copy, f) := f.copyNode x
  { forest := f, waiting := [(x, copy)] }

/-- A copy of the element with all its descendants. Every round copies the children of another one
of them, so there are no more rounds than elements. -/
def clone (f : Forest) (x : ElementId) : ElementId × Forest :=
  (⟨f.size⟩, ((f.startCopying x).run f.size).forest)

end Forest

end TreePath
