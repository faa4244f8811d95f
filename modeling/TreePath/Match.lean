import Std.Data.HashSet
import TreePath.Forest.Walk
import TreePath.Path.Basic

namespace TreePath

/-- A step of a kind that no element can be asked for. -/
structure UnsupportedStep where
  label : String
  deriving DecidableEq, Repr

def UnsupportedStep.message (e : UnsupportedStep) : String :=
  "Unsupported step kind: " ++ e.label

/-- Elements in the order in which they were first reached. -/
structure Gathered where
  order : Array ElementId := #[]
  seen : Std.HashSet ElementId := ∅
  /-- How often elements were reached, repetitions included. -/
  count : Nat := 0

namespace Gathered

def add : Gathered → ElementId → Gathered
  | ⟨order, seen, count⟩, x =>
    if seen.contains x then ⟨order, seen, count + 1⟩
    else ⟨order.push x, seen.insert x, count + 1⟩

def toList (g : Gathered) : List ElementId :=
  g.order.toList

end Gathered

/-- The members reached so far, and how many elements the steps have yielded. -/
structure Selection where
  members : List ElementId
  yielded : Nat := 0
  deriving DecidableEq, Repr, Inhabited

namespace Forest

def seedMembers (f : Forest) (seed : Seed) (x : ElementId) : List ElementId :=
  match seed with
  | .root => [f.root x]
  | .self => [x]
  | .children => f.children x

/-- The elements to which a step maps an element. A test maps an element to itself or to nothing. -/
def results (f : Forest) (s : Step) (x : ElementId) : List ElementId :=
  let test := fun (b : Bool) => if b then [x] else []
  match s.kind with
  | .child => f.children x
  | .descendantOrSelf => f.preorder x
  | .parent => (f.parent? x).toList
  | .tag => test (s.name == some (f.tag x))
  | .hasAttribute =>
    match s.name.bind (f.attribute? x) with
    | none => []
    | some actual => test (s.value.all (· == actual))
  | .hasChild => test ((f.children x).any fun c => s.name == some (f.tag c))
  | .self | .wildcard => [x]
  | .other _ => []

/-- The elements to which a step maps an element, for steps of known kinds. -/
def apply (f : Forest) (s : Step) (x : ElementId) : Except UnsupportedStep (List ElementId) :=
  match s.kind with
  | .other label => .error ⟨label⟩
  | _ => .ok (f.results s x)

/-- Everything that a step yields for the members, in their order. -/
def gather (f : Forest) (s : Step) (members : List ElementId) : Gathered :=
  members.foldl (fun g x => (f.results s x).foldl Gathered.add g) {}

/-- Takes one step. A step of an unknown kind is a fault only if there is a member to map. -/
def advance (f : Forest) (sel : Selection) (s : Step) : Except UnsupportedStep Selection :=
  match s.kind, sel.members with
  | .other label, _ :: _ => .error ⟨label⟩
  | _, members =>
    let g := f.gather s members
    .ok { members := g.toList, yielded := sel.yielded + g.count }

/-- Runs a path from an element. -/
def select (f : Forest) (p : Path) (x : ElementId) : Except UnsupportedStep Selection :=
  let seeds := (f.seedMembers p.seed x).foldl Gathered.add {}
  p.steps.foldlM f.advance { members := seeds.toList }

end Forest

end TreePath
