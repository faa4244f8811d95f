import TreePath.Text.Quoted

/-!
# Paths

A path selects elements relative to a starting element: a seed gives the first members, and each
step maps every member to further elements. This file holds the data; `TreePath.Path.Reader` reads
paths from texts and `TreePath.Match` runs them.
-/

namespace TreePath

inductive Seed where
  | root
  | self
  | children
  deriving DecidableEq, Repr, Inhabited

def Seed.label : Seed → String
  | .root => "ROOT"
  | .self => "SELF"
  | .children => "CHILDREN"

/-- A path text names its seed by its first character. -/
def Seed.ofText (text : String) : Seed :=
  match text.toList with
  | '/' :: _ => .root
  | '.' :: _ => .self
  | _ => .children

inductive Step.Kind where
  | parent
  | self
  | descendantOrSelf
  | wildcard
  | tag
  | hasAttribute
  | hasChild
  | child
  /-- A kind that no path text yields and no tree can be asked for. -/
  | other (label : String)
  deriving DecidableEq, Repr, Inhabited

namespace Step.Kind

def label : Step.Kind → String
  | parent => "PARENT"
  | self => "SELF"
  | descendantOrSelf => "DESCENDANT_OR_SELF"
  | wildcard => "WILDCARD"
  | tag => "TAG"
  | hasAttribute => "ATTRIBUTE"
  | hasChild => "HAS_CHILD"
  | child => "CHILD"
  | other label => label

def known : List Step.Kind :=
  [parent, self, descendantOrSelf, wildcard, tag, hasAttribute, hasChild, child]

def isKnown (k : Step.Kind) : Bool :=
  known.contains k

/-- The kind of a name. A name that is not known is the name of another kind. -/
def ofLabel (label : String) : Step.Kind :=
  (known.find? (·.label = label)).getD (.other label)

end Step.Kind

/-- One operator of a path. Steps may be built by hand, so a step may lack the name that its kind
needs, and may carry literals that its kind ignores. -/
structure Step where
  kind : Step.Kind
  name : Option String := none
  value : Option String := none
  deriving DecidableEq, Repr, Inhabited

namespace Step

def parent : Step := { kind := .parent }

def self : Step := { kind := .self }

def descendantOrSelf : Step := { kind := .descendantOrSelf }

def wildcard : Step := { kind := .wildcard }

def child : Step := { kind := .child }

def tag (name : String) : Step := { kind := .tag, name := name }

def hasChild (name : String) : Step := { kind := .hasChild, name := name }

/-- The attribute is present, whatever its value. -/
def hasAttribute (name : String) : Step := { kind := .hasAttribute, name := name }

/-- The attribute is present with just this value. -/
def attributeEq (name value : String) : Step :=
  { kind := .hasAttribute, name := name, value := value }

/-- Steps that map every element to itself and are left out of a path. -/
def isNoOp (s : Step) : Bool :=
  s.kind = .self || s.kind = .wildcard

/-- How a name that may be missing is shown. -/
def nameText (s : Step) : String :=
  s.name.getD "None"

/-- The usual spelling of a step. An attribute value stands between single quotes. -/
def render (s : Step) : String :=
  match s.kind with
  | .parent => ".."
  | .self => "."
  | .descendantOrSelf => "//"
  | .wildcard => "*"
  | .tag => s.nameText
  | .hasAttribute =>
    match s.value with
    | none => "[@" ++ s.nameText ++ "]"
    | some v => "[@" ++ s.nameText ++ "='" ++ v ++ "']"
  | .hasChild => "[" ++ s.nameText ++ "]"
  | .child | .other _ => "/"

end Step

/-- A path ready to run, with the text that it was read from. -/
structure Path where
  expression : String
  seed : Seed
  steps : List Step
  deriving DecidableEq, Repr, Inhabited

/-- A path text that goes on at `position` in a way that spells no step. -/
structure Path.Malformed where
  expression : String
  position : Nat
  deriving DecidableEq, Repr

namespace Path.Malformed

def remainder (e : Path.Malformed) : String :=
  String.ofList (e.expression.toList.drop e.position)

def message (e : Path.Malformed) : String :=
  "Invalid path expression " ++ Text.quoted e.expression ++ "; error at " ++
    Text.quoted e.remainder ++ " (offset " ++ toString e.position ++ ")"

end Path.Malformed

end TreePath
