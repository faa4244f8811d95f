import TreePath.Json.Equality
import TreePath.Json.Literal

/-!
# Elements

An element has contents (a tag, attributes in order, a text inside and a text after it) and links to
its parent and its children. Tags and attributes may be offered as values of any kind and are then
checked. The texts inside and after an element may be anything.
-/

namespace TreePath

/-- An element of a forest. Two elements with equal contents are still different elements. -/
structure ElementId where
  index : Nat
  deriving DecidableEq, Hashable, Repr, Inhabited

inductive Element.Fault where
  | tagNotText
  | tagEmpty
  | attributeNotText
  /-- A list or an object was offered as the name of an attribute. -/
  | attributeNameCompound
  | childNotElement
  | childOutOfRange (index : Json) (size : Nat)
  | positionOutOfRange (position : Json) (room : Int)
  /-- What was given as an index or a position is no integer. -/
  | indexNotInteger
  /-- The child, named by its tag, is the element itself or an ancestor of it. -/
  | cycle (child element : String)
  deriving DecidableEq

def Element.Fault.message : Element.Fault → Option String
  | tagNotText => "Element tag must be a string"
  | tagEmpty => "Element tag cannot be empty"
  | attributeNotText => "Attribute name and value must be strings"
  | attributeNameCompound | indexNotInteger => none
  | childNotElement => "Child must be an Element instance"
  | childOutOfRange index size =>
    some ("Child index " ++ index.text ++ " out of range for " ++ toString size ++ " children")
  | positionOutOfRange position room =>
    some ("Insert position " ++ position.text ++ " out of range [0, " ++ toString room ++ "]")
  | cycle child element =>
    some ("Cannot attach <" ++ child ++ "> beneath itself or its descendant <" ++ element ++ ">")

/-- Names and values, in the order in which the names were first set. -/
abbrev Attributes := List (String × String)

namespace Attributes

/-- Checks names and values of any kind. A name that comes again replaces the value before its
check, so only the last value of a name has to be a text. -/
def ofValues (entries : List (Json × Json)) : Except Element.Fault Attributes := do
  let named ← entries.mapM fun (name, value) =>
    match name.str? with
    | some name => .ok (name, value)
    | none => .error .attributeNotText
  (mergeEntries named).mapM fun (name, value) =>
    match value.str? with
    | some value => .ok (name, value)
    | none => .error .attributeNotText

def erase (name : String) (as : Attributes) : Attributes :=
  as.eraseP (·.1 == name)

def toJson (as : Attributes) : Json :=
  .obj (as.map fun (name, value) => (name, .str value))

end Attributes

/-- What an element holds apart from its place in the forest. -/
structure Content where
  tag : String
  attributes : Attributes := []
  /-- The text inside the element, or null. -/
  text : Json := .null
  /-- The text that follows the element, or null. -/
  tail : Json := .null
  deriving DecidableEq, Inhabited

namespace Content

/-- Checks contents of any kind: the names as such first, then the tag, then the attributes. -/
def ofValues (tag : Json) (attributes : List (Json × Json)) (text tail : Json) :
    Except Element.Fault Content := do
  if attributes.any (·.1.isCompound) then throw .attributeNameCompound
  let some tag := tag.str? | throw .tagNotText
  if tag.isEmpty then throw .tagEmpty
  return { tag, attributes := ← Attributes.ofValues attributes, text, tail }

def attribute? (c : Content) (name : String) : Option String :=
  c.attributes.lookup name

/-- Looks for an attribute by a name of any kind. What is no text is the name of no attribute. -/
def attributeOf (c : Content) (name : Json) : Except Element.Fault (Option String) :=
  match name with
  | .str name => .ok (c.attribute? name)
  | name => if name.isCompound then .error .attributeNameCompound else .ok none

def setAttribute (c : Content) (name value : String) : Content :=
  { c with attributes := setEntry name value c.attributes }

/-- Checks a name and a value of any kind, and sets the attribute. -/
def setValue (c : Content) (name value : Json) : Except Element.Fault Content :=
  match name, value with
  | .str name, .str value => .ok (c.setAttribute name value)
  | _, _ => .error .attributeNotText

def removeAttribute (c : Content) (name : String) : Content :=
  { c with attributes := c.attributes.erase name }

/-- Removes an attribute by a name of any kind, and says whether there was one. Where there are no
attributes nothing is looked for, so any name will do. -/
def removeValue (c : Content) (name : Json) : Except Element.Fault (Bool × Content) := do
  if c.attributes.isEmpty then return (false, c)
  let found ← c.attributeOf name
  return (found.isSome, (name.str?.map c.removeAttribute).getD c)

/-- The attribute that declares a namespace, under a label unless there is none. -/
def namespaceName : Json → String
  | .null => "xmlns"
  | label => "xmlns:" ++ label.text

def describe (c : Content) : String :=
  "Element(tag=" ++ Text.quoted c.tag ++ ", attributes=" ++ c.attributes.toJson.literal ++
    ", text=" ++ c.text.literal ++ ", tail=" ++ c.tail.literal ++ ")"

end Content

structure Element extends Content where
  parent : Option ElementId := none
  children : List ElementId := []
  deriving DecidableEq, Inhabited

end TreePath
