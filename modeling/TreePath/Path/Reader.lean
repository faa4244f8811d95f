import TreePath.Path.Basic
import TreePath.Path.Name

/-!
# Reading paths

A path text is a sequence of spellings of steps, each the longest that fits:

* `/..` and `..` for the parent, `/.` and `.` for the element itself,
* `//` for the element and its descendants, `/` for the children, `*` for the element itself,
* `name`, `[name]`, `[@name]`, `[@name='value']` and `[@name="value"]` for tests.

`Step.scan` reads as far as it can and also returns what is left, so a text is a path exactly if
nothing is left, and otherwise the length of the rest gives the offset of the fault.
-/

namespace TreePath

namespace Step

def readSlash : List Char → Step × List Char
  | '.' :: '.' :: cs => (parent, cs)
  | '.' :: cs => (self, cs)
  | '/' :: cs => (descendantOrSelf, cs)
  | cs => (child, cs)

def readDot : List Char → Step × List Char
  | '.' :: cs => (parent, cs)
  | cs => (self, cs)

/-- Reads on after `[@name=`: a text between equal quotes, and the closing bracket. -/
def readValue (name : String) : List Char → Option (Step × List Char)
  | q :: cs =>
    if q = '\x27' ∨ q = '"' then
      match cs.dropWhile (· ≠ q) with
      | _ :: ']' :: rest => some (attributeEq name (String.ofList (cs.takeWhile (· ≠ q))), rest)
      | _ => none
    else none
  | [] => none

def readAttribute (cs : List Char) : Option (Step × List Char) :=
  let (name, rest) := Name.split cs
  if name.isEmpty then none
  else match rest with
    | ']' :: rest => some (hasAttribute (String.ofList name), rest)
    | '=' :: rest => readValue (String.ofList name) rest
    | _ => none

def readHasChild (cs : List Char) : Option (Step × List Char) :=
  let (name, rest) := Name.split cs
  if name.isEmpty then none
  else match rest with
    | ']' :: rest => some (hasChild (String.ofList name), rest)
    | _ => none

def readTag (cs : List Char) : Option (Step × List Char) :=
  let (name, rest) := Name.split cs
  if name.isEmpty then none else some (tag (String.ofList name), rest)

/-- Reads the longest spelling of a step at the head of a text, and returns the rest. -/
def read? : List Char → Option (Step × List Char)
  | '/' :: cs => some (readSlash cs)
  | '.' :: cs => some (readDot cs)
  | '*' :: cs => some (wildcard, cs)
  | '[' :: '@' :: cs => readAttribute cs
  | '[' :: cs => readHasChild cs
  | cs => readTag cs

theorem length_readSlash (cs : List Char) : (readSlash cs).2.length ≤ cs.length := by
  unfold readSlash
  split <;> grind

theorem length_readDot (cs : List Char) : (readDot cs).2.length ≤ cs.length := by
  unfold readDot
  split <;> simp

theorem length_of_readValue {name : String} {cs rest : List Char} {s : Step}
    (h : readValue name cs = some (s, rest)) : rest.length < cs.length := by
  unfold readValue at h
  split at h
  · next q cs =>
    split at h
    · split at h
      · next r hr =>
        cases h
        have := (List.dropWhile_sublist (· ≠ q) (l := cs)).length_le
        rw [hr] at this
        simp only [List.length_cons] at this ⊢
        omega
      · cases h
    · cases h
  · cases h

theorem length_of_readAttribute {cs rest : List Char} {s : Step}
    (h : readAttribute cs = some (s, rest)) : rest.length < cs.length := by
  have hs := Name.length_split_snd cs
  unfold readAttribute at h
  generalize Name.split cs = p at h hs
  obtain ⟨name, left⟩ := p
  simp only at h hs
  split at h
  · cases h
  · split at h
    · cases h
      simp only [List.length_cons] at hs
      omega
    · have := length_of_readValue h
      simp only [List.length_cons] at hs
      omega
    · cases h

theorem length_of_readHasChild {cs rest : List Char} {s : Step}
    (h : readHasChild cs = some (s, rest)) : rest.length < cs.length := by
  have hs := Name.length_split_snd cs
  unfold readHasChild at h
  generalize Name.split cs = p at h hs
  obtain ⟨name, left⟩ := p
  simp only at h hs
  split at h
  · cases h
  · split at h
    · cases h
      simp only [List.length_cons] at hs
      omega
    · cases h

theorem length_of_readTag {cs rest : List Char} {s : Step}
    (h : readTag cs = some (s, rest)) : rest.length < cs.length := by
  have hs := Name.length_split_snd cs
  unfold readTag at h
  generalize Name.split cs = p at h hs
  obtain ⟨name, left⟩ := p
  simp only at h hs
  split at h
  · cases h
  · next hn =>
    cases h
    cases name with
    | nil => simp at hn
    | cons => simp only [List.length_cons] at hs; omega

/-- Every spelling has a character. -/
theorem length_of_read? {cs rest : List Char} {s : Step}
    (h : read? cs = some (s, rest)) : rest.length < cs.length := by
  unfold read? at h
  split at h
  · next cs =>
    have hl := length_readSlash cs
    rw [Option.some.inj h] at hl
    simp only [List.length_cons] at hl ⊢
    omega
  · next cs =>
    have hl := length_readDot cs
    rw [Option.some.inj h] at hl
    simp only [List.length_cons] at hl ⊢
    omega
  · cases h
    simp
  · have := length_of_readAttribute h
    simp only [List.length_cons]
    omega
  · have := length_of_readHasChild h
    simp only [List.length_cons]
    omega
  · exact length_of_readTag h

/-- The steps at the head of a text, and what is left where no further step can be read. -/
def scan (cs : List Char) : List Step × List Char :=
  match _h : read? cs with
  | none => ([], cs)
  | some (s, rest) =>
    let (steps, left) := scan rest
    (s :: steps, left)
termination_by cs.length
decreasing_by exact length_of_read? _h

/-- All steps of a path text, those without effect included. -/
def ofText (text : String) : Except Path.Malformed (List Step) :=
  let (steps, left) := scan text.toList
  if left.isEmpty then .ok steps
  else .error { expression := text, position := text.length - left.length }

end Step

/-- Reads a path. Steps without effect are left out. -/
def Path.ofText (text : String) : Except Path.Malformed Path := do
  let steps ← Step.ofText text
  return { expression := text, seed := Seed.ofText text, steps := steps.filter (!·.isNoOp) }

end TreePath
