namespace TreePath.Name

/-- Inclusive ranges of the code points that may begin a name. -/
def startRanges : List (Nat × Nat) :=
  [(0x3A, 0x3A), (0x41, 0x5A), (0x5F, 0x5F), (0x61, 0x7A), (0xC0, 0xD6), (0xD8, 0xF6),
   (0xF8, 0x2FF), (0x370, 0x37D), (0x37F, 0x1FFF), (0x200C, 0x200D), (0x2070, 0x218F),
   (0x2C00, 0x2FEF), (0x3001, 0xD7FF), (0xF900, 0xFDCF), (0xFDF0, 0xFFFD), (0x10000, 0xEFFFF)]

/-- Inclusive ranges of the code points that may continue a name but not begin one. -/
def extraRanges : List (Nat × Nat) :=
  [(0x2D, 0x2E), (0x30, 0x39), (0xB7, 0xB7), (0x300, 0x36F), (0x203F, 0x2040)]

def inRanges (ranges : List (Nat × Nat)) (code : Nat) : Bool :=
  ranges.any fun r => r.1 ≤ code && code ≤ r.2

def isStartCode (code : Nat) : Bool :=
  inRanges startRanges code

def isPartCode (code : Nat) : Bool :=
  isStartCode code || inRanges extraRanges code

def isStart (c : Char) : Bool :=
  isStartCode c.toNat

def isPart (c : Char) : Bool :=
  isPartCode c.toNat

/-- Splits the longest name off the head of a text. The name is empty if none begins there. -/
def split : List Char → List Char × List Char
  | [] => ([], [])
  | c :: cs => if isStart c then (c :: cs.takeWhile isPart, cs.dropWhile isPart) else ([], c :: cs)

@[simp] theorem split_append (cs : List Char) : (split cs).1 ++ (split cs).2 = cs := by
  cases cs with
  | nil => rfl
  | cons c cs =>
    simp only [split]
    split <;> simp [List.takeWhile_append_dropWhile]

theorem length_split_snd (cs : List Char) :
    (split cs).2.length + (split cs).1.length = cs.length := by
  rw [Nat.add_comm, ← List.length_append, split_append]

def isValid (text : String) : Bool :=
  let (name, rest) := split text.toList
  !name.isEmpty && rest.isEmpty

/-- Whether a text of one character may begin a name. Other texts have no answer. -/
def isStartText? (text : String) : Option Bool :=
  match text.toList with
  | [c] => some (isStart c)
  | _ => none

/-- Whether a text of one character may continue a name. Other texts have no answer. -/
def isPartText? (text : String) : Option Bool :=
  match text.toList with
  | [c] => some (isPart c)
  | _ => none

/-- The offset at which the longest name beginning at `start` ends, or `start` if none begins there.

A negative `start` counts from the end, and the name may then run on from the end of the text into
its beginning. A start before the beginning has no answer. -/
def end? (text : String) (start : Int) : Option Int :=
  let cs := text.toList
  if 0 ≤ start then
    some (start + (split (cs.drop start.toNat)).1.length)
  else if start + cs.length < 0 then
    none
  else
    some (start + (split (cs.drop (start + cs.length).toNat ++ cs)).1.length)

end TreePath.Name
