import TreePath.Number

/-!
# JSON values

Objects keep their fields in order. A name occurs once in an object; setting it again replaces the
value and keeps the place.
-/

namespace TreePath

/-- Sets a key in a list of pairs. A key that is there keeps its place, a new one goes last. -/
def setEntry {α β : Type} [BEq α] (k : α) (v : β) : List (α × β) → List (α × β)
  | [] => [(k, v)]
  | (a, b) :: entries => if a == k then (a, v) :: entries else (a, b) :: setEntry k v entries

/-- Keeps one pair for each key: the value of the last and the place of the first. -/
def mergeEntries {α β : Type} [BEq α] (entries : List (α × β)) : List (α × β) :=
  entries.foldl (fun done e => setEntry e.1 e.2 done) []

inductive Json where
  | null
  | bool (b : Bool)
  | num (n : Number)
  | str (s : String)
  | arr (items : List Json)
  | obj (fields : List (String × Json))
  deriving Inhabited

namespace Json

def int (n : Int) : Json := .num (.int n)

def float (x : Float) : Json := .num (.float x)

instance : Coe Bool Json := ⟨.bool⟩

instance : Coe String Json := ⟨.str⟩

instance : Coe Int Json := ⟨.int⟩

/-- A text that may be missing. -/
def ofOption : Option String → Json
  | none => .null
  | some s => .str s

def str? : Json → Option String
  | .str s => some s
  | _ => none

/-- The number that a value counts as: truth values count as one and zero. -/
def number? : Json → Option Number
  | .bool b => some (.int (if b then 1 else 0))
  | .num n => some n
  | _ => none

def toNumber (v : Json) : Except Number.Fault Number :=
  match v.number? with
  | some n => .ok n
  | none => .error .notNumber

def field? (name : String) : Json → Option Json
  | .obj fields => fields.lookup name
  | _ => none

/-- Whether a value counts as true: not null, false, zero or empty. -/
def truthy : Json → Bool
  | .null => false
  | .bool b => b
  | .num n => !n.same (.int 0)
  | .str s => !s.isEmpty
  | .arr items => !items.isEmpty
  | .obj fields => !fields.isEmpty

/-- Lists and objects cannot be looked up by. -/
def isCompound : Json → Bool
  | .arr _ | .obj _ => true
  | _ => false

end Json

end TreePath
