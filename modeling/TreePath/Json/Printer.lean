import TreePath.Decimal.Shortest
import TreePath.Json.Basic

/-!
# Writing JSON

Texts are written in printable ASCII: other characters are escaped by their UTF-16 units. A value
stands on one line, or every item and field on a line of its own, indented by its depth. A value
with an integer of more than `Json.maxDigits` digits is not written.
-/

namespace TreePath.Json

/-- How the parts of a value are set apart. -/
inductive Layout where
  | line
  /-- One item or field a line, after this text for each level. -/
  | block (indent : List Char)
  deriving DecidableEq, Repr

namespace Layout

inductive Fault where
  /-- The indent is neither a number of spaces nor a text. -/
  | notIndent
  /-- The indent is no 64-bit number. -/
  | outOfRange
  deriving DecidableEq, Repr

def spaces (n : Nat) : Layout :=
  .block (List.replicate n ' ')

/-- Without an indent everything stands on one line. An indent is a text or a number of spaces,
where a negative number counts as zero. -/
def ofIndent : Json → Except Fault Layout
  | .null => .ok .line
  | .str s => .ok (.block s.toList)
  | v =>
    match v.number? with
    | some (.int n) =>
      if n < -Int.pow 2 63 ∨ Int.pow 2 63 ≤ n then .error .outOfRange
      else .ok (spaces n.toNat)
    | _ => .error .notIndent

/-- What stands before an item at the given depth, and before a closing bracket. -/
def gap : Layout → Nat → List Char
  | .line, _ => []
  | .block indent, depth => '\n' :: (List.replicate depth indent).flatten

def separator : Layout → Nat → List Char
  | .line, _ => [',', ' ']
  | layout, depth => ',' :: layout.gap depth

end Layout

def hexUnit (unit : Nat) : List Char :=
  [unit / 0x1000, unit / 0x100, unit / 0x10, unit].map fun n => Nat.digitChar (n % 16)

def units (c : Char) : List Nat :=
  if c.toNat < 0x10000 then [c.toNat]
  else [0xD800 + (c.toNat - 0x10000) / 0x400, 0xDC00 + (c.toNat - 0x10000) % 0x400]

def writeChar (c : Char) : List Char :=
  if c = '"' ∨ c = '\\' then ['\\', c]
  else if c = '\n' then ['\\', 'n']
  else if c = '\r' then ['\\', 'r']
  else if c = '\t' then ['\\', 't']
  else if c = '\x08' then ['\\', 'b']
  else if c = '\x0C' then ['\\', 'f']
  else if 0x20 ≤ c.toNat ∧ c.toNat < 0x7F then [c]
  else (units c).flatMap fun u => '\\' :: 'u' :: hexUnit u

def writeText (s : String) : List Char :=
  '"' :: s.toList.flatMap writeChar ++ ['"']

def writeNat (n : Nat) : List Char :=
  Nat.toDigits 10 n

def writeInt : Int → List Char
  | .ofNat n => writeNat n
  | .negSucc n => '-' :: writeNat (n + 1)

/-- A positive decimal: positional from ten-thousandths up to sixteen places before the point, and
otherwise with an exponent of at least two digits. A point always has digits on both sides. -/
def writeDecimal (d : Decimal) : List Char :=
  let digits := writeNat d.digits
  let zeros := fun (n : Int) => List.replicate n.toNat '0'
  let magnitude := d.exponent + digits.length - 1
  if -4 ≤ magnitude ∧ magnitude < 16 then
    if 0 ≤ d.exponent then digits ++ zeros d.exponent ++ ['.', '0']
    else if 0 ≤ magnitude then
      digits.take (magnitude + 1).toNat ++ '.' :: digits.drop (magnitude + 1).toNat
    else '0' :: '.' :: zeros (-magnitude - 1) ++ digits
  else
    let sign := if magnitude < 0 then '-' else '+'
    let places := writeNat magnitude.natAbs
    let mantissa :=
      match digits with
      | [c] => [c]
      | c :: cs => c :: '.' :: cs
      | [] => []
    mantissa ++ 'e' :: sign :: zeros (2 - places.length) ++ places

def writeFloat (x : Float) : List Char :=
  let signed := fun (sign : Float.Model.UnpackedFloat.Sign) (cs : List Char) =>
    match sign with
    | .positive => cs
    | .negative => '-' :: cs
  match x.toModel.unpack with
  | .notANumber => "NaN".toList
  | .infinity sign => signed sign "Infinity".toList
  | .zero sign => signed sign "0.0".toList
  | .finite sign m q _ => signed sign (writeDecimal (Decimal.shortest ⟨m, q⟩))

def writeNumber : Number → List Char
  | .int n => writeInt n
  | .float x => writeFloat x

mutual

/-- Writes a value that stands at the given depth. -/
def write (layout : Layout) (depth : Nat) : Json → List Char
  | .null => "null".toList
  | .bool true => "true".toList
  | .bool false => "false".toList
  | .num n => writeNumber n
  | .str s => writeText s
  | .arr [] => ['[', ']']
  | .arr (v :: items) =>
    '[' :: layout.gap (depth + 1) ++ write layout (depth + 1) v ++
      writeItems layout (depth + 1) items ++ layout.gap depth ++ [']']
  | .obj [] => ['{', '}']
  | .obj ((name, v) :: fields) =>
    '{' :: layout.gap (depth + 1) ++ writeText name ++ ':' :: ' ' ::
      write layout (depth + 1) v ++ writeFields layout (depth + 1) fields ++
      layout.gap depth ++ ['}']

/-- Writes the items after the first, each after a separator. -/
def writeItems (layout : Layout) (depth : Nat) : List Json → List Char
  | [] => []
  | v :: items => layout.separator depth ++ write layout depth v ++ writeItems layout depth items

def writeFields (layout : Layout) (depth : Nat) : List (String × Json) → List Char
  | [] => []
  | (name, v) :: fields =>
    layout.separator depth ++ writeText name ++ ':' :: ' ' :: write layout depth v ++
      writeFields layout depth fields

end

def render (layout : Layout) (v : Json) : String :=
  String.ofList (v.write layout 0)

/-- Integers of more digits are neither written nor read. -/
def maxDigits : Nat := 4300

def isWritableInt (n : Int) : Bool :=
  (writeNat n.natAbs).length ≤ maxDigits

mutual

/-- The integers in a value, one after the other. -/
def integers : Json → List Int
  | .num (.int n) => [n]
  | .arr items => integersOfItems items
  | .obj fields => integersOfFields fields
  | _ => []

def integersOfItems : List Json → List Int
  | [] => []
  | v :: items => v.integers ++ integersOfItems items

def integersOfFields : List (String × Json) → List Int
  | [] => []
  | (_, v) :: fields => v.integers ++ integersOfFields fields

end

/-- The text of a value, if all its integers can be written. -/
def dump (layout : Layout) (v : Json) : Except Number.Fault String :=
  if v.integers.all isWritableInt then .ok (v.render layout) else .error .tooLong

end TreePath.Json
