/-!
# Numbers

A number is an integer of any size or a binary64 number. Integers and binary64 numbers are compared
by their exact values, whichever way they are stored, and so they are added, subtracted and divided
as long as no binary64 number is among them. An integer, or a quotient of integers, that is larger
than every finite binary64 number is out of range where a binary64 number is asked for.
-/

namespace TreePath

inductive Number where
  | int (n : Int)
  | float (x : Float)
  deriving DecidableEq

/-- Why there is no number as it is asked for. -/
inductive Number.Fault where
  /-- The value is larger than every finite binary64 number. -/
  | outOfRange
  | notNumber
  /-- An integer has more digits than are written. -/
  | tooLong
  deriving DecidableEq, Repr

namespace Number

/-- The exact value of a number that is not NaN. -/
inductive Value where
  | negInfinity
  /-- The number `m · 2 ^ q`. -/
  | finite (m q : Int)
  | posInfinity
  deriving DecidableEq, Repr

def value? : Number → Option Value
  | .int n => some (.finite n 0)
  | .float x =>
    match x.toModel.unpack with
    | .notANumber => none
    | .infinity .positive => some .posInfinity
    | .infinity .negative => some .negInfinity
    | .zero _ => some (.finite 0 0)
    | .finite .positive m q _ => some (.finite m q)
    | .finite .negative m q _ => some (.finite (-m) q)

def Value.compare : Value → Value → Ordering
  | .finite m q, .finite n r =>
    Ord.compare (m * Int.pow 2 (q - r).toNat) (n * Int.pow 2 (r - q).toNat)
  | .negInfinity, .negInfinity | .posInfinity, .posInfinity => .eq
  | .negInfinity, _ | _, .posInfinity => .lt
  | _, .negInfinity | .posInfinity, _ => .gt

/-- Compares exact values. NaN compares with nothing. -/
def compare? (a b : Number) : Option Ordering := do
  return (← a.value?).compare (← b.value?)

def lt (a b : Number) : Bool :=
  a.compare? b = some .lt

def le (a b : Number) : Bool :=
  match a.compare? b with
  | some .lt | some .eq => true
  | _ => false

/-- Whether two numbers stand for the same value, as `1` and `1.0` do. NaN is the same as NaN and
differs from everything else. -/
def same (a b : Number) : Bool :=
  match a.value?, b.value? with
  | some x, some y => x.compare y = .eq
  | none, none => true
  | _, _ => false

/-- The binary64 number nearest to a quotient by a number that is not zero. -/
def quotient (a b : Int) : Except Fault Float :=
  let x := nearestFloat a b
  if x.isInf then .error .outOfRange else .ok x
where
  nearestFloat (a b : Int) : Float :=
    .ofModel <| .pack <| .div .binary64 (exact a) (exact b)
  exact (n : Int) : Float.Model.UnpackedFloat :=
    if h : n = 0 then .zero .positive
    else .finite (if n < 0 then .negative else .positive) n.natAbs 0 (Int.natAbs_pos.2 h)

/-- The nearest natural number that has at most 53 binary digits before its zeros. Of two nearest
ones it is the even one on their scale. -/
def nearest (n : Nat) : Nat :=
  let unit := Nat.pow 2 (n.log2 - 52)
  let up := if 2 * (n % unit) > unit ∨ 2 * (n % unit) = unit ∧ n / unit % 2 = 1 then 1 else 0
  (n / unit + up) * unit

/-- Whether a number that was rounded to the nearest is a finite binary64 number. -/
def inRange (n : Nat) : Bool :=
  n.log2 < 1024

def binary64 (n : Int) : Except Fault Float :=
  if inRange (nearest n.natAbs) then .ok (Float.ofInt n) else .error .outOfRange

def toFloat : Number → Except Fault Float
  | .int n => binary64 n
  | .float x => .ok x

def add : Number → Number → Except Fault Number
  | .int m, .int n => .ok (.int (m + n))
  | a, b => return .float ((← a.toFloat) + (← b.toFloat))

def sub : Number → Number → Except Fault Number
  | .int m, .int n => .ok (.int (m - n))
  | a, b => return .float ((← a.toFloat) - (← b.toFloat))

def divide : Number → Number → Except Fault Float
  | .int m, .int n => quotient m n
  | a, b => return (← a.toFloat) / (← b.toFloat)

end Number

end TreePath
