/-!
# Shortest decimals

The decimal with the fewest digits that reads back as a given binary64 number, and of those the
nearest one. All arithmetic is exact: grids of decimals with one, two, … digits are tried in turn,
and on each grid only the two neighbours of the number can qualify first.
-/

namespace TreePath

/-- The number `digits · 10 ^ exponent`. -/
structure Decimal where
  digits : Nat
  exponent : Int
  deriving DecidableEq, Repr

namespace Decimal

/-- A positive number `mantissa · 2 ^ exponent`, with the exponent that binary64 stores it with. -/
structure Binary where
  mantissa : Nat
  exponent : Int
  deriving DecidableEq, Repr

namespace Binary

def num (b : Binary) : Nat := b.mantissa * Nat.pow 2 b.exponent.toNat

def den (b : Binary) : Nat := Nat.pow 2 (-b.exponent).toNat

/-- Quarters of the last place from the number down to the middle between it and the next lower
number. That number is only half as far away where the mantissa is least. -/
def roomBelow (b : Binary) : Nat :=
  if b.mantissa = Nat.pow 2 52 ∧ -1074 < b.exponent then 1 else 2

/-- Whether the decimal is nearer to this number than to its neighbours. The middle between two
numbers goes to the one with the even mantissa. -/
def isReadFrom (b : Binary) (d : Decimal) : Bool :=
  let quarter := b.exponent - 2
  let point := d.digits * Nat.pow 10 d.exponent.toNat * Nat.pow 2 (-quarter).toNat
  let unit := Nat.pow 2 quarter.toNat * Nat.pow 10 (-d.exponent).toNat
  let low := (4 * b.mantissa - b.roomBelow) * unit
  let high := (4 * b.mantissa + 2) * unit
  if b.mantissa % 2 = 0 then low ≤ point && point ≤ high else low < point && point < high

/-- The exponent `e` with `10 ^ e ≤ b < 10 ^ (e + 1)`. -/
def magnitude (b : Binary) : Int :=
  let places := fun n => ((Nat.toDigits 10 n).length : Int)
  let e := places b.num - places b.den
  if b.den * Nat.pow 10 e.toNat ≤ b.num * Nat.pow 10 (-e).toNat then e else e - 1

/-- The neighbours of the number on the grid of multiples of `10 ^ exponent`, the nearer one first.
If both are equally far away, the even one comes first. -/
def neighbours (b : Binary) (exponent : Int) : List Decimal :=
  let num := b.num * Nat.pow 10 (-exponent).toNat
  let den := b.den * Nat.pow 10 exponent.toNat
  let below : Decimal := ⟨num / den, exponent⟩
  let above : Decimal := ⟨num / den + 1, exponent⟩
  let twice := 2 * (num % den)
  if twice < den ∨ (twice = den ∧ below.digits % 2 = 0) then [below, above] else [above, below]

end Binary

/-- Drops final zeros among the digits, at most as many as given. -/
def trim : Nat → Decimal → Decimal
  | 0, d => d
  | n + 1, d =>
    if d.digits % 10 = 0 then trim n ⟨d.digits / 10, d.exponent + 1⟩ else d

/-- The decimal with the fewest digits that reads back as the number. Seventeen always suffice. -/
def shortest (b : Binary) : Decimal :=
  let grid := fun (n : Nat) => (b.neighbours (b.magnitude - n)).find? b.isReadFrom
  ((List.range 17).findSome? grid |>.getD ⟨b.num / b.den, 0⟩).trim 17

example : shortest ⟨0x1999999999999A, -56⟩ = ⟨1, -1⟩ := by decide +kernel

end Decimal

end TreePath
