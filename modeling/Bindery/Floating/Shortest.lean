import Bindery.Floating

/-!
The shortest decimal that reads back.

Every number of a format stands for an interval of reals: those that are rounded
to it. The shortest decimal of a number is the one with the fewest digits inside
its interval, and among those the nearest to the number, the larger one of two
that are equally near.

On the grid of decimals with a given number of digits only the two neighbours of
the number have to be tried: if any point of the grid lies in the interval, one of
them does.
-/

namespace Bindery.Floating

/-- The decimal `digits * 10 ^ exponent`. -/
structure Decimal where
  digits : Nat
  exponent : Int
deriving DecidableEq, Repr, Inhabited

namespace Decimal

def characters (d : Decimal) : List Char :=
  Nat.toDigits 10 d.digits

/-- Where the point stands, counted from before the first digit. -/
def point (d : Decimal) : Int :=
  d.exponent + d.characters.length

end Decimal

/-- The interval of a positive number, as numerators over one denominator. -/
structure Interval where
  low : Nat
  value : Nat
  high : Nat
  denominator : Nat
  /-- Whether the two ends are rounded to the number, too. -/
  closed : Bool
deriving Repr

/-- The interval of `mantissa * 2 ^ exponent`. The gap below the first number of a
binade is half as wide as the others, unless it is the first of all. -/
def Format.interval (f : Format) (mantissa : Nat) (exponent : Int) : Interval :=
  let narrow := mantissa = twoTo f.fractionBits && exponent != f.leastExponent
  let unit := Format.ratio 1 (exponent - 2)
  { low := (4 * mantissa - (if narrow then 1 else 2)) * unit.1
    value := 4 * mantissa * unit.1
    high := (4 * mantissa + 2) * unit.1
    denominator := unit.2
    closed := mantissa % 2 == 0 }

/-- The `p` with `10 ^ (p - 1) ≤ value < 10 ^ p`. -/
def Interval.magnitude (i : Interval) : Int :=
  if i.denominator ≤ i.value then
    (Nat.toDigits 10 (i.value / i.denominator)).length
  else
    1 - (Nat.toDigits 10 ((i.denominator + i.value - 1) / i.value - 1)).length

/-- The decimal of the grid `10 ^ exponent` that reads back, if there is one. -/
def Interval.onGrid? (i : Interval) (exponent : Int) : Option Decimal :=
  let unit := i.denominator * tenTo exponent.toNat
  let shift := tenTo (-exponent).toNat
  let below := i.value * shift / unit
  let inside (c : Nat) : Bool :=
    if i.closed then i.low * shift ≤ c * unit && c * unit ≤ i.high * shift
    else i.low * shift < c * unit && c * unit < i.high * shift
  let up := inside (below + 1)
  if inside below then
    if up && unit ≤ 2 * (i.value * shift % unit) then some ⟨below + 1, exponent⟩
    else some ⟨below, exponent⟩
  else if up then some ⟨below + 1, exponent⟩
  else none

/-- Moves the power of ten that rounding up can leave into the exponent. -/
def Decimal.carry (n : Nat) (d : Decimal) : Decimal :=
  if d.digits = tenTo n then ⟨1, d.exponent + n⟩ else d

/-- The shortest decimal of the positive number `mantissa * 2 ^ exponent`.
Seventeen digits are enough for 64 bits, nine for 32. -/
def Format.shortest (f : Format) (mantissa : Nat) (exponent : Int) : Decimal :=
  let i := f.interval mantissa exponent
  let p := i.magnitude
  let attempt? (n : Nat) : Option Decimal := (i.onGrid? (p - n)).map (·.carry n)
  ((List.range' 1 17).findSome? attempt?).getD
    ⟨i.value * tenTo (17 - p).toNat / (i.denominator * tenTo (p - 17).toNat), p - 17⟩

end Bindery.Floating
