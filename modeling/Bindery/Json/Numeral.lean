import Bindery.Floating

/-!
Numbers in JSON text.

A numeral is kept as it is written until its value is asked for. A whole number in
the range of 64 bits, signed or unsigned, is an integer; every other numeral is a
double. The double is the leading digits, as far as they stay below `2 ^ 64`, scaled
by a power of ten. Each step rounds, so the last digit is not always the nearest.
-/

namespace Bindery.Json

/-- The value of a number. -/
inductive Number where
  | integer (n : Int)
  | double (bits : UInt64)
deriving DecidableEq, Repr, Inhabited

/-- A number as it is written, digit by digit. -/
structure Numeral where
  negative : Bool
  whole : List Nat
  fraction : Option (List Nat)
  /-- Whether the exponent is negative, and its digits. -/
  exponent : Option (Bool × List Nat)
deriving DecidableEq, Repr, Inhabited

namespace Numeral

/-- Splits off leading digits. There has to be one. -/
def digits? (text : List Char) : Option (List Nat × List Char) :=
  match text.takeWhile Char.isDigit with
  | [] => none
  | digits => some (digits.map fun c => c.toNat - '0'.toNat, text.dropWhile Char.isDigit)

def fraction? : List Char → Option (Option (List Nat) × List Char)
  | '.' :: rest => (digits? rest).map fun (digits, rest) => (some digits, rest)
  | rest => some (none, rest)

/-- Splits off a sign. -/
def sign : List Char → Bool × List Char
  | '-' :: rest => (true, rest)
  | '+' :: rest => (false, rest)
  | rest => (false, rest)

def exponent? : List Char → Option (Option (Bool × List Nat) × List Char)
  | c :: rest =>
    if c = 'e' ∨ c = 'E' then
      let (negative, rest) := sign rest
      (digits? rest).map fun (digits, rest) => (some (negative, digits), rest)
    else some (none, c :: rest)
  | [] => some (none, [])

/-- Reads a number. Only zero itself starts with a zero. -/
def ofChars? (text : List Char) : Option Numeral := do
  let (negative, text) := match text with
    | '-' :: rest => (true, rest)
    | rest => (false, rest)
  let (whole, text) ← digits? text
  if whole.head? = some 0 ∧ whole ≠ [0] then none
  let (fraction, text) ← fraction? text
  let (exponent, text) ← exponent? text
  if text.isEmpty then return ⟨negative, whole, fraction, exponent⟩ else none

/-- Appends digits to a number as long as it stays below `2 ^ 64`, and gives the
digits that are left. -/
def absorb (n : Nat) : List Nat → Nat × List Nat
  | [] => (n, [])
  | d :: rest => if 10 * n + d < UInt64.size then absorb (10 * n + d) rest else (n, d :: rest)

/-- The double nearest to a power of ten. -/
def powerOfTen (k : Nat) : Nat := Floating.double.nearest (Floating.tenTo k) 1

/-- The largest power of ten that is a double. -/
def topPower : Nat := 308

/-- A double multiplied by a power of ten, unless that is too large. -/
def grow? (f k : Nat) : Option Nat :=
  if f = 0 then some 0
  else if topPower < k then none
  else
    let bits := Floating.double.product f (powerOfTen k)
    if Floating.double.isInfinite bits then none else some bits

/-- A double divided by a power of ten, in two steps where the power is too large to be a
double. Beyond two steps nothing is left. -/
def shrink (f k : Nat) : Nat :=
  if k ≤ topPower then Floating.double.quotient f (powerOfTen k)
  else if k ≤ 2 * topPower then
    Floating.double.quotient (Floating.double.quotient f (powerOfTen topPower))
      (powerOfTen (k - topPower))
  else 0

/-- `n * 10 ^ e` as a double, unless it is too large. -/
def scale? (n : Nat) (e : Int) : Option Nat :=
  let f := Floating.double.nearest n 1
  if 0 ≤ e then grow? f e.toNat else some (shrink f (-e).toNat)

/-- The largest exponent that is taken at its word. -/
def topExponent : Nat := 2147483647

/-- The double of a numeral whose leading digits are `n`, with `e` as the power of ten
of the last of them. -/
def double? (x : Numeral) (n : Nat) (e : Int) : Option Nat :=
  match x.exponent with
  | none => scale? n e
  | some (negative, digits) =>
    let exponent := digits.foldl (fun m d => 10 * m + d) 0
    if topExponent < exponent then
      if n ≠ 0 ∧ !negative then none else some 0
    else scale? n (if negative then e - exponent else e + exponent)

/-- The value of a number, unless it is too large. -/
def value? (x : Numeral) : Option Number :=
  let double (bits : Nat) : Number := .double (.ofNat (Floating.double.withSign x.negative bits))
  let (n, left) := absorb 0 x.whole
  match x.fraction with
  | some digits =>
    let (m, dropped) := absorb n digits
    (x.double? m (left.length - (digits.length - dropped.length : Nat))).map double
  | none =>
    if x.exponent.isNone ∧ left.isEmpty then
      if !x.negative then some (.integer n)
      else if n = 0 ∨ UInt64.size / 2 < n then some (double (Floating.double.nearest n 1))
      else some (.integer (-n))
    else (x.double? n left.length).map double

end Numeral

end Bindery.Json
