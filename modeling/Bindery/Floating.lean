/-!
Binary floating-point formats, on bit patterns.

A format is given by the widths of its fraction and exponent fields. `decode`
says which number a bit pattern denotes, `nearest` gives the pattern of the
number nearest to a fraction. All arithmetic is exact, on natural numbers.
-/

namespace Bindery.Floating

def twoTo (n : Nat) : Nat := Nat.pow 2 n

def tenTo (n : Nat) : Nat := Nat.pow 10 n

/-- A binary interchange format: a sign, an exponent field and a fraction field. -/
structure Format where
  fractionBits : Nat
  exponentBits : Nat
deriving DecidableEq, Repr

def single : Format := ⟨23, 8⟩

def double : Format := ⟨52, 11⟩

/-- What a bit pattern denotes; a finite number is `mantissa * 2 ^ exponent`. -/
inductive Number where
  | nan
  | infinite (negative : Bool)
  | finite (negative : Bool) (mantissa : Nat) (exponent : Int)
deriving DecidableEq, Repr

namespace Format

variable (f : Format)

/-- The exponent field of infinities and of what is no number. -/
def topField : Nat := twoTo f.exponentBits - 1

/-- The exponent of the smallest positive number. -/
def leastExponent : Int :=
  2 - (twoTo (f.exponentBits - 1) : Nat) - f.fractionBits

def signBit : Nat := twoTo (f.fractionBits + f.exponentBits)

def decode (bits : Nat) : Number :=
  let fraction := bits % twoTo f.fractionBits
  let field := bits / twoTo f.fractionBits % twoTo f.exponentBits
  let negative := bits / f.signBit % 2 == 1
  if field = f.topField then
    if fraction = 0 then .infinite negative else .nan
  else if field = 0 then
    .finite negative fraction f.leastExponent
  else
    .finite negative (twoTo f.fractionBits + fraction) (f.leastExponent + (field - 1 : Nat))

/-- `numerator / denominator` rounded to the nearest whole number, a half to the
even one. -/
def roundHalfEven (numerator denominator : Nat) : Nat :=
  let q := numerator / denominator
  let r := numerator % denominator
  if denominator < 2 * r || (2 * r = denominator && q % 2 == 1) then q + 1 else q

/-- The fraction `numerator / (denominator * 2 ^ e)` as a pair. -/
def scaleDown (numerator denominator : Nat) (e : Int) : Nat × Nat :=
  (numerator * twoTo (-e).toNat, denominator * twoTo e.toNat)

/-- The pattern, without a sign, of the number nearest to `numerator / denominator`.
Of two nearest ones it is the one with the even pattern; what lies beyond the
largest number by half a step or more is infinite.

Consecutive patterns denote consecutive numbers, so a mantissa that is rounded up
to the next power of two needs no care. -/
def nearest (numerator denominator : Nat) : Nat :=
  if numerator = 0 then 0
  else
    let below : Int :=
      (Nat.log2 numerator : Int) - Nat.log2 denominator - 1 - f.fractionBits
    let e := max f.leastExponent below
    let scaled := scaleDown numerator denominator e
    let e := if twoTo (f.fractionBits + 1) ≤ scaled.1 / scaled.2 then e + 1 else e
    let scaled := scaleDown numerator denominator e
    let bits := (e - f.leastExponent).toNat * twoTo f.fractionBits +
      roundHalfEven scaled.1 scaled.2
    min bits (f.topField * twoTo f.fractionBits)

def withSign (negative : Bool) (bits : Nat) : Nat :=
  if negative then f.signBit + bits else bits

def isInfinite (bits : Nat) : Bool :=
  bits == f.topField * twoTo f.fractionBits

/-- `mantissa * 2 ^ exponent` as a fraction. -/
def ratio (mantissa : Nat) (exponent : Int) : Nat × Nat :=
  (mantissa * twoTo exponent.toNat, twoTo (-exponent).toNat)

/-- The size of the number that `bits` denotes, as a fraction; zero for what is not
finite. -/
def magnitude (bits : Nat) : Nat × Nat :=
  match f.decode bits with
  | .finite _ mantissa exponent => ratio mantissa exponent
  | _ => (0, 1)

/-- The rounded product of two finite numbers, without a sign. -/
def product (a b : Nat) : Nat :=
  let x := f.magnitude a
  let y := f.magnitude b
  f.nearest (x.1 * y.1) (x.2 * y.2)

/-- The rounded quotient of two finite numbers, without a sign. -/
def quotient (a b : Nat) : Nat :=
  let x := f.magnitude a
  let y := f.magnitude b
  f.nearest (x.1 * y.2) (x.2 * y.1)

/-- The pattern in format `g` nearest to what `bits` denotes in format `f`. -/
def convert (g : Format) (bits : Nat) : Nat :=
  match f.decode bits with
  | .nan => g.topField * twoTo g.fractionBits + twoTo (g.fractionBits - 1)
  | .infinite negative => g.withSign negative (g.topField * twoTo g.fractionBits)
  | .finite negative mantissa exponent =>
    let value := ratio mantissa exponent
    g.withSign negative (g.nearest value.1 value.2)

end Format

end Bindery.Floating
