import Bindery.Floating.Shortest

/-!
How floating-point numbers are written.

All styles write the shortest digits that read back. A `Style` says where the
positional notation ends and whether whole numbers keep a fraction.
-/

namespace Bindery.Floating

/-- The decisions of a notation. -/
structure Style where
  /-- The positions of the point, counted from before the first digit, for which
  digits are written positionally; all of them when there is no bound. -/
  plain : Option (Int × Int)
  /-- Whether a whole number ends in `.0`. -/
  pointZero : Bool
deriving Repr

/-- Positional from `0.0001` up to, not including, `1e16`. -/
def listingStyle : Style where
  plain := some (-3, 16)
  pointZero := true

/-- Positional throughout; whole numbers have no fraction. -/
def plainStyle : Style where
  plain := none
  pointZero := false

/-- Positional from `0.00001` up to, not including, `1e16`. -/
def dataStyle : Style where
  plain := some (-4, 16)
  pointZero := true

namespace Style

variable (style : Style)

/-- Digits with the point at `point`, filled up with zeros. -/
def positional (digits : List Char) (point : Int) : List Char :=
  let count := digits.length
  if point ≤ 0 then
    '0' :: '.' :: (List.replicate (-point).toNat '0' ++ digits)
  else if count ≤ point.toNat then
    digits ++ List.replicate (point.toNat - count) '0' ++
      (if style.pointZero then ['.', '0'] else [])
  else
    digits.take point.toNat ++ '.' :: digits.drop point.toNat

/-- Digits with the point after the first one, and the exponent that is left. -/
def scientific (digits : List Char) (point : Int) : List Char :=
  let fraction := match digits.drop 1 with
    | [] => []
    | rest => '.' :: rest
  digits.take 1 ++ fraction ++ 'e' :: (toString (point - 1)).toList

/-- Whether the point may stand at `point` in positional notation. -/
def isPlain (point : Int) : Bool :=
  match style.plain with
  | none => true
  | some (first, last) => first ≤ point && point ≤ last

def layout (d : Decimal) : List Char :=
  let digits := d.characters
  if style.isPlain d.point then style.positional digits d.point
  else scientific digits d.point

/-- The text of a number. Zero keeps its sign. -/
def text (f : Format) (bits : Nat) : String :=
  match f.decode bits with
  | .nan => "NaN"
  | .infinite negative => if negative then "-inf" else "inf"
  | .finite negative mantissa exponent =>
    let magnitude :=
      if mantissa = 0 then (if style.pointZero then ['0', '.', '0'] else ['0'])
      else style.layout (f.shortest mantissa exponent)
    String.ofList (if negative then '-' :: magnitude else magnitude)

end Style

end Bindery.Floating
