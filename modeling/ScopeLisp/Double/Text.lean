import ScopeLisp.Double.Decimal

/-!
# Text of a double

Numbers are written positionally, never with an exponent: the shortest digits that read back, a
tie going up, zeros filled in up to the decimal point, and no point after an integer. Minus zero
is `-0`.
-/

namespace ScopeLisp

/-- A decimal without exponent: `1200`, `0.034`. -/
def Decimal.positional (d : Decimal) : String :=
  match d.split with
  | (whole, []) => String.ofList whole
  | (whole, fraction) => String.ofList (whole ++ '.' :: fraction)

/-- The text of a number, with a word for infinity. -/
def Double.text (infinityWord : String) (x : Double) : String :=
  if x.isNaN then "NaN"
  else
    (if x.negative then "-" else "") ++
      (if x.isInfinite then infinityWord else (x.shortest .up).positional)

end ScopeLisp
