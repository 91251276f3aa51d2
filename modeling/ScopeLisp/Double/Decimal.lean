import ScopeLisp.Double.Basic

/-!
# Decimal forms of a double

`Double.ofDecimal` reads a decimal with one correct rounding. `Double.shortest` is the way back:
the decimal with the fewest digits that reads back to the number, and among those the one nearest
to it. It looks at the two neighbours of the number on the grid of decimals with one digit, with
two digits, and so on, and takes the first grid on which one of them reads back. The number's own
finite decimal expansion lies on the last grid, so the search ends.
-/

namespace ScopeLisp

/-- The decimal `digits * 10 ^ exponent`. -/
structure Decimal where
  digits : Nat
  exponent : Int
deriving DecidableEq

/-- Which of two equally near decimals is taken. -/
inductive Tie where
  | up
  | toEven
deriving DecidableEq

namespace Decimal

/-- The number of digits written. -/
def length (d : Decimal) : Nat :=
  (Nat.toDigits 10 d.digits).length

/-- Moves up to `fuel` zeros at the end of the digits into the exponent. -/
def trimUpTo : Nat → Decimal → Decimal
  | 0, d => d
  | fuel + 1, d =>
    if d.digits % 10 = 0 then trimUpTo fuel ⟨d.digits / 10, d.exponent + 1⟩ else d

/-- The same value without zeros at the end of the digits; zero has exponent zero. -/
def trim (d : Decimal) : Decimal :=
  if d.digits = 0 then ⟨0, 0⟩ else trimUpTo d.length d

/-- The digits before and after the decimal point, the first never empty. -/
def split (d : Decimal) : List Char × List Char :=
  let digits := Nat.toDigits 10 d.digits
  match d.exponent with
  | .ofNat n => (digits ++ List.replicate n '0', [])
  | .negSucc n =>
    -- Zeros in front make room for the point and one digit before it.
    let padded := List.replicate (n + 2 - digits.length) '0' ++ digits
    padded.splitAt (padded.length - (n + 1))

/-- The exponent of the first digit. -/
def leadingExponent (d : Decimal) : Int :=
  d.exponent + d.length - 1

end Decimal

namespace Double

/-- The double nearest to `digits * 10 ^ exponent`. Past `10 ^ 308` every nonzero integer
    multiple of the power of ten overflows. -/
def ofDecimal (d : Decimal) : Double :=
  match d.exponent with
  | .ofNat n =>
    if d.digits = 0 then zero
    else if 308 < n then infinity
    else ofRatio false (d.digits * tenPow n) 1
  | .negSucc n => ofRatio false d.digits (tenPow (n + 1))

/-- A decimal reads back to a number, sign aside. -/
def readsBack (x : Double) (d : Decimal) : Bool :=
  (ofDecimal d).magnitude = x.magnitude

/-- The absolute value as a fraction in lowest terms; the denominator is a power of two. -/
def lowestTerms (x : Double) : Nat × Nat :=
  let common := Nat.gcd x.units (twoPow 1074)
  (x.units / common, twoPow 1074 / common)

/-- The absolute value as a decimal, with all its digits: over a denominator of `2 ^ n`, five to
    the power `n` times the numerator are the digits down to the `n`-th place. -/
def expansion (x : Double) : Decimal :=
  let (num, den) := x.lowestTerms
  let places := den.log2
  ⟨num * fivePow places, -(places : Int)⟩

/-- The neighbour of `x` on the grid of decimals that end `place` digits before the end of its
    expansion, if it reads back to `x`; the nearer one if both neighbours do. -/
def onGrid? (tie : Tie) (x : Double) (expansion : Decimal) (place : Nat) : Option Decimal :=
  let step := tenPow place
  let below := expansion.digits / step
  let rest := 2 * (expansion.digits % step)
  let low : Decimal := ⟨below, expansion.exponent + place⟩
  let high : Decimal := ⟨below + 1, expansion.exponent + place⟩
  -- Beyond half way the upper neighbour is the nearer one; at half way the tie decides.
  let goesUp := step < rest || (step = rest && (tie = .up || below % 2 = 1))
  if x.readsBack low then
    if goesUp && x.readsBack high then some high else some low
  else if x.readsBack high then some high else none

/-- The decimal with the fewest digits that reads back to the absolute value of a finite number;
    the nearest of those, and from half way the one that `tie` names. -/
def shortest (tie : Tie) (x : Double) : Decimal :=
  let expansion := x.expansion
  -- From the coarsest grid to the finest.
  let hit := (List.range expansion.length).findSome? fun count =>
    x.onGrid? tie expansion (expansion.length - 1 - count)
  (hit.getD expansion).trim

end Double

end ScopeLisp
