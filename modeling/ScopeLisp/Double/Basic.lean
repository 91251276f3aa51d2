import ScopeLisp.Power

/-!
# Double precision numbers

A `Double` is an IEEE 754 binary64 datum: a sign and a 63-bit magnitude, the exponent field above
the fraction field. Every finite number is an integer multiple of `2 ^ (-1074)`, and
`Double.units` is that integer without the sign. All arithmetic is exact on units and rounds once
at the end, to the nearest double and to the even neighbour from half way
(`Double.ofRatio`).
-/

namespace ScopeLisp

/-- A binary64 number: sign bit and the 63 bits below it. -/
structure Double where
  /-- The sign bit. -/
  negative : Bool
  /-- Exponent field (11 bits) above fraction field (52 bits). -/
  magnitude : Fin (twoPow 63)
deriving DecidableEq

/-- The integer nearest to `num / den`; from half way the even one. -/
def roundHalfEven (num den : Nat) : Nat :=
  let low := num / den
  let rest := 2 * (num % den)
  if rest < den then low
  else if den < rest then low + 1
  else low + low % 2

namespace Double

/-- The magnitude of infinity: all exponent bits, no fraction bits. -/
def infinityMagnitude : Nat := 2047 * twoPow 52

/-- The number with a given sign and magnitude, where everything past the largest finite magnitude
    is infinity. -/
def ofMagnitude (negative : Bool) (magnitude : Nat) : Double :=
  ⟨negative, ⟨min magnitude infinityMagnitude,
    Nat.lt_of_le_of_lt (Nat.min_le_right _ _) (by decide)⟩⟩

/-- Positive zero. -/
def zero : Double := ⟨false, ⟨0, by decide⟩⟩

/-- One. -/
def one : Double := ⟨false, ⟨1023 * twoPow 52, by decide⟩⟩

/-- Positive infinity. -/
def infinity : Double := ofMagnitude false infinityMagnitude

/-- The quiet not-a-number without payload. -/
def nan : Double := ⟨false, ⟨2047 * twoPow 52 + twoPow 51, by decide⟩⟩

/-- One of the two zeros. -/
def isZero (x : Double) : Bool :=
  x.magnitude.val = 0

/-- Neither infinite nor not-a-number. -/
def isFinite (x : Double) : Bool :=
  x.magnitude.val < infinityMagnitude

/-- One of the two infinities. -/
def isInfinite (x : Double) : Bool :=
  x.magnitude.val = infinityMagnitude

/-- Not a number: all exponent bits and some fraction bit. -/
def isNaN (x : Double) : Bool :=
  infinityMagnitude < x.magnitude.val

/-- The number with the opposite sign bit. -/
def neg (x : Double) : Double :=
  { x with negative := !x.negative }

/-- The absolute value of a finite number as a multiple of `2 ^ (-1074)`. -/
def units (x : Double) : Nat :=
  let exponent := x.magnitude.val / twoPow 52
  let fraction := x.magnitude.val % twoPow 52
  if exponent = 0 then fraction else (twoPow 52 + fraction) * twoPow (exponent - 1)

/-- A finite number as a multiple of `2 ^ (-1074)`. -/
def signedUnits (x : Double) : Int :=
  if x.negative then -(x.units : Int) else x.units

/-- The double nearest to `num / den` (with `den` positive), with the sign given; from half way the
    one with an even last bit, and infinity past the largest finite number.

    With `shift` the number of bits by which the quotient, counted in units, outgrows 53 bits, the
    significand is the quotient rounded at that place. Writing it below an exponent field of
    `shift` also covers subnormal numbers, where `shift` is zero, and a significand that rounds
    up to the next power of two, which carries into the exponent field. -/
def ofRatio (negative : Bool) (num den : Nat) : Double :=
  let scaled := num * twoPow 1074
  let shift := (scaled / den).log2 - 52
  ofMagnitude negative (shift * twoPow 52 + roundHalfEven scaled (den * twoPow shift))

/-- The double nearest to a natural number. -/
def ofNat (n : Nat) : Double := ofRatio false n 1

/-- The sum, rounded once. Opposite infinities have no sum, and a sum of zero is negative only if
    both terms are. -/
def add (x y : Double) : Double :=
  if x.isNaN || y.isNaN then nan
  else if x.isInfinite then
    if y.isInfinite && x.negative != y.negative then nan else x
  else if y.isInfinite then y
  else
    let sum := x.signedUnits + y.signedUnits
    if sum = 0 then { zero with negative := x.negative && y.negative }
    else ofRatio (sum < 0) sum.natAbs (twoPow 1074)

/-- Numeric equality: not-a-number differs from everything, itself included, and the two zeros are
    equal. Being the same datum is `=`. -/
def equals (x y : Double) : Bool :=
  !x.isNaN && !y.isNaN && (x = y || (x.isZero && y.isZero))

/-- The number with a given bit pattern of 64 bits. -/
def ofBits (bits : Nat) : Double :=
  ⟨twoPow 63 ≤ bits, ⟨bits % twoPow 63, Nat.mod_lt _ (by decide)⟩⟩

/-- Rounding keeps the sign. -/
@[simp] theorem negative_ofRatio (negative : Bool) (num den : Nat) :
    (ofRatio negative num den).negative = negative := rfl

/-- Rounding never yields not-a-number. -/
theorem isNaN_ofRatio (negative : Bool) (num den : Nat) :
    (ofRatio negative num den).isNaN = false :=
  decide_eq_false (Nat.not_lt.2 (Nat.min_le_right _ _))

end Double

end ScopeLisp
